/-
# `EDRStore.Restore` — from the record of a chunk back to the chunk

A chunk stored as a delta against a cached base comes back in two ways.  While
the base is in the reader's inform cache the server decodes the delta and sends
ciphertext; once it is gone the server sends the delta with the base's
compressed ciphertext, and the client rebuilds the cached ciphertext from it,
under the key recorded for the chunk itself.  Both ways lead to the chunk when
the base has a record of its own that is no such delta, and that key is the
base's.
-/
import EDRStore.Records

namespace EDRStore

variable {cfg : Components} {U : PlainChunk → Prop} {log : Content} {srv : Server}
  {cur : ClientStore} {informCache : InformCache}

/-- Every record lies in a container that has its file. -/
def AllSaved (srv : Server) : Prop :=
  ∀ {fp addr}, srv.fp2AddrDb.lookup fp = some addr → addr.containerId ∈ srv.storageCore.containers

/-! ## The server's side -/

section Fetch

variable {x y : PlainChunk} {addr : KeyForChunkHashDB}

/-- The base is cached: the server decodes the delta. -/
theorem restoreChunk_hit (h : Records cfg U log srv) (hst : LogOk cfg log srv.storageCore)
    (hc : CacheOk srv.storageCore cur.containerCache) (hsaved : AllSaved srv) {base data : Bytes}
    (hl : srv.fp2AddrDb.lookup (x.fp cfg) = some addr) (hs : addr.stat = .cacheDeltaChunk)
    (hin : informCache.isBaseChunkExist addr.baseFp = true)
    (hbase : informCache.base2DataDb.lookup addr.baseFp = some base)
    (hd : cfg.deltaDecode base (addr.extent.read log) = some data) :
    ∃ cache, DataDecoderThd.restoreChunk cfg srv informCache (x.fp cfg) cur =
        .ok ([⟨.data .uncompNormalChunk, data⟩], { cur with containerCache := cache }) ∧
      CacheOk srv.storageCore cache := by
  obtain ⟨cache, hread, hcache⟩ := readInto_spec hst hc (Or.inl (hsaved hl)) (h.within hl)
  refine ⟨cache, ?_, hcache⟩
  simp only [DataDecoderThd.restoreChunk, DataReaderThd.fetchChunk,
    DataReaderThd.procCacheDeltaChunk, InformCache.fetchBaseChunk, hl, orExit_some, ok_bind, hread,
    hs, hin, if_true, hbase, DataDecoderThd.decodeChunk, hd]

/-- The base is not cached, and its own record gives its compressed ciphertext:
both go to the client. -/
theorem restoreChunk_miss (h : Records cfg U log srv) (hst : LogOk cfg log srv.storageCore)
    (hc : CacheOk srv.storageCore cur.containerCache) (hsaved : AllSaved srv)
    {baseAddr : KeyForChunkHashDB}
    (hl : srv.fp2AddrDb.lookup (x.fp cfg) = some addr) (hs : addr.stat = .cacheDeltaChunk)
    (hout : informCache.isBaseChunkExist addr.baseFp = false)
    (hbl : srv.fp2AddrDb.lookup addr.baseFp = some baseAddr)
    (hbs : baseAddr.stat ≠ .cacheDeltaChunk) (hy : Held cfg U log srv y baseAddr) :
    ∃ cache, DataDecoderThd.restoreChunk cfg srv informCache (x.fp cfg) cur =
        .ok ([⟨.data .cacheRestoreDelta, addr.extent.read log⟩,
          ⟨.data .cacheRestoreBase, y.comp cfg⟩], { cur with containerCache := cache }) ∧
      CacheOk srv.storageCore cache := by
  obtain ⟨cache, hread, hcache⟩ := readInto_spec hst hc (Or.inl (hsaved hl)) (h.within hl)
  obtain ⟨cache', hread', hcache'⟩ := readInto_spec hst hcache
    (show Found cfg log srv.storageCore { cur with containerCache := cache } baseAddr from
      Or.inl (hsaved hbl)) (h.within hbl)
  cases hy with
  | base hbs hr =>
      refine ⟨cache', ?_, hcache'⟩
      simp only [DataDecoderThd.restoreChunk, DataReaderThd.fetchChunk,
        DataReaderThd.procCacheDeltaChunk, hl, orExit_some, ok_bind, hread, hs, hout,
        Bool.false_eq_true, if_false, hbl, hbs, hread', hr, DataDecoderThd.decodeChunk]
  | delta hbs hbbl hbb hbd =>
      obtain ⟨cache'', hread'', hcache''⟩ := readInto_spec hst hcache'
        (show Found cfg log srv.storageCore { cur with containerCache := cache' } _ from
          Or.inl (hsaved hbbl)) (h.within hbbl)
      refine ⟨cache'', ?_, hcache''⟩
      simp only [DataDecoderThd.restoreChunk, DataReaderThd.fetchChunk,
        DataReaderThd.procCacheDeltaChunk, hl, orExit_some, ok_bind, hread, hs, hout,
        Bool.false_eq_true, if_false, hbl, hbs, hread', hbbl, hread'', hbd,
        DataDecoderThd.decodeChunk]
  | cacheDelta hbs' => exact absurd hbs' hbs

end Fetch

/-! ## The client's side -/

section Retrieve

variable {x y : PlainChunk} (rest : List RestoreChunk)

theorem fullEDRItem_comp (hen : cfg.EncRoundTrip) (hco : cfg.CompRoundTrip) :
    DataRetrieverThd.fullEDRItem cfg x.key (⟨.data .compNormalChunk, x.comp cfg⟩ :: rest) =
      .ok (x.data, rest) := by
  simp only [DataRetrieverThd.fullEDRItem, DataRetrieverThd.procCompChunk, PlainChunk.comp,
    hen _ _, orExit_some, ok_bind, hco _ _]

theorem fullEDRItem_uncomp (hen : cfg.EncRoundTrip) :
    DataRetrieverThd.fullEDRItem cfg x.key (⟨.data .uncompNormalChunk, x.enc cfg⟩ :: rest) =
      .ok (x.data, rest) := by
  simp only [DataRetrieverThd.fullEDRItem, DataRetrieverThd.procUncompChunk, PlainChunk.enc,
    hen _ _, orExit_some, ok_bind]

/-- Under the base's key the client rebuilds the ciphertext that was cached. -/
theorem fullEDRItem_restore (hen : cfg.EncRoundTrip) (hco : cfg.CompRoundTrip)
    (hk : y.key = x.key) {delta : Bytes}
    (hd : cfg.deltaDecode (y.enc cfg) delta = some (x.enc cfg)) :
    DataRetrieverThd.fullEDRItem cfg x.key
        (⟨.data .cacheRestoreDelta, delta⟩ :: ⟨.data .cacheRestoreBase, y.comp cfg⟩ :: rest) =
      .ok (x.data, rest) := by
  have hbase : DataRetrieverThd.procRestoreBaseChunk cfg (y.comp cfg) x.key = .ok (y.enc cfg) := by
    rw [← hk]
    simp only [DataRetrieverThd.procRestoreBaseChunk, PlainChunk.comp, PlainChunk.enc, hen _ _,
      orExit_some, ok_bind, hco _ _]
  have hunc : DataRetrieverThd.procUncompChunk cfg (x.enc cfg) x.key = .ok x.data := by
    simp only [DataRetrieverThd.procUncompChunk, PlainChunk.enc, hen _ _, orExit_some]
  simp only [DataRetrieverThd.fullEDRItem, hbase, ok_bind, hd, orExit_some, hunc]

end Retrieve

/-! ## One chunk, and a whole file -/

/-- Some chunk sent under the key `k` has the fingerprint `fp`. -/
def KeyOf (cfg : Components) (U : PlainChunk → Prop) (fp : Fp) (k : Key) : Prop :=
  ∃ y, U y ∧ y.fp cfg = fp ∧ y.key = k

/-- A delta against a cached base can be undone without the cache: the base has
a record of another form, and the base's key is `k`. -/
def BaseServes (cfg : Components) (U : PlainChunk → Prop) (srv : Server) (addr : KeyForChunkHashDB)
    (k : Key) : Prop :=
  addr.stat = .cacheDeltaChunk →
    KeyOf cfg U addr.baseFp k ∧
      ∀ baseAddr ∈ srv.fp2AddrDb.lookup addr.baseFp, baseAddr.stat ≠ .cacheDeltaChunk

/-- The laws a restore relies on. -/
structure Restorable (cfg : Components) (U : PlainChunk → Prop) : Prop where
  collisionFree : CollisionFree cfg U
  enc : cfg.EncRoundTrip
  comp : cfg.CompRoundTrip

theorem restoreChunk_item (hlaw : Restorable cfg U) (h : Records cfg U log srv)
    (hst : LogOk cfg log srv.storageCore) (hc : CacheOk srv.storageCore cur.containerCache)
    (hsaved : AllSaved srv) (hcache : CacheHolds cfg U srv informCache) {x : PlainChunk}
    {addr : KeyForChunkHashDB} (hx : U x) (hl : srv.fp2AddrDb.lookup (x.fp cfg) = some addr)
    (hb : BaseServes cfg U srv addr x.key) :
    ∃ entries cache, DataDecoderThd.restoreChunk cfg srv informCache (x.fp cfg) cur =
        .ok (entries, { cur with containerCache := cache }) ∧
      CacheOk srv.storageCore cache ∧
      ∀ rest, DataRetrieverThd.fullEDRItem cfg x.key (entries ++ rest) = .ok (x.data, rest) := by
  cases h.of_known hlaw.collisionFree hx hl with
  | base hs hr =>
      obtain ⟨cache, heq, hok⟩ := restoreChunk_base informCache hst hc hl hs (Or.inl (hsaved hl))
        (h.within hl)
      refine ⟨_, cache, heq, hok, fun rest => ?_⟩
      rw [hr]
      exact fullEDRItem_comp rest hlaw.enc hlaw.comp
  | delta hs hbl hbs hd =>
      obtain ⟨cache, heq, hok⟩ := restoreChunk_delta informCache hst hc hl hs (Or.inl (hsaved hl))
        (h.within hl) hbl hbs (Or.inl (hsaved hbl)) (h.within hbl) hd
      exact ⟨_, cache, heq, hok, fun rest => fullEDRItem_comp rest hlaw.enc hlaw.comp⟩
  | @cacheDelta y hs hy hbfp hk hd =>
      cases hin : informCache.isBaseChunkExist addr.baseFp with
      | true =>
          have hmem : addr.baseFp ∈ informCache.base2CntIdx :=
            Index.mem_iff_lookup.mpr (Option.isSome_iff_exists.mp hin)
          obtain ⟨base, hbase⟩ := Index.lookup_isSome_of_mem (hcache.kept _ hmem)
          obtain ⟨z, hz, hzfp, rfl⟩ := hcache.data hbase
          obtain ⟨he, -⟩ := hlaw.collisionFree hz hy (hzfp.trans hbfp)
          rw [← he] at hd
          obtain ⟨cache, heq, hok⟩ := restoreChunk_hit h hst hc hsaved hl hs hin hbase hd
          exact ⟨_, cache, heq, hok, fun rest => fullEDRItem_uncomp rest hlaw.enc⟩
      | false =>
          obtain ⟨⟨z, hz, hzfp, hzk⟩, hform⟩ := hb hs
          obtain ⟨baseAddr, hbl⟩ := Index.lookup_isSome_of_mem hk
          rw [← hbfp] at hbl
          have hheld := h.of_known hlaw.collisionFree hz (by rw [hzfp]; exact hbl)
          obtain ⟨he, -⟩ := hlaw.collisionFree hz hy (hzfp.trans hbfp)
          rw [← he] at hd
          obtain ⟨cache, heq, hok⟩ :=
            restoreChunk_miss h hst hc hsaved hl hs hin hbl (hform _ hbl) hheld
          exact ⟨_, cache, heq, hok, fun rest => fullEDRItem_restore rest hlaw.enc hlaw.comp hzk hd⟩

/-- A file, chunk by chunk; the reader's container cache goes from one to the
next. -/
theorem restoreFile_chunks (hlaw : Restorable cfg U) (h : Records cfg U log srv)
    (hst : LogOk cfg log srv.storageCore) (hsaved : AllSaved srv)
    (hcache : CacheHolds cfg U srv informCache) (xs : List PlainChunk) :
    ∀ cur : ClientStore, CacheOk srv.storageCore cur.containerCache →
      (∀ x ∈ xs, U x ∧ x.fp cfg ∈ srv.fp2AddrDb ∧
        ∀ addr ∈ srv.fp2AddrDb.lookup (x.fp cfg), BaseServes cfg U srv addr x.key) →
      ∃ entries cur', World.restoreFile cfg srv informCache cur (xs.map (PlainChunk.fp cfg)) =
          .ok (entries, cur') ∧
        DataRetrieverThd.fullEDR cfg (xs.map PlainChunk.key) entries =
          .ok (xs.map PlainChunk.data) := by
  induction xs with
  | nil => intro cur _ _; exact ⟨[], cur, rfl, rfl⟩
  | cons x xs ih =>
      intro cur hc hxs
      obtain ⟨hx, hmem, hb⟩ := hxs x List.mem_cons_self
      obtain ⟨addr, hl⟩ := Index.lookup_isSome_of_mem hmem
      obtain ⟨entries, cache, heq, hok, hitem⟩ :=
        restoreChunk_item hlaw h hst hc hsaved hcache hx hl (hb addr hl)
      obtain ⟨entries', cur', heq', hfull⟩ :=
        ih { cur with containerCache := cache } hok fun z hz => hxs z (List.mem_cons_of_mem _ hz)
      refine ⟨entries ++ entries', cur', ?_, ?_⟩
      · simp only [List.map_cons, World.restoreFile, heq, ok_bind, heq']
      · simp only [List.map_cons, DataRetrieverThd.fullEDR, hitem, ok_bind, hfull]

end EDRStore
