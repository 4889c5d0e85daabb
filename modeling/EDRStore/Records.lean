/-
# `EDRStore.Records` — what the records and the cached bases stand for

Whatever session wrote a record, it stands for a chunk `x` that was sent: the
bytes behind it are `x`'s compressed ciphertext, or a delta for it against a
plain record, or a delta for `x`'s ciphertext against the ciphertext of another
chunk `y` that was cached when `x` came.

    Held         one record, and what it takes to get the chunk back from it
    Records      all records of a server, and its feature index
    CacheHolds   the cached bases of one client id

`U` is the set of chunks that are ever sent; fingerprints are only assumed not
to collide on it.
-/
import EDRStore.System

namespace EDRStore

/-- No two of the chunks sent share a fingerprint without sharing both
ciphertexts. -/
def CollisionFree (cfg : Components) (U : PlainChunk → Prop) : Prop :=
  ∀ {x y}, U x → U y → x.fp cfg = y.fp cfg → x.enc cfg = y.enc cfg ∧ x.comp cfg = y.comp cfg

/-- The record of the chunk `x`. -/
inductive Held (cfg : Components) (U : PlainChunk → Prop) (log : Content) (srv : Server)
    (x : PlainChunk) (addr : KeyForChunkHashDB) : Prop
  | base (hs : addr.stat = .compBaseChunk) (hr : addr.extent.read log = x.comp cfg)
  | delta {baseAddr} (hs : addr.stat = .compDeltaChunk)
      (hl : srv.fp2AddrDb.lookup addr.baseFp = some baseAddr)
      (hb : baseAddr.stat = .compBaseChunk)
      (hd : cfg.deltaDecode (baseAddr.extent.read log) (addr.extent.read log) = some (x.comp cfg))
  | cacheDelta {y} (hs : addr.stat = .cacheDeltaChunk) (hy : U y) (hb : addr.baseFp = y.fp cfg)
      (hk : y.fp cfg ∈ srv.fp2AddrDb)
      (hd : cfg.deltaDecode (y.enc cfg) (addr.extent.read log) = some (x.enc cfg))

/-- The indexes of a server whose containers hold the segments `log`. -/
structure Records (cfg : Components) (U : PlainChunk → Prop) (log : Content) (srv : Server) :
    Prop where
  /-- The feature index names plain chunks only. -/
  features : ∀ {f base}, srv.feature2FpDb.lookup f = some base →
    ∃ addr, srv.fp2AddrDb.lookup base = some addr ∧ addr.stat = .compBaseChunk
  within : ∀ {fp addr}, srv.fp2AddrDb.lookup fp = some addr → addr.extent.Within log
  solid : ∀ {fp addr}, srv.fp2AddrDb.lookup fp = some addr → addr.extent.read log ≠ []
  held : ∀ {fp addr}, srv.fp2AddrDb.lookup fp = some addr →
    ∃ x, U x ∧ x.fp cfg = fp ∧ Held cfg U log srv x addr

/-- The cached bases of a client id: ciphertexts of chunks that have a record. -/
structure CacheHolds (cfg : Components) (U : PlainChunk → Prop) (srv : Server) (c : InformCache) :
    Prop where
  data : ∀ {fp d}, c.base2DataDb.lookup fp = some d → ∃ y, U y ∧ y.fp cfg = fp ∧ d = y.enc cfg
  known : ∀ fp ∈ c.base2DataDb, fp ∈ srv.fp2AddrDb
  kept : ∀ fp ∈ c.base2CntIdx, fp ∈ c.base2DataDb

variable {cfg : Components} {U : PlainChunk → Prop} {log log' : Content} {srv srv' : Server}

/-! ## Records -/

namespace Held

variable {x : PlainChunk} {addr : KeyForChunkHashDB}

/-- A record stays what it is while the log grows and records are only added. -/
theorem mono (h : Held cfg U log srv x addr) (hgrow : Grows log log')
    (hkeep : ∀ {fp a}, srv.fp2AddrDb.lookup fp = some a → srv'.fp2AddrDb.lookup fp = some a)
    (hw : ∀ {fp a}, srv.fp2AddrDb.lookup fp = some a → a.extent.Within log)
    (ha : addr.extent.Within log) : Held cfg U log' srv' x addr := by
  cases h with
  | base hs hr => exact .base hs (by rw [Extent.read_of_grows hgrow ha, hr])
  | delta hs hl hb hd =>
      refine .delta hs (hkeep hl) hb ?_
      rw [Extent.read_of_grows hgrow ha, Extent.read_of_grows hgrow (hw hl)]
      exact hd
  | cacheDelta hs hy hb hk hd =>
      refine .cacheDelta hs hy hb ?_ ?_
      · obtain ⟨a, ha⟩ := Index.lookup_isSome_of_mem hk
        exact Index.mem_of_lookup (hkeep ha)
      · rw [Extent.read_of_grows hgrow ha]
        exact hd

/-- The record serves every chunk with the same ciphertexts. -/
theorem congr {y : PlainChunk} (h : Held cfg U log srv x addr) (he : x.enc cfg = y.enc cfg)
    (hc : x.comp cfg = y.comp cfg) : Held cfg U log srv y addr := by
  cases h with
  | base hs hr => exact .base hs (hr.trans hc)
  | delta hs hl hb hd => exact .delta hs hl hb (hc ▸ hd)
  | cacheDelta hs hy hb hk hd => exact .cacheDelta hs hy hb hk (he ▸ hd)

end Held

namespace Records

theorem empty (log : Content) : Records cfg U log Server.empty where
  features := fun h => by simp [Server.empty] at h
  within := fun h => by simp [Server.empty] at h
  solid := fun h => by simp [Server.empty] at h
  held := fun h => by simp [Server.empty] at h

/-- The records say nothing about the container files. -/
theorem congr (h : Records cfg U log srv) (hdb : srv'.fp2AddrDb = srv.fp2AddrDb)
    (hf : srv'.feature2FpDb = srv.feature2FpDb) : Records cfg U log srv' where
  features := by rw [hdb, hf]; exact h.features
  within := by rw [hdb]; exact h.within
  solid := by rw [hdb]; exact h.solid
  held := by
    intro fp addr hl
    rw [hdb] at hl
    obtain ⟨x, hx, hfp, hh⟩ := h.held hl
    refine ⟨x, hx, hfp, hh.mono (Grows.refl log) ?_ h.within (h.within hl)⟩
    intro fp a ha
    rw [hdb]
    exact ha

/-- The record of a chunk that was sent, through whatever chunk wrote it. -/
theorem of_known (h : Records cfg U log srv) (hcf : CollisionFree cfg U) {x : PlainChunk}
    (hx : U x) {addr : KeyForChunkHashDB} (hl : srv.fp2AddrDb.lookup (x.fp cfg) = some addr) :
    Held cfg U log srv x addr := by
  obtain ⟨y, hy, hfp, hh⟩ := h.held hl
  obtain ⟨he, hc⟩ := hcf hy hx hfp
  exact hh.congr he hc

/-- One more record, for a chunk that had none. -/
theorem add (h : Records cfg U log srv) (hgrow : Grows log log') {x : PlainChunk}
    {addr : KeyForChunkHashDB} (hx : U x) (hnew : x.fp cfg ∉ srv.fp2AddrDb)
    (hl : ∀ fp, srv'.fp2AddrDb.lookup fp =
      if fp = x.fp cfg then some addr else srv.fp2AddrDb.lookup fp)
    (hf : ∀ {f base}, srv'.feature2FpDb.lookup f = some base →
      (base = x.fp cfg ∧ addr.stat = .compBaseChunk) ∨ srv.feature2FpDb.lookup f = some base)
    (hw : addr.extent.Within log') (hne : addr.extent.read log' ≠ [])
    (hh : Held cfg U log' srv' x addr) : Records cfg U log' srv' := by
  have hself : srv'.fp2AddrDb.lookup (x.fp cfg) = some addr := by rw [hl, if_pos rfl]
  have hkeep : ∀ {fp a}, srv.fp2AddrDb.lookup fp = some a → srv'.fp2AddrDb.lookup fp = some a := by
    intro fp a ha
    rw [hl, if_neg, ha]
    rintro rfl
    exact hnew (Index.mem_of_lookup ha)
  have hold : ∀ {fp a}, srv'.fp2AddrDb.lookup fp = some a →
      (fp = x.fp cfg ∧ a = addr) ∨ srv.fp2AddrDb.lookup fp = some a := by
    intro fp a ha
    rw [hl] at ha
    split at ha
    · rename_i hfp; cases ha; exact Or.inl ⟨hfp, rfl⟩
    · exact Or.inr ha
  refine ⟨?_, ?_, ?_, ?_⟩
  · intro f base hb
    rcases hf hb with ⟨rfl, hs⟩ | hb
    · exact ⟨addr, hself, hs⟩
    · obtain ⟨a, ha, hs⟩ := h.features hb
      exact ⟨a, hkeep ha, hs⟩
  · intro fp a ha
    rcases hold ha with ⟨rfl, rfl⟩ | ha
    · exact hw
    · exact Extent.within_of_grows hgrow (h.within ha)
  · intro fp a ha
    rcases hold ha with ⟨rfl, rfl⟩ | ha
    · exact hne
    · rw [Extent.read_of_grows hgrow (h.within ha)]
      exact h.solid ha
  · intro fp a ha
    rcases hold ha with ⟨rfl, rfl⟩ | ha
    · exact ⟨x, hx, rfl, hh⟩
    · obtain ⟨y, hy, hfp, hyh⟩ := h.held ha
      exact ⟨y, hy, hfp, hyh.mono hgrow hkeep h.within (h.within ha)⟩

end Records

/-! ## One write -/

section Write

variable {cur cur' : ClientStore} {x : PlainChunk} {addr addr' : KeyForChunkHashDB}

/-- The server once a new fingerprint is entered with its placeholder. -/
def Server.entered (srv : Server) (fp : Fp) (addr : KeyForChunkHashDB) : Server :=
  { srv with fp2AddrDb := srv.fp2AddrDb.insert fp addr }

theorem lookup_entered {fp : Fp} {chunk : WrappedChunk}
    (hs : DataWriterThd.Stores cfg log log' (srv.entered fp addr) srv' cur cur' chunk addr')
    (hfp : chunk.info.fp = fp) (k : Fp) :
    srv'.fp2AddrDb.lookup k = if k = fp then some addr' else srv.fp2AddrDb.lookup k := by
  rw [hs.lookup, hfp]
  split
  · rfl
  · rename_i hne
    rw [Server.entered, Index.lookup_insert_ite, if_neg hne]

/-- The writer on the compressed chunk of a new pair. -/
theorem Records.pair (h : Records cfg U log srv) (hd : cfg.DeltaRoundTrip)
    (hdn : cfg.DeltaNonempty) (hen : cfg.EncNonempty) (hx : U x)
    (hnew : x.fp cfg ∉ srv.fp2AddrDb)
    (hread : ∀ {fp a}, srv.fp2AddrDb.lookup fp = some a →
      Readable srv.storageCore cur a.containerId)
    (hs : DataWriterThd.Stores cfg log log' (srv.entered (x.fp cfg) addr) srv' cur cur'
      (UploadState.pairChunk cfg (x.fp cfg) addr (x.comp cfg)) addr') :
    Records cfg U log' srv' ∧ addr'.stat ≠ .cacheDeltaChunk := by
  have hgrow := hs.evolves.grows
  have hl := lookup_entered hs rfl
  have hkeep : ∀ {fp a}, srv.fp2AddrDb.lookup fp = some a → srv'.fp2AddrDb.lookup fp = some a := by
    intro fp a ha
    rw [hl, if_neg, ha]
    rintro rfl
    exact hnew (Index.mem_of_lookup ha)
  obtain ⟨n, hf, -⟩ := hs.form
  generalize hfeat : srv'.feature2FpDb = features at hf
  generalize hbytes : addr'.extent.read log' = data at hf
  cases hf with
  | cacheDelta hc => cases hc
  | base hu hno hstat hdata =>
      refine ⟨h.add hgrow hx hnew hl ?_ hs.within ?_ (.base hstat (hbytes.trans hdata)), ?_⟩
      · intro f base hb
        rw [hfeat, Index.lookup_insertAll] at hb
        split at hb
        · cases hb; exact Or.inl ⟨rfl, hstat⟩
        · exact Or.inr hb
      · rw [hbytes, hdata]
        exact hen _ _
      · rw [hstat]
        exact fun h => by cases h
  | delta f hu hf hbase hbl hstat hdelta hn =>
      -- the base was stored before, so it is not the placeholder
      obtain ⟨a, ha, has⟩ := h.features hbase
      have hne : addr'.baseFp ≠ x.fp cfg := fun heq => hnew (heq ▸ Index.mem_of_lookup ha)
      rw [Server.entered, Index.lookup_insert_ite, if_neg hne, ha] at hbl
      have heq := Option.some.inj hbl
      subst heq
      have hw := h.within ha
      have henc := hdelta hw
      have hr : Readable (srv.entered (x.fp cfg) addr).storageCore cur a.containerId := hread ha
      rw [DataWriterThd.baseBytes, if_pos hr] at henc
      refine ⟨h.add hgrow hx hnew hl ?_ hs.within ?_ (.delta hstat (hkeep ha) has ?_), ?_⟩
      · intro f base hb
        rw [hfeat] at hb
        exact Or.inr hb
      · rw [hbytes]
        exact hdn _ _ _ henc
      · rw [hbytes, Extent.read_of_grows hgrow hw]
        exact hd _ _ _ henc
      · rw [hstat]
        exact fun h => by cases h

/-- The writer on a new single chunk's delta against the cached ciphertext of `y`. -/
theorem Records.cacheDelta (h : Records cfg U log srv) (hd : cfg.DeltaRoundTrip)
    (hdn : cfg.DeltaNonempty) (hx : U x) (hnew : x.fp cfg ∉ srv.fp2AddrDb) {y : PlainChunk}
    (hy : U y) (hknown : y.fp cfg ∈ srv.fp2AddrDb) {delta : Bytes}
    (he : cfg.deltaEncode (y.enc cfg) (x.enc cfg) = some delta)
    (hs : DataWriterThd.Stores cfg log log' (srv.entered (x.fp cfg) addr) srv' cur cur'
      (x.deltaChunk cfg addr (y.fp cfg) delta) addr') :
    Records cfg U log' srv' ∧ addr'.baseFp = y.fp cfg := by
  have hl := lookup_entered hs rfl
  obtain ⟨n, hf, -⟩ := hs.form
  generalize hfeat : srv'.feature2FpDb = features at hf
  generalize hbytes : addr'.extent.read log' = data at hf
  cases hf with
  | base hc => exact nomatch hc
  | delta f hc => exact nomatch hc
  | cacheDelta hc hstat hbase hdata =>
      refine ⟨h.add hs.evolves.grows hx hnew hl ?_ hs.within ?_ ?_, hbase⟩
      · intro f base hb
        rw [hfeat] at hb
        exact Or.inr hb
      · rw [hbytes, hdata]
        exact hdn _ _ _ he
      · refine .cacheDelta hstat hy hbase ?_ ?_
        · obtain ⟨a, ha⟩ := Index.lookup_isSome_of_mem hknown
          refine Index.mem_iff_lookup.mpr ⟨a, ?_⟩
          rw [hl, if_neg, ha]
          intro heq
          exact hnew (heq ▸ hknown)
        · rw [hbytes, hdata]
          exact hd _ _ _ he

end Write

/-! ## Cached bases -/

namespace CacheHolds

variable {c c' : InformCache}

theorem ofEmpty : CacheHolds cfg U srv ⟨∅, ∅, ∅⟩ where
  data := fun h => by simp at h
  known := fun _ h => absurd h Finmap.notMem_empty
  kept := fun _ h => absurd h Finmap.notMem_empty

/-- Only the counted bases and the data matter. -/
theorem congr (h : CacheHolds cfg U srv c) (hc : ∀ fp ∈ c'.base2CntIdx, fp ∈ c.base2CntIdx)
    (hd : c'.base2DataDb = c.base2DataDb) : CacheHolds cfg U srv c' where
  data := by rw [hd]; exact h.data
  known := by rw [hd]; exact h.known
  kept := by rw [hd]; exact fun fp hm => h.kept fp (hc fp hm)

theorem mono (h : CacheHolds cfg U srv c) (hk : ∀ fp ∈ srv.fp2AddrDb, fp ∈ srv'.fp2AddrDb) :
    CacheHolds cfg U srv' c where
  data := h.data
  known := fun fp hm => hk fp (h.known fp hm)
  kept := h.kept

theorem insert (h : CacheHolds cfg U srv c) {x : PlainChunk} (hx : U x)
    (hknown : x.fp cfg ∈ srv.fp2AddrDb) (addr : KeyForChunkHashDB) :
    CacheHolds cfg U srv (c.insertCachedChunk (x.cacheChunk cfg addr)) where
  data := by
    intro fp d hl
    rw [InformCache.lookup_insertCachedChunk_data] at hl
    split at hl
    · rename_i hfp
      cases hl
      exact ⟨x, hx, hfp.1.symm, rfl⟩
    · exact h.data hl
  known := by
    intro fp hm
    obtain ⟨d, hl⟩ := Index.lookup_isSome_of_mem hm
    rw [InformCache.lookup_insertCachedChunk_data] at hl
    split at hl
    · rename_i hfp
      rw [hfp.1]
      exact hknown
    · exact h.known fp (Index.mem_of_lookup hl)
  kept := by
    intro fp hm
    obtain ⟨cnt, hcnt⟩ := Index.lookup_isSome_of_mem hm
    rw [InformCache.lookup_insertCachedChunk_cnt] at hcnt
    rw [Index.mem_iff_lookup, InformCache.lookup_insertCachedChunk_data]
    split
    · exact ⟨_, rfl⟩
    · rename_i hno
      refine Index.lookup_isSome_of_mem (h.kept fp ?_)
      by_cases hfp : fp = x.fp cfg
      · subst hfp
        cases hc : c.base2CntIdx.lookup (x.fp cfg) with
        | none => exact absurd ⟨rfl, hc⟩ hno
        | some cnt => exact Index.mem_of_lookup hc
      · rw [if_neg (show fp ≠ (x.cacheChunk cfg addr).info.fp from hfp)] at hcnt
        exact Index.mem_of_lookup hcnt

theorem evict (h : CacheHolds cfg U srv c) {fs : List Feature}
    (he : fs.foldlM InformCache.evictFeature c = .ok c') : CacheHolds cfg U srv c' := by
  refine foldlM_inv (CacheHolds cfg U srv) ?_ h he
  intro c f c' _ h he
  obtain ⟨fp, cnt, -, hcnt, rfl⟩ := InformCache.evictFeature_cases he
  refine h.congr ?_ rfl
  intro fp' hm
  rcases Finmap.mem_insert.mp hm with rfl | hm
  · exact Index.mem_of_lookup hcnt
  · exact hm

theorem delete (h : CacheHolds cfg U srv c) : CacheHolds cfg U srv c.deleteEvictChunk where
  data := by
    intro fp d hl
    rw [InformCache.lookup_deleteEvictChunk_data] at hl
    split at hl
    · exact nomatch hl
    · exact h.data hl
  known := by
    intro fp hm
    obtain ⟨d, hl⟩ := Index.lookup_isSome_of_mem hm
    rw [InformCache.lookup_deleteEvictChunk_data] at hl
    split at hl
    · exact nomatch hl
    · exact h.known fp (Index.mem_of_lookup hl)
  kept := by
    intro fp hm
    obtain ⟨cnt, hcnt⟩ := Index.lookup_isSome_of_mem hm
    rw [InformCache.lookup_deleteEvictChunk_cnt] at hcnt
    obtain ⟨hcnt, hne⟩ := Option.filter_eq_some_iff.mp hcnt
    rw [Index.mem_iff_lookup, InformCache.lookup_deleteEvictChunk_data, if_neg]
    · exact Index.lookup_isSome_of_mem (h.kept fp (Index.mem_of_lookup hcnt))
    · intro h0
      rw [hcnt] at h0
      cases h0
      simp at hne

/-- Through the files of the client id and back. -/
theorem stored (h : CacheHolds cfg U srv c) {cntOrder : List (Fp × Nat)}
    {idxOrder : List (Feature × Fp)} (hc : Index.Lists c.deleteEvictChunk.base2CntIdx cntOrder) :
    CacheHolds cfg U srv
      (InformCache.loadCntIdx (c.deleteEvictChunk.storeCntIdx cntOrder idxOrder)) := by
  obtain ⟨hcnt, hdata⟩ := InformCache.load_store_cnt idxOrder hc
  refine h.delete.congr ?_ hdata
  rw [hcnt]
  exact fun _ hm => hm

end CacheHolds

end EDRStore
