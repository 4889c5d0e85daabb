/-
# `EDRStore.Restarts` — a server that is shut down, or dies, and starts again

Uploads, downloads and clients that exit, as before, and two more events:

    shutdown   the sessions are waited for, and the two indexes go to their files
    crash      the process ends in any other way, also through an `exit` of its own

The indexes live in memory, so a crash loses what was recorded since the last
shutdown.  The containers and the `_cnt` and `_idx` files of the client ids do
not go back with them: after a crash a client id can have bases cached that have
no record any more.  Of what a running session has put into its `_db`, written
without a log, any part can be left.

There is one session at a time.  The way of a chunk through its threads, its end
(`DeleteEvictChunk`, `StoreCntIdx` and the close of `_db`) and a shutdown (the index
files truncated and rewritten) are one step each, so that no crash falls into them: a
server that dies in the last two can have lost cached bases that are still counted, or
an index.  A file stands for its recipe, which is
kept until a file of that name is uploaded again; names are left out.

`Alive` is what holds of the containers and the caches through all of this.
-/
import EDRStore.Abort
import EDRStore.EndToEnd

namespace EDRStore

/-- The index files the last shutdown has left, and the uploads complete then. -/
structure SavedIndex where
  fp2AddrDb : Index Fp KeyForChunkHashDB
  feature2FpDb : Index Feature Fp
  files : List StoredFile

structure Restarting where
  sys : Aborting
  saved : SavedIndex

inductive RestartAction where
  | act (a : AbortAction)
  /-- `CTRLC`. -/
  | shutdown
  /-- `dataDb` is what is left of the `_db` of the client id that is logged in. -/
  | crash (dataDb : Index Fp Bytes)
deriving DecidableEq

/-- `d` is as old as `old`, or as new as `new`, at each key. -/
def Between (old new d : Index Fp Bytes) : Prop :=
  ∀ fp ∈ old.keys ∪ new.keys ∪ d.keys, d.lookup fp = old.lookup fp ∨ d.lookup fp = new.lookup fp

instance (old new d : Index Fp Bytes) : Decidable (Between old new d) :=
  Finset.decidableDforallFinset

namespace World

/-- The files of the client ids when the process ends in this state. -/
def informFilesLeft (w : World) (dataDb : Index Fp Bytes) : ClientId → InformFiles :=
  match w.session with
  | none => w.informFiles
  | some t => Function.update w.informFiles t.clientId
      { w.informFiles t.clientId with dataDb := dataDb }

/-- `dataDb` can be left of the `_db` of the running session. -/
def Leaves (w : World) (dataDb : Index Fp Bytes) : Prop :=
  ∀ t ∈ w.session, Between (w.informFiles t.clientId).dataDb t.informCache.base2DataDb dataDb

instance (w : World) (dataDb : Index Fp Bytes) : Decidable (w.Leaves dataDb) :=
  inferInstanceAs (Decidable (∀ t ∈ w.session, _))

end World

namespace Restarting

variable (cfg : Components)

def init : Restarting := { sys := Aborting.init, saved := ⟨∅, ∅, []⟩ }

def step (r : Restarting) : RestartAction → Except Stop Restarting
  | .act a => do
      let sys ← r.sys.step cfg a
      .ok { r with sys := sys }
  | .shutdown =>
      let w := r.sys.world
      match w.session with
      | some _ => .error .disabled
      | none => .ok { r with saved := ⟨w.srv.fp2AddrDb, w.srv.feature2FpDb, w.files⟩ }
  | .crash dataDb =>
      let w := r.sys.world
      if w.Leaves dataDb then
        .ok { r with sys :=
          { world := { w with
              srv := { w.srv with
                fp2AddrDb := r.saved.fp2AddrDb
                feature2FpDb := r.saved.feature2FpDb }
              informFiles := w.informFilesLeft dataDb
              files := r.saved.files
              session := none }
            evictMsgs := 0 } }
      else .error .disabled

end Restarting

/-! ## Caches -/

variable {cfg : Components} {U : PlainChunk → Prop} {log log' : Content}

/-- What a cache holds was sent, whatever has become of its record. -/
structure CacheSent (cfg : Components) (U : PlainChunk → Prop) (c : InformCache) : Prop where
  held : ∃ srv, CacheHolds cfg U srv c
  /-- A feature leads to a chunk that has it. -/
  features : ∀ {f fp}, c.localFeature2FpDb.lookup f = some fp →
    ∃ y, U y ∧ y.fp cfg = fp ∧ f ∈ (y.features cfg).toList

/-- A load leaves the data as it is. -/
theorem InformCache.loadCntIdx_data (files : InformFiles) (d : Index Fp Bytes) :
    loadCntIdx { files with dataDb := d } = { loadCntIdx files with base2DataDb := d } := by
  obtain ⟨cntFile, idxFile, dataDb⟩ := files
  rcases cntFile with _ | _ | ⟨e, cntFile⟩
  all_goals rcases idxFile with _ | _ | ⟨e', idxFile⟩
  all_goals rfl

/-- The features that are loaded are those that were stored, or none. -/
theorem InformCache.loadCntIdx_features {c : InformCache} {cntOrder : List (Fp × Nat)}
    {idxOrder : List (Feature × Fp)} (hi : Index.Lists c.localFeature2FpDb idxOrder) {f : Feature}
    {fp : Fp}
    (h : (loadCntIdx (c.storeCntIdx cntOrder idxOrder)).localFeature2FpDb.lookup f = some fp) :
    c.localFeature2FpDb.lookup f = some fp := by
  have hidx := Index.insertList_of_lists hi
  cases cntOrder with
  | nil => exact absurd (Index.mem_of_lookup h) Finmap.notMem_empty
  | cons e cntOrder =>
      cases idxOrder with
      | nil => exact absurd (Index.mem_of_lookup h) Finmap.notMem_empty
      | cons e' idxOrder =>
          rw [← hidx]
          exact h

namespace CacheSent

variable {c c' : InformCache}

theorem ofEmpty : CacheSent cfg U ⟨∅, ∅, ∅⟩ where
  held := ⟨Server.empty, CacheHolds.ofEmpty⟩
  features := fun h => absurd (Index.mem_of_lookup h) Finmap.notMem_empty

theorem insert (h : CacheSent cfg U c) {x : PlainChunk} (hx : U x) (addr : KeyForChunkHashDB) :
    CacheSent cfg U (c.insertCachedChunk (x.cacheChunk cfg addr)) where
  held := by
    -- a server that has a record of this chunk too
    obtain ⟨srv, hold⟩ := h.held
    refine ⟨srv.entered (x.fp cfg) addr, CacheHolds.insert (hold.mono ?_) hx ?_ addr⟩
    · intro fp hm
      exact Finmap.mem_insert.mpr (Or.inr hm)
    · exact Finmap.mem_insert.mpr (Or.inl rfl)
  features := by
    intro f fp hl
    rw [InformCache.lookup_insertCachedChunk_feature] at hl
    split at hl
    · rename_i hf
      cases hl
      exact ⟨x, hx, rfl, hf⟩
    · exact h.features hl

theorem evict (h : CacheSent cfg U c) {fs : List Feature}
    (he : fs.foldlM InformCache.evictFeature c = .ok c') : CacheSent cfg U c' where
  held := by
    obtain ⟨srv, hold⟩ := h.held
    exact ⟨srv, hold.evict he⟩
  features := by
    have hsub : ∀ f fp, c'.localFeature2FpDb.lookup f = some fp →
        c.localFeature2FpDb.lookup f = some fp := by
      refine foldlM_inv (fun c' => ∀ f fp, c'.localFeature2FpDb.lookup f = some fp →
        c.localFeature2FpDb.lookup f = some fp) ?_ (fun _ _ hl => hl) he
      intro c₁ g c₂ _ hc he f fp hl
      obtain ⟨fp', cnt, -, -, rfl⟩ := InformCache.evictFeature_cases he
      rw [Index.lookup_erase_ite] at hl
      split at hl
      · cases hl
      · exact hc f fp hl
    intro f fp hl
    exact h.features (hsub f fp hl)

/-- Through the files of the client id and back. -/
theorem stored (h : CacheSent cfg U c) {cntOrder : List (Fp × Nat)}
    {idxOrder : List (Feature × Fp)} (hc : Index.Lists c.deleteEvictChunk.base2CntIdx cntOrder)
    (hi : Index.Lists c.deleteEvictChunk.localFeature2FpDb idxOrder) :
    CacheSent cfg U
      (InformCache.loadCntIdx (c.deleteEvictChunk.storeCntIdx cntOrder idxOrder)) where
  held := by
    obtain ⟨srv, hold⟩ := h.held
    exact ⟨srv, hold.stored hc⟩
  features := fun hl => h.features (InformCache.loadCntIdx_features hi hl)

/-- The counts and features of before the session, on data between. -/
theorem between (h : CacheSent cfg U c) (h' : CacheSent cfg U c') {d : Index Fp Bytes}
    (hgrow : ∀ fp ∈ c.base2DataDb, fp ∈ c'.base2DataDb)
    (hd : Between c.base2DataDb c'.base2DataDb d) :
    CacheSent cfg U { c with base2DataDb := d } where
  held := by
    obtain ⟨srv, hold⟩ := h.held
    obtain ⟨srv', hold'⟩ := h'.held
    have hcases : ∀ fp, d.lookup fp = c.base2DataDb.lookup fp ∨
        d.lookup fp = c'.base2DataDb.lookup fp := by
      intro fp
      by_cases hm : fp ∈ c.base2DataDb.keys ∪ c'.base2DataDb.keys ∪ d.keys
      · exact hd fp hm
      · simp only [Finset.mem_union, Finmap.mem_keys, not_or] at hm
        rw [Finmap.lookup_eq_none.mpr hm.2, Finmap.lookup_eq_none.mpr hm.1.1]
        exact Or.inl rfl
    have hkeys : ∀ fp ∈ d, fp ∈ c'.base2DataDb := by
      intro fp hm
      obtain ⟨b, hb⟩ := Index.lookup_isSome_of_mem hm
      rcases hcases fp with hl | hl
      · exact hgrow fp (Index.mem_of_lookup (hl.symm.trans hb))
      · exact Index.mem_of_lookup (hl.symm.trans hb)
    refine ⟨srv', ⟨?_, fun fp hm => hold'.known fp (hkeys fp hm), ?_⟩⟩
    · intro fp b hl
      rcases hcases fp with hl' | hl'
      · exact hold.data (hl'.symm.trans hl)
      · exact hold'.data (hl'.symm.trans hl)
    · intro fp hm
      have hold := hold.kept fp hm
      rcases hcases fp with hl | hl
      · obtain ⟨b, hb⟩ := Index.lookup_isSome_of_mem hold
        exact Index.mem_of_lookup (hl.trans hb)
      · obtain ⟨b, hb⟩ := Index.lookup_isSome_of_mem (hgrow fp hold)
        exact Index.mem_of_lookup (hl.trans hb)
  features := h.features

end CacheSent

/-! ## Where a chunk goes -/

/-- What a chunk of an upload does to the records and the containers: nothing if its
fingerprint is known, else one write, of one of three forms. -/
inductive ChunkStored (cfg : Components) (log : Content) (m : CacheMeta) (s : UploadState)
    (x : PlainChunk) (addr : KeyForChunkHashDB) : Content → UploadState → Prop
  | known {s'} (hm : x.fp cfg ∈ s.srv.fp2AddrDb) (hsrv : s'.srv = s.srv) (hcur : s'.cur = s.cur) :
      ChunkStored cfg log m s x addr log s'
  | pair {log' s' addr'} (hm : x.fp cfg ∉ s.srv.fp2AddrDb)
      (hs : DataWriterThd.Stores cfg log log' (s.srv.entered (x.fp cfg) addr) s'.srv s.cur s'.cur
        (UploadState.pairChunk cfg (x.fp cfg) addr (x.comp cfg)) addr') :
      ChunkStored cfg log m s x addr log' s'
  | delta {log' s' addr' f base data delta} (hm : x.fp cfg ∉ s.srv.fp2AddrDb)
      (hq : ∃ f ∈ (x.features cfg).toList, f ∈ m.feature2VersionIdx)
      (hf : f ∈ (x.features cfg).toList)
      (hb : s.informCache.localFeature2FpDb.lookup f = some base)
      (hv : x.chosenBase cfg s.informCache addr = base)
      (hd : s.informCache.base2DataDb.lookup base = some data)
      (he : cfg.deltaEncode data (x.enc cfg) = some delta)
      (hs : DataWriterThd.Stores cfg log log' (s.srv.entered (x.fp cfg) addr) s'.srv s.cur s'.cur
        (x.deltaChunk cfg addr base delta) addr') :
      ChunkStored cfg log m s x addr log' s'
  | plain {log' s' addr'} (hm : x.fp cfg ∉ s.srv.fp2AddrDb)
      (hq : ∃ f ∈ (x.features cfg).toList, f ∈ m.feature2VersionIdx)
      (h0 : s.informCache.getCacheSize = 0)
      (hs : DataWriterThd.Stores cfg log log' (s.srv.entered (x.fp cfg) addr) s'.srv s.cur s'.cur
        (UploadState.singleChunk (x.fp cfg) (x.features cfg) addr (x.enc cfg)) addr') :
      ChunkStored cfg log m s x addr log' s'

theorem ChunkDone.stored (hid : cfg.FreshIds) {m m' : CacheMeta} {s s' : UploadState}
    {x : PlainChunk} {addr : KeyForChunkHashDB} (hst : LogOk cfg log s.srv.storageCore)
    (ho : OpenOk cfg log s.srv.storageCore s.cur.curContainer)
    (hc : CacheOk s.srv.storageCore s.cur.containerCache)
    (h : ChunkDone cfg m s x addr m' s') : ∃ log', ChunkStored cfg log m s x addr log' s' := by
  cases h with
  | pairOld hq hm => exact ⟨log, .known hm rfl rfl⟩
  | pairNew hq hm hw =>
      obtain ⟨-, log', addr', hs⟩ := World.runWriter_stores hid hst ho hc hw
      exact ⟨log', .pair hm hs⟩
  | singleOld hq hm => exact ⟨log, .known hm rfl rfl⟩
  | singleDelta hq hm hf hb hv hd he hw =>
      obtain ⟨-, log', addr', hs⟩ := World.runWriter_stores hid hst ho hc
        (show UploadState.runWriter cfg (UploadState.placeholder
          { s with informCache := s.informCache } (x.fp cfg) addr) _ = _ from hw)
      exact ⟨log', .delta hm hq hf hb hv hd he hs⟩
  | singlePlain hq hm h0 hw =>
      obtain ⟨-, log', addr', hs⟩ := World.runWriter_stores hid hst ho hc
        (show UploadState.runWriter cfg (UploadState.placeholder
          { s with informCache := s.informCache } (x.fp cfg) addr) _ = _ from hw)
      exact ⟨log', .plain hm hq h0 hs⟩

namespace ChunkStored

variable {m : CacheMeta} {s s' : UploadState} {x : PlainChunk} {addr : KeyForChunkHashDB}

theorem evolves (h : ChunkStored cfg log m s x addr log' s')
    (hst : LogOk cfg log s.srv.storageCore)
    (ho : OpenOk cfg log s.srv.storageCore s.cur.curContainer)
    (hc : CacheOk s.srv.storageCore s.cur.containerCache) :
    Evolves cfg log log' s.srv.storageCore s'.srv.storageCore s.cur s'.cur := by
  cases h with
  | known hm hsrv hcur =>
      rw [hsrv, hcur]
      exact Evolves.refl hst ho hc
  | pair hm hs => exact hs.evolves
  | delta hm hq hf hb hv hd he hs => exact hs.evolves
  | plain hm hq h0 hs => exact hs.evolves

/-- The records afterwards: one more, for a chunk that had none. -/
theorem records (h : ChunkStored cfg log m s x addr log' s') :
    s'.srv.fp2AddrDb = s.srv.fp2AddrDb ∨
      ∃ addr', x.fp cfg ∉ s.srv.fp2AddrDb ∧ Readable s'.srv.storageCore s'.cur addr'.containerId ∧
        ∀ fp, s'.srv.fp2AddrDb.lookup fp =
          if fp = x.fp cfg then some addr' else s.srv.fp2AddrDb.lookup fp := by
  cases h with
  | known hm hsrv hcur => exact Or.inl (by rw [hsrv])
  | pair hm hs => exact Or.inr ⟨_, hm, hs.readable, lookup_entered hs rfl⟩
  | delta hm hq hf hb hv hd he hs => exact Or.inr ⟨_, hm, hs.readable, lookup_entered hs rfl⟩
  | plain hm hq h0 hs => exact Or.inr ⟨_, hm, hs.readable, lookup_entered hs rfl⟩

/-- No record changes. -/
theorem final (h : ChunkStored cfg log m s x addr log' s') : World.RecordsFinal s.srv s'.srv := by
  intro fp a hl
  rcases h.records with heq | ⟨addr', hnew, -, hrec⟩
  · rw [heq]
    exact hl
  · rw [hrec, if_neg]
    · exact hl
    · rintro rfl
      exact hnew (Index.mem_of_lookup hl)

/-- The chunk has a record afterwards. -/
theorem sent (h : ChunkStored cfg log m s x addr log' s') : x.fp cfg ∈ s'.srv.fp2AddrDb := by
  cases h with
  | known hm hsrv hcur =>
      rw [hsrv]
      exact hm
  | pair hm hs => exact Index.mem_of_lookup ((lookup_entered hs rfl _).trans (if_pos rfl))
  | delta hm hq hf hb hv hd he hs =>
      exact Index.mem_of_lookup ((lookup_entered hs rfl _).trans (if_pos rfl))
  | plain hm hq h0 hs => exact Index.mem_of_lookup ((lookup_entered hs rfl _).trans (if_pos rfl))

end ChunkStored

/-! ## What holds of the containers and the caches -/

namespace World

variable {w w' : World}

structure Alive (cfg : Components) (U : PlainChunk → Prop) (log : Content) (w : World) : Prop where
  logOk : LogOk cfg log w.srv.storageCore
  openOk : ∀ {t}, w.session = some t → OpenOk cfg log w.srv.storageCore t.cur.curContainer
  cacheOk : ∀ {t}, w.session = some t → CacheOk w.srv.storageCore t.cur.containerCache
  cached : ∀ {t}, w.session = some t → CacheSent cfg U t.informCache
  /-- A session only adds to its `_db`, up to its end. -/
  added : ∀ {t}, w.session = some t →
    ∀ fp ∈ (w.informFiles t.clientId).dataDb, fp ∈ t.informCache.base2DataDb
  resting : ∀ c, CacheSent cfg U (InformCache.loadCntIdx (w.informFiles c))

theorem alive_init : Alive cfg U (fun _ => []) init where
  logOk := inv_init.logOk (U := U)
  openOk := by rintro _ ⟨⟩
  cacheOk := by rintro _ ⟨⟩
  cached := by rintro _ ⟨⟩
  added := by rintro _ ⟨⟩
  resting := fun _ => CacheSent.ofEmpty

/-- The log only grows, no container file changes, and no record. -/
structure Onward (log log' : Content) (srv srv' : Server) : Prop where
  grows : Grows log log'
  keeps : Keeps srv.storageCore srv'.storageCore
  final : RecordsFinal srv srv'

theorem Onward.refl (log : Content) (srv : Server) : Onward log log srv srv where
  grows := Grows.refl log
  keeps := fun h => h
  final := fun h => h

theorem evict_data {c c' : InformCache} {fs : List Feature}
    (he : fs.foldlM InformCache.evictFeature c = .ok c') : c'.base2DataDb = c.base2DataDb := by
  refine foldlM_inv (fun c' => c'.base2DataDb = c.base2DataDb) ?_ rfl he
  intro c₁ f c₂ _ hc he
  obtain ⟨fp, cnt, -, -, rfl⟩ := InformCache.evictFeature_cases he
  exact hc

/-- A running upload may change its cache. -/
theorem Alive.inSession (h : Alive cfg U log w) {t t' : Session} (hs : w.session = some t)
    (hcur : t'.cur = t.cur) (hid : t'.clientId = t.clientId) (hc : CacheSent cfg U t'.informCache)
    (hd : t'.informCache.base2DataDb = t.informCache.base2DataDb) :
    Alive cfg U log { w with session := some t' } :=
  { h with
    openOk := fun ht => by
      cases ht
      rw [hcur]
      exact h.openOk hs
    cacheOk := fun ht => by
      cases ht
      rw [hcur]
      exact h.cacheOk hs
    cached := fun ht => by
      cases ht
      exact hc
    added := fun ht => by
      cases ht
      rw [hid, hd]
      exact h.added hs }

/-- The server's end of a session, whatever the client has done. -/
theorem Alive.close (h : Alive cfg U log w) {t : Session} (hs : w.session = some t)
    {cntOrder : List (Fp × Nat)} {idxOrder : List (Feature × Fp)}
    (hc : Index.Lists t.informCache.deleteEvictChunk.base2CntIdx cntOrder)
    (hi : Index.Lists t.informCache.deleteEvictChunk.localFeature2FpDb idxOrder)
    (hsrv : w'.srv = DataWriterThd.runEnd w.srv t.cur)
    (hfiles : w'.informFiles = Function.update w.informFiles t.clientId
      (t.informCache.deleteEvictChunk.storeCntIdx cntOrder idxOrder))
    (hnone : w'.session = none) : Alive cfg U log w' := by
  obtain ⟨hlog, -⟩ := saveTail_spec h.logOk (h.openOk hs)
  have hno : ∀ {t'}, w'.session ≠ some t' := by
    intro t' ht
    rw [hnone] at ht
    cases ht
  refine ⟨by rw [hsrv]; exact hlog, fun ht => absurd ht hno, fun ht => absurd ht hno,
    fun ht => absurd ht hno, fun ht => absurd ht hno, ?_⟩
  intro c
  rw [hfiles]
  by_cases hid : c = t.clientId
  · subst hid
    rw [Function.update_self]
    exact (h.cached hs).stored hc hi
  · rw [Function.update_of_ne hid]
    exact h.resting c

theorem Alive.onward_close (h : Alive cfg U log w) {t : Session} (hs : w.session = some t) :
    Onward log log w.srv (DataWriterThd.runEnd w.srv t.cur) where
  grows := Grows.refl log
  keeps := (saveTail_spec h.logOk (h.openOk hs)).2.1
  final := fun hl => hl

theorem Alive.chunk (h : Alive cfg U log w) {t : Session} (hs : w.session = some t)
    {m : CacheMeta} {s : UploadState} {x : PlainChunk} {addr : KeyForChunkHashDB} (hx : U x)
    (hd : ChunkDone cfg t.cacheMeta (w.uploadState t) x addr m s)
    (hst : ChunkStored cfg log t.cacheMeta (w.uploadState t) x addr log' s) {t' : Session}
    (hcur : t'.cur = s.cur) (hid : t'.clientId = t.clientId)
    (hcache : t'.informCache = s.informCache) :
    Alive cfg U log' { w with srv := s.srv, session := some t' } := by
  have hev := hst.evolves h.logOk (h.openOk hs) (h.cacheOk hs)
  have hold := h.added hs
  refine ⟨hev.logOk, ?_, ?_, ?_, ?_, h.resting⟩
  · intro _ ht
    cases ht
    rw [hcur]
    exact hev.openOk
  · intro _ ht
    cases ht
    rw [hcur]
    exact hev.cacheOk
  · intro _ ht
    cases ht
    rw [hcache]
    rcases hd.caches with ⟨-, hc⟩ | ⟨-, hc⟩
    · rw [hc]
      exact (h.cached hs).insert hx addr
    · rw [hc]
      exact h.cached hs
  · intro _ ht fp hm
    cases ht
    rw [hid] at hm
    rw [hcache]
    rcases hd.caches with ⟨-, hc⟩ | ⟨-, hc⟩
    · rw [hc, Index.mem_iff_lookup, InformCache.lookup_insertCachedChunk_data]
      split
      · exact ⟨_, rfl⟩
      · exact Index.lookup_isSome_of_mem (hold fp hm)
    · rw [hc]
      exact hold fp hm

theorem Alive.onward_chunk (h : Alive cfg U log w) {t : Session} (hs : w.session = some t)
    {m : CacheMeta} {s : UploadState} {x : PlainChunk} {addr : KeyForChunkHashDB}
    (hst : ChunkStored cfg log m (w.uploadState t) x addr log' s) :
    Onward log log' w.srv s.srv := by
  have hev := hst.evolves h.logOk (h.openOk hs) (h.cacheOk hs)
  exact ⟨hev.grows, hev.keeps, hst.final⟩

end World

end EDRStore
