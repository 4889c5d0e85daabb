/-
# `EDRStore.Abort` — a client that exits in the middle of an upload

Between sessions the two caches are in files, and these are written by two
programs at two moments.  The server stores its `InformCache` when the
connection ends, however it ends.  The client stores its `CacheMeta` in a
destructor, which the `exit` behind a failing `SendData` or `Finish` skips: the
file of the session before stays.

    inserted on the server, not in the client's file    harmless
    evicted on the server, still in the client's file   the caches disagree

Up to the first eviction message the server only inserts, so until then the
file names nothing the server has lost.  Every feature that is evicted is in
the file, so from then on it does.
-/
import EDRStore.Lockstep

namespace EDRStore

/-- The server's cache holds the features the client knows and those it has still
to send for eviction; it may hold others. -/
structure Covers (m : CacheMeta) (buf : List Feature) (c : InformCache) : Prop where
  cacheInv : c.CacheInv
  features : ∀ {f}, f ∈ m.feature2VersionIdx ∨ f ∈ buf → f ∈ c.localFeature2FpDb
  once : buf.Nodup
  dropped : ∀ {f}, f ∈ buf → f ∉ m.feature2VersionIdx

namespace Covers

variable {cfg : Components} {m m' : CacheMeta} {buf : List Feature} {c : InformCache}

/-- Only the known features matter, and fewer of them are covered too. -/
theorem mono (h : Covers m buf c)
    (hm : ∀ f, f ∈ m'.feature2VersionIdx → f ∈ m.feature2VersionIdx) : Covers m' buf c where
  cacheInv := h.cacheInv
  features := fun hf => h.features (hf.imp_left (hm _))
  once := h.once
  dropped := fun hf hm' => h.dropped hf (hm _ hm')

theorem erase (h : Covers m buf c) {f : Feature} (hf : f ∈ m.feature2VersionIdx) :
    Covers (m.eraseFeature f) (buf ++ [f]) c where
  cacheInv := h.cacheInv
  features := by
    rintro g (hg | hg)
    · exact h.features (Or.inl (CacheMeta.mem_eraseFeature.mp hg).2)
    · rcases List.mem_append.mp hg with hg | hg
      · exact h.features (Or.inr hg)
      · cases List.mem_singleton.mp hg
        exact h.features (Or.inl hf)
  once := by
    refine List.nodup_append.mpr ⟨h.once, List.nodup_singleton f, ?_⟩
    rintro a ha b hb rfl
    cases List.mem_singleton.mp hb
    exact h.dropped ha hf
  dropped := by
    intro g hg hm
    obtain ⟨hne, hm⟩ := CacheMeta.mem_eraseFeature.mp hm
    rcases List.mem_append.mp hg with hg | hg
    · exact h.dropped hg hm
    · exact hne (List.mem_singleton.mp hg)

/-- The server takes the buffer without an exit, and loses just its features. -/
theorem send (h : Covers m buf c) :
    ∃ c', buf.foldlM InformCache.evictFeature c = .ok c' ∧ Covers m [] c' ∧
      ∀ g, g ∈ c'.localFeature2FpDb ↔ g ∉ buf ∧ g ∈ c.localFeature2FpDb := by
  obtain ⟨c', hc, hinv, hmem⟩ := h.cacheInv.evict h.once fun f hf => h.features (Or.inr hf)
  refine ⟨c', hc, ⟨hinv, ?_, .nil, fun hf => absurd hf List.not_mem_nil⟩, hmem⟩
  rintro f (hm | hf)
  · exact (hmem f).mpr ⟨fun hf => h.dropped hf hm, h.features (Or.inl hm)⟩
  · exact absurd hf List.not_mem_nil

theorem pair (h : Covers m [] c) {chunk : WrappedChunk}
    (hw : ∀ cnt, c.base2CntIdx.lookup chunk.info.fp = some cnt →
      cnt + superFeaturePerChunk < 2 ^ 32)
    (hm : ∀ f, f ∈ m'.feature2VersionIdx ↔
      f ∈ chunk.info.features.toList ∨ f ∈ m.feature2VersionIdx) :
    Covers m' [] (c.insertCachedChunk chunk) where
  cacheInv := h.cacheInv.insert hw
  features := by
    rintro f (hf | hf)
    · rw [Index.mem_iff_lookup, InformCache.lookup_insertCachedChunk_feature]
      split
      · exact ⟨_, rfl⟩
      · rename_i hno
        rw [← Index.mem_iff_lookup]
        exact h.features (Or.inl (((hm f).mp hf).resolve_left hno))
    · exact absurd hf List.not_mem_nil
  once := .nil
  dropped := fun hf => absurd hf List.not_mem_nil

/-- What is stored at the end of a `ClientVar` is loaded for the next one. -/
theorem stored (h : Covers m [] c) {cntOrder : List (Fp × Nat)} {idxOrder : List (Feature × Fp)}
    (hc : Index.Lists c.deleteEvictChunk.base2CntIdx cntOrder)
    (hi : Index.Lists c.deleteEvictChunk.localFeature2FpDb idxOrder) :
    Covers m [] (InformCache.loadCntIdx (c.deleteEvictChunk.storeCntIdx cntOrder idxOrder)) := by
  rw [h.cacheInv.delete.load_store hc hi]
  exact { h with cacheInv := h.cacheInv.delete }

/-- A chunk of which the client knows a feature is similar to one in the cache. -/
theorem similar (h : Covers m buf c) {info : ChunkInfo}
    (hq : ∃ f ∈ info.features.toList, f ∈ m.feature2VersionIdx) :
    (SimilarPolicy.findBaseChunkMap c.localFeature2FpDb info).stat = .similarChunk := by
  obtain ⟨f, hf, hm⟩ := hq
  exact SimilarPolicy.findBaseChunk_similar_iff.mpr
    ⟨f, hf, Index.lookup_isSome_of_mem (h.features (Or.inl hm))⟩

end Covers

theorem InStep.covers {m : CacheMeta} {buf : List Feature} {c : InformCache}
    (h : InStep m buf c) : Covers m buf c where
  cacheInv := h.cacheInv
  features := fun hf => (h.features _).mpr hf
  once := h.once
  dropped := fun hf => h.dropped _ hf

/-- What a chunk does to the two caches: a pair enters its features into both, a
single chunk into neither. -/
theorem ChunkDone.caches {cfg : Components} {m m' : CacheMeta} {s s' : UploadState}
    {x : PlainChunk} {addr : KeyForChunkHashDB} (h : ChunkDone cfg m s x addr m' s') :
    (m' = (m.queryCacheMeta (x.features cfg)).2.updateCacheMeta (x.features cfg) ∧
      s'.informCache = s.informCache.insertCachedChunk (x.cacheChunk cfg addr)) ∨
    (m' = (m.queryCacheMeta (x.features cfg)).2 ∧ s'.informCache = s.informCache) := by
  cases h with
  | pairOld hq hm => exact Or.inl ⟨rfl, rfl⟩
  | pairNew hq hm hw =>
      have hc := World.runWriter_informCache hw
      exact Or.inl ⟨rfl, hc⟩
  | singleOld hq hm => exact Or.inr ⟨rfl, rfl⟩
  | singleDelta hq hm hf hb hv hd he hw =>
      have hc := World.runWriter_informCache hw
      exact Or.inr ⟨rfl, hc⟩
  | singlePlain hq hm h0 hw =>
      have hc := World.runWriter_informCache hw
      exact Or.inr ⟨rfl, hc⟩

namespace World

variable {cfg : Components} {w w' : World} {a : Action}

/-- The caches of a running session, and the files between sessions. -/
structure Covered (w : World) : Prop where
  running : ∀ {t}, w.session = some t → Covers t.cacheMeta t.evictFeatureBuf t.informCache
  sent : ∀ {t}, w.session = some t → t.phase ≠ .evicting → t.evictFeatureBuf = []
  resting : ∀ c, Covers (CacheMeta.loadCacheMeta (w.metaFiles c)) []
    (InformCache.loadCntIdx (w.informFiles c))

theorem covered_init : Covered init where
  running := fun h => nomatch h
  sent := fun h => nomatch h
  resting := fun _ => (InStep.ofEmpty 0 ∅).covers

theorem covers_chunk {m m' : CacheMeta} {s s' : UploadState} {x : PlainChunk}
    {addr : KeyForChunkHashDB} (h : Covers m [] s.informCache)
    (hw : ∀ cnt ∈ s.informCache.base2CntIdx.lookup (x.fp cfg), cnt + superFeaturePerChunk < 2 ^ 32)
    (hd : ChunkDone cfg m s x addr m' s') : Covers m' [] s'.informCache := by
  rcases hd.caches with ⟨rfl, hc⟩ | ⟨rfl, hc⟩
  · rw [hc]
    refine h.pair hw fun f => ?_
    rw [CacheMeta.mem_updateCacheMeta, CacheMeta.mem_queryCacheMeta]
    rfl
  · rw [hc]
    exact h.mono fun f hf => CacheMeta.mem_queryCacheMeta.mp hf

theorem covered_step (h : Covered w) (hg : NoWrap cfg w a) (hs : Stepped cfg w a w') :
    Covered w' := by
  cases hs with
  | login c hs =>
      refine ⟨?_, ?_, h.resting⟩
      · intro t ht
        cases ht
        exact (h.resting c).mono fun f hf => hf
      · intro t ht _
        cases ht
        rfl
  | @chunk t m s x addr hs hp hd =>
      have hbuf := h.sent hs (by rw [hp]; exact nofun)
      have hin := h.running hs
      rw [hbuf] at hin
      refine ⟨?_, ?_, h.resting⟩
      · intro t' ht
        cases ht
        show Covers m t.evictFeatureBuf s.informCache
        rw [hbuf]
        exact covers_chunk hin (hg t hs) hd
      · intro t' ht _
        cases ht
        exact hbuf
  | recipeEnd hs hp =>
      refine ⟨?_, ?_, h.resting⟩
      · intro t' ht
        cases ht
        have hin := h.running hs
        exact hin
      · intro t' ht hne
        cases ht
        exact absurd rfl hne
  | evict f hs hp hf hb =>
      have hin := (h.running hs).erase (CacheMeta.mem_of_aged hf)
      refine ⟨?_, ?_, h.resting⟩
      · intro t' ht
        cases ht
        cases hb with
        | kept => exact hin
        | sent hb =>
            obtain ⟨c, hc, hcov, -⟩ := hin.send
            cases hb.symm.trans hc
            exact hcov
      · intro t' ht hne
        cases ht
        exact absurd hp hne
  | evictEnd hs hp hb =>
      refine ⟨?_, ?_, h.resting⟩
      · intro t' ht
        cases ht
        obtain ⟨c, hc, hcov, -⟩ := (h.running hs).send
        cases hb.symm.trans hc
        exact hcov
      · intro t' ht _
        cases ht
        rfl
  | @logout t metaOrder cntOrder idxOrder hs hp hm hc hi =>
      have hin := h.running hs
      rw [h.sent hs (by rw [hp]; exact nofun)] at hin
      refine ⟨nofun, nofun, ?_⟩
      intro c
      by_cases hid : c = t.clientId
      · subst hid
        simp only [Function.update_self]
        rw [CacheMeta.load_store hm]
        exact hin.stored hc hi
      · simp only [Function.update_of_ne hid]
        exact h.resting c
  | download c file garbage cntOrder idxOrder hs hm hd hc hi =>
      refine ⟨fun ht => h.running ht, fun ht => h.sent ht, ?_⟩
      intro c'
      by_cases hid : c' = c
      · subst hid
        simp only [Function.update_self]
        exact (h.resting c').stored hc hi
      · simp only [Function.update_of_ne hid]
        exact h.resting c'

/-! ## What is in the files -/

/-- The features in the client's cache meta file. -/
def storedFeatures : Option MetaFile → List Feature
  | none => []
  | some file => file.entries.map Prod.fst

/-- The features in the server's `_idx` file. -/
def persistedFeatures (files : InformFiles) : List Feature :=
  (files.idxFile.getD []).map Prod.fst

theorem mem_loadCacheMeta {file : Option MetaFile} {f : Feature} :
    f ∈ (CacheMeta.loadCacheMeta file).feature2VersionIdx ↔ f ∈ storedFeatures file := by
  cases file with
  | none => simp [CacheMeta.loadCacheMeta, storedFeatures, Finmap.notMem_empty]
  | some file =>
      obtain ⟨n, entries⟩ := file
      cases entries with
      | nil => simp [CacheMeta.loadCacheMeta, storedFeatures, Finmap.notMem_empty]
      | cons e entries =>
          show f ∈ Index.insertList ∅ (e :: entries) ↔ _
          rw [Index.mem_insertList]
          exact or_iff_left Finmap.notMem_empty

variable (cfg) in
/-- The files of the client id `c` fit together: the server has kept every feature
in the client's file, and in every later session, of this client or of another
one, a chunk of which the client knows a feature is found similar. -/
structure Usable (w : World) (c : ClientId) : Prop where
  contained : ∀ f ∈ storedFeatures (w.metaFiles c), f ∈ persistedFeatures (w.informFiles c)
  similar : ∀ {w' t}, Reach (step cfg) (NoWrap cfg) w w' → w'.session = some t →
    ∀ info : ChunkInfo, (∃ f ∈ info.features.toList, f ∈ t.cacheMeta.feature2VersionIdx) →
      (SimilarPolicy.findBaseChunkMap t.informCache.localFeature2FpDb info).stat = .similarChunk

end World

/-! ## The running upload and the file it started from -/

/-- The features that are not in their version of this upload come from the file
`old`; and what the server still has of the file, after `evictMsgs` eviction
messages. -/
structure Since (old : List Feature) (t : Session) (evictMsgs : Nat) : Prop where
  version : t.cacheMeta.curVersionNum < 2 ^ 32
  aged : ∀ {f v}, t.cacheMeta.feature2VersionIdx.lookup f = some v →
    v = t.cacheMeta.curVersionNum ∨ f ∈ old
  waiting : ∀ {f}, f ∈ t.evictFeatureBuf → f ∈ old
  intact : evictMsgs = 0 → ∀ {f}, f ∈ old → f ∈ t.informCache.localFeature2FpDb
  lost : 0 < evictMsgs → t.phase ≠ .sending ∧ ∃ f ∈ old, f ∉ t.informCache.localFeature2FpDb

namespace Since

variable {old : List Feature} {t : Session} {n : Nat}

/-- `EvictFeature` comes only to features of the file. -/
theorem of_aged (h : Since old t n) {f : Feature} (hf : t.cacheMeta.aged f = true) : f ∈ old := by
  unfold CacheMeta.aged at hf
  split at hf
  · rename_i v hv
    refine (h.aged hv).resolve_left ?_
    rintro rfl
    have hlt := h.version
    have hge := of_decide_eq_true hf
    rw [Nat.mod_eq_of_lt hlt, Nat.add_sub_cancel' hlt.le, Nat.mod_self] at hge
    exact absurd hge (by decide)
  · exact nomatch hf

theorem sending (h : Since old t n) (hp : t.phase = .sending) : n = 0 := by
  rcases Nat.eq_zero_or_pos n with h0 | hpos
  · exact h0
  · exact absurd hp (h.lost hpos).1

end Since

/-- A query and an update give the current version, or leave the entry alone. -/
theorem CacheMeta.lookup_query_update {m : CacheMeta} {features : Features} {f : Feature} {v : Nat}
    (h : ((m.queryCacheMeta features).2.updateCacheMeta features).feature2VersionIdx.lookup f =
      some v) : v = m.curVersionNum ∨ m.feature2VersionIdx.lookup f = some v := by
  simp only [updateCacheMeta, queryCacheMeta, Index.lookup_insertAll] at h
  split at h
  · exact Or.inl (Option.some.inj h).symm
  · split at h
    · exact Or.inl (Option.some.inj h).symm
    · exact Or.inr h

theorem CacheMeta.lookup_query {m : CacheMeta} {features : Features} {f : Feature} {v : Nat}
    (h : (m.queryCacheMeta features).2.feature2VersionIdx.lookup f = some v) :
    v = m.curVersionNum ∨ m.feature2VersionIdx.lookup f = some v := by
  simp only [queryCacheMeta, Index.lookup_insertAll] at h
  split at h
  · exact Or.inl (Option.some.inj h).symm
  · exact Or.inr h

/-! ## Runs with aborts -/

/-- The world, and how many eviction messages of the running upload the server has
taken. -/
structure Aborting where
  world : World
  evictMsgs : Nat

inductive AbortAction where
  | act (a : Action)
  /-- The client exits; the server finds the connection closed, runs its stages to
  the end and stores its cache in the orders given. -/
  | abort (cntOrder : List (Fp × Nat)) (idxOrder : List (Feature × Fp))
deriving DecidableEq

namespace Aborting

def init : Aborting := { world := World.init, evictMsgs := 0 }

/-- `SendFeatures` was called: it leaves the buffer empty. -/
def sendsFeatures (w w' : World) : Action → Bool
  | .evict _ => w'.session.any fun t => t.evictFeatureBuf = []
  | .evictEnd => w.session.any fun t => t.evictFeatureBuf ≠ []
  | _ => false

theorem sendsFeatures_evictEnd (w w' : World) :
    sendsFeatures w w' .evictEnd = w.session.any fun t => t.evictFeatureBuf ≠ [] := rfl

variable (cfg : Components)

def step (v : Aborting) : AbortAction → Except Stop Aborting
  | .act a => do
      let w ← v.world.step cfg a
      let evictMsgs := match a with
        | .login _ => 0
        | _ => if sendsFeatures v.world w a then v.evictMsgs + 1 else v.evictMsgs
      .ok { world := w, evictMsgs := evictMsgs }
  | .abort cntOrder idxOrder =>
      match v.world.session with
      | none => .error .disabled
      | some t => do
          let w ← v.world.closeCache t.clientId t.informCache cntOrder idxOrder
          .ok { v with world := { w with srv := DataWriterThd.runEnd w.srv t.cur, session := none } }

/-- No count wraps, and the client exits only before the server has taken an
eviction message of the upload. -/
def Early (v : Aborting) : AbortAction → Prop
  | .act a => World.NoWrap cfg v.world a
  | .abort _ _ => v.evictMsgs = 0

instance (v : Aborting) : ∀ a, Decidable (Early cfg v a)
  | .act a => inferInstanceAs (Decidable (World.NoWrap cfg v.world a))
  | .abort _ _ => inferInstanceAs (Decidable (v.evictMsgs = 0))

variable {cfg} {v v' : Aborting}

/-- What holds as long as clients exit early. -/
structure Kept (v : Aborting) : Prop where
  covered : v.world.Covered
  since : ∀ {t}, v.world.session = some t →
    Since (World.storedFeatures (v.world.metaFiles t.clientId)) t v.evictMsgs

theorem kept_init : Kept init where
  covered := World.covered_init
  since := fun h => nomatch h

/-- The count of eviction messages after an action. -/
def countAfter (v : Aborting) (a : Action) (w' : World) : Nat :=
  match a with
  | .login _ => 0
  | _ => if sendsFeatures v.world w' a then v.evictMsgs + 1 else v.evictMsgs

theorem step_act {a : Action} (h : step cfg v (.act a) = .ok v') :
    Stepped cfg v.world a v'.world ∧ v'.evictMsgs = v.countAfter a v'.world := by
  obtain ⟨w, hw, h⟩ := bind_ok h
  cases h
  exact ⟨World.step_stepped hw, rfl⟩

theorem step_abort {cntOrder : List (Fp × Nat)} {idxOrder : List (Feature × Fp)}
    (h : step cfg v (.abort cntOrder idxOrder) = .ok v') :
    ∃ t, v.world.session = some t ∧
      Index.Lists t.informCache.deleteEvictChunk.base2CntIdx cntOrder ∧
      Index.Lists t.informCache.deleteEvictChunk.localFeature2FpDb idxOrder ∧
      v' = { v with world := { v.world with
        srv := DataWriterThd.runEnd v.world.srv t.cur
        informFiles := Function.update v.world.informFiles t.clientId
          (t.informCache.deleteEvictChunk.storeCntIdx cntOrder idxOrder)
        session := none } } := by
  simp only [step] at h
  cases hs : v.world.session with
  | none => rw [hs] at h; exact nomatch h
  | some t =>
      rw [hs] at h
      obtain ⟨w, hw, h⟩ := bind_ok h
      obtain ⟨hc, hi, rfl⟩ := World.closeCache_ok hw
      cases h
      exact ⟨t, rfl, hc, hi, rfl⟩

/-- A chunk evicts nothing, and only makes versions newer. -/
theorem since_chunk {old : List Feature} {t : Session} {n : Nat} {m : CacheMeta} {s : UploadState}
    {x : PlainChunk} {addr : KeyForChunkHashDB} {w : World} (h : Since old t n)
    (hp : t.phase = .sending) (hd : ChunkDone cfg t.cacheMeta (w.uploadState t) x addr m s) :
    Since old { t with
      cacheMeta := m
      cur := s.cur
      informCache := s.informCache
      fileRecipe := t.fileRecipe ++ [x.fp cfg]
      keyRecipe := t.keyRecipe ++ [x.key]
      chunks := t.chunks ++ [x.data] } n := by
  have h0 := h.sending hp
  rcases hd.caches with ⟨rfl, hc⟩ | ⟨rfl, hc⟩
  · refine ⟨h.version, ?_, h.waiting, ?_, fun hpos => absurd h0 hpos.ne'⟩
    · intro f v hv
      rcases CacheMeta.lookup_query_update hv with hv | hv
      · exact Or.inl hv
      · exact h.aged hv
    · intro _ f hf
      show f ∈ s.informCache.localFeature2FpDb
      rw [hc, Index.mem_iff_lookup, InformCache.lookup_insertCachedChunk_feature]
      split
      · exact ⟨_, rfl⟩
      · exact Index.lookup_isSome_of_mem (h.intact h0 hf)
  · refine ⟨h.version, ?_, h.waiting, ?_, fun hpos => absurd h0 hpos.ne'⟩
    · intro f v hv
      rcases CacheMeta.lookup_query hv with hv | hv
      · exact Or.inl hv
      · exact h.aged hv
    · intro _ f hf
      show f ∈ s.informCache.localFeature2FpDb
      rw [hc]
      exact h.intact h0 hf

/-- Sending a buffer that is not empty takes features of the file from the server. -/
theorem since_send {old : List Feature} {t : Session} {n : Nat} {m : CacheMeta}
    {buf : List Feature} {c : InformCache} {phase : Phase} (h : Since old t n)
    (hver : m.curVersionNum = t.cacheMeta.curVersionNum)
    (hm : ∀ {f v}, m.feature2VersionIdx.lookup f = some v →
      t.cacheMeta.feature2VersionIdx.lookup f = some v)
    (hbuf : ∀ f ∈ buf, f ∈ old) (hne : buf ≠ []) (hphase : phase ≠ .sending)
    (hc : ∀ f, f ∈ c.localFeature2FpDb ↔ f ∉ buf ∧ f ∈ t.informCache.localFeature2FpDb) :
    Since old { t with
      cacheMeta := m
      evictFeatureBuf := []
      informCache := c
      phase := phase } (n + 1) := by
  refine ⟨hver ▸ h.version, ?_, fun hf => absurd hf List.not_mem_nil, ?_, fun _ => ⟨hphase, ?_⟩⟩
  · intro f v hv
    show v = m.curVersionNum ∨ f ∈ old
    rw [hver]
    exact h.aged (hm hv)
  · exact fun h0 => absurd h0 (Nat.succ_ne_zero n)
  · obtain ⟨f, hf⟩ := List.exists_mem_of_ne_nil _ hne
    exact ⟨f, hbuf f hf, fun hin => ((hc f).mp hin).1 hf⟩

theorem kept_act {a : Action} (h : Kept v) (hg : World.NoWrap cfg v.world a)
    (hs : Stepped cfg v.world a v'.world) (hn : v'.evictMsgs = v.countAfter a v'.world) :
    Kept v' := by
  refine ⟨World.covered_step h.covered hg hs, ?_⟩
  rw [hn]
  obtain ⟨w', n'⟩ := v'
  simp only at hs ⊢
  cases hs with
  | login c hs =>
      intro t ht
      cases ht
      refine ⟨Nat.mod_lt _ (by decide), ?_, fun hf => absurd hf List.not_mem_nil, ?_,
        fun hpos => absurd hpos (Nat.lt_irrefl 0)⟩
      · intro f v hv
        exact Or.inr (World.mem_loadCacheMeta.mp (Index.mem_of_lookup hv))
      · intro _ f hf
        exact (h.covered.resting c).features (Or.inl (World.mem_loadCacheMeta.mpr hf))
  | chunk x addr hs hp hd =>
      intro t' ht
      cases ht
      exact since_chunk (h.since hs) hp hd
  | recipeEnd hs hp =>
      intro t' ht
      cases ht
      have ho := h.since hs
      exact ⟨ho.version, ho.aged, ho.waiting, ho.intact, fun hpos => ⟨nofun, (ho.lost hpos).2⟩⟩
  | @evict t buf c f hs hp hf hb =>
      intro t' ht
      cases ht
      have ho := h.since hs
      have hnot : t.phase ≠ .sending := by rw [hp]; exact nofun
      have hm : ∀ {g v}, (t.cacheMeta.eraseFeature f).feature2VersionIdx.lookup g = some v →
          t.cacheMeta.feature2VersionIdx.lookup g = some v := by
        intro g v hv
        simp only [CacheMeta.eraseFeature, Index.lookup_erase_ite] at hv
        split at hv
        · exact nomatch hv
        · exact hv
      have hold : ∀ g ∈ t.evictFeatureBuf ++ [f],
          g ∈ World.storedFeatures (v.world.metaFiles t.clientId) := by
        intro g hg
        rcases List.mem_append.mp hg with hg | hg
        · exact ho.waiting hg
        · cases List.mem_singleton.mp hg
          exact ho.of_aged hf
      have hne : t.evictFeatureBuf ++ [f] ≠ [] := List.append_ne_nil_of_right_ne_nil _ (by simp)
      cases hb with
      | kept =>
          have hcount : v.countAfter (.evict f) { v.world with session := some { t with
              cacheMeta := t.cacheMeta.eraseFeature f
              evictFeatureBuf := t.evictFeatureBuf ++ [f] } } = v.evictMsgs := by
            have hbuf : ¬ t.evictFeatureBuf ++ [f] = [] :=
              List.append_ne_nil_of_right_ne_nil _ (List.cons_ne_nil _ _)
            exact if_neg fun hsends => hbuf (of_decide_eq_true hsends)
          rw [hcount]
          exact ⟨ho.version, fun hv => ho.aged (hm hv), fun hg => hold _ hg, ho.intact,
            fun hpos => ⟨hnot, (ho.lost hpos).2⟩⟩
      | sent hb =>
          obtain ⟨c', hc, -, hmem⟩ :=
            ((h.covered.running hs).erase (CacheMeta.mem_of_aged hf)).send
          cases hb.symm.trans hc
          exact since_send ho rfl hm hold hne hnot hmem
  | @evictEnd t c hs hp hb =>
      intro t' ht
      cases ht
      have ho := h.since hs
      obtain ⟨c', hc, -, hmem⟩ := (h.covered.running hs).send
      cases hb.symm.trans hc
      have hcount : v.countAfter .evictEnd { v.world with session := some { t with
          evictFeatureBuf := []
          informCache := c
          phase := .finished } } =
          if t.evictFeatureBuf ≠ [] then v.evictMsgs + 1 else v.evictMsgs := by
        have hsends : sendsFeatures v.world { v.world with session := some { t with
            evictFeatureBuf := []
            informCache := c
            phase := .finished } } .evictEnd = decide (t.evictFeatureBuf ≠ []) :=
          (sendsFeatures_evictEnd _ _).trans (by rw [hs, Option.any_some])
        exact if_congr (hsends ▸ decide_eq_true_iff) rfl rfl
      rw [hcount]
      by_cases hbuf : t.evictFeatureBuf = []
      · rw [if_neg (not_not.mpr hbuf)]
        rw [hbuf] at hb
        cases hb
        exact ⟨ho.version, ho.aged, fun hf => absurd hf List.not_mem_nil, ho.intact,
          fun hpos => ⟨nofun, (ho.lost hpos).2⟩⟩
      · rw [if_pos hbuf]
        exact since_send ho rfl (fun hv => hv) (fun f hf => ho.waiting hf) hbuf nofun hmem
  | logout metaOrder cntOrder idxOrder hs hp hm hc hi => exact fun ht => nomatch ht
  | download c file garbage cntOrder idxOrder hs hm hd hc hi =>
      intro t ht
      cases hs.symm.trans ht

/-- An early exit leaves the client's file covered by what the server stores. -/
theorem kept_abort {cntOrder : List (Fp × Nat)} {idxOrder : List (Feature × Fp)} (h : Kept v)
    (h0 : v.evictMsgs = 0) (hs : step cfg v (.abort cntOrder idxOrder) = .ok v') : Kept v' := by
  obtain ⟨t, ht, hc, hi, rfl⟩ := step_abort hs
  refine ⟨⟨nofun, nofun, ?_⟩, nofun⟩
  intro c
  by_cases hid : c = t.clientId
  · subst hid
    simp only [Function.update_self]
    have hfile : Covers (CacheMeta.loadCacheMeta (v.world.metaFiles t.clientId)) []
        t.informCache := by
      refine ⟨(h.covered.running ht).cacheInv, ?_, .nil, fun hf => absurd hf List.not_mem_nil⟩
      rintro f (hf | hf)
      · exact (h.since ht).intact h0 (World.mem_loadCacheMeta.mp hf)
      · exact absurd hf List.not_mem_nil
    exact hfile.stored hc hi
  · simp only [Function.update_of_ne hid]
    exact h.covered.resting c

theorem kept_reach (h : Reach (step cfg) (Early cfg) init v) : Kept v := by
  refine h.inv Kept kept_init fun v a v' hi hg hs => ?_
  cases a with
  | act a =>
      obtain ⟨hst, hn⟩ := step_act hs
      exact kept_act hi hg hst hn
  | abort cntOrder idxOrder => exact kept_abort hi hg hs

theorem mem_persisted_of_load {files : InformFiles} {f : Feature}
    (h : f ∈ (InformCache.loadCntIdx files).localFeature2FpDb) :
    f ∈ World.persistedFeatures files := by
  obtain ⟨cntFile, idxFile, dataDb⟩ := files
  unfold InformCache.loadCntIdx at h
  split at h
  · exact absurd h Finmap.notMem_empty
  · split at h
    · exact absurd h Finmap.notMem_empty
    · exact ((Index.mem_insertList _).mp h).resolve_right Finmap.notMem_empty

theorem Kept.usable (h : Kept v) (c : ClientId) : World.Usable cfg v.world c where
  contained := by
    intro f hf
    exact mem_persisted_of_load
      ((h.covered.resting c).features (Or.inl (World.mem_loadCacheMeta.mpr hf)))
  similar := by
    intro w' t hreach ht info hq
    have hcov : w'.Covered := hreach.inv World.Covered h.covered
      fun _ _ _ hi hg hs => World.covered_step hi hg (World.step_stepped hs)
    exact (hcov.running ht).similar hq

/-- In every run in which clients exit early the files of every client stay usable;
and where a client exits in such a run, at any point of its upload, they stay
usable exactly if the server has taken no eviction message of the upload. -/
theorem abort_usable_iff (h : Reach (step cfg) (Early cfg) init v) :
    (∀ c, World.Usable cfg v.world c) ∧
    ∀ {t v' cntOrder idxOrder}, v.world.session = some t →
      step cfg v (.abort cntOrder idxOrder) = .ok v' →
      (World.Usable cfg v'.world t.clientId ↔ v.evictMsgs = 0) := by
  have hk := kept_reach h
  refine ⟨hk.usable, fun {t v' cntOrder idxOrder} ht hs => ⟨fun hu => ?_, fun h0 => ?_⟩⟩
  · by_contra hne
    obtain ⟨t', ht', hc, hi, rfl⟩ := step_abort hs
    obtain rfl := Option.some.inj (ht'.symm.trans ht)
    -- a feature of the file was evicted
    obtain ⟨-, f, hf, hno⟩ := (hk.since ht).lost (Nat.pos_of_ne_zero hne)
    have hin := hu.contained f hf
    simp only [Function.update_self] at hin
    exact hno (hi.mem_keys.mp hin)
  · exact (kept_abort hk h0 hs).usable t.clientId

/-! ### Exits at the wrong moment and at a right one -/

/-- One upload to the end, and a second one that has sent a chunk of its own. -/
def twoUploads : List AbortAction :=
  let addr : KeyForChunkHashDB := ⟨.uniqueChunk, [], 0, 0, []⟩
  let fp := (PlainChunk.mk [10, 5] [9] 0).fp Components.plain
  [.act (.login 0), .act (.chunk [10, 5] [9] 0 addr), .act .recipeEnd, .act .evictEnd,
    .act (.logout [(5, 1), (261, 1), (517, 1)] [(fp, 3)] [(5, fp), (261, fp), (517, fp)]),
    .act (.login 0), .act (.chunk [12, 6] [9] 0 addr)]

/-- The first upload's features are evicted, and `Finish` fails. -/
def lateExit : List AbortAction :=
  let fp := (PlainChunk.mk [12, 6] [9] 0).fp Components.plain
  twoUploads ++ [.act .recipeEnd, .act (.evict 5), .act (.evict 261), .act (.evict 517),
    .act .evictEnd, .abort [(fp, 3)] [(6, fp), (262, fp), (518, fp)]]

def twoUploadsEnd : Aborting := endOf (step Components.plain) init twoUploads

def lateExitEnd : Aborting := endOf (step Components.plain) init lateExit

/-- The next upload sends a chunk that the client takes to be similar to one the
server has dropped: the server exits. -/
theorem late_exit_breaks_caches :
    runSteps (step Components.plain) init lateExit = .ok lateExitEnd ∧
    World.storedFeatures (lateExitEnd.world.metaFiles 0) = [5, 261, 517] ∧
    World.persistedFeatures (lateExitEnd.world.informFiles 0) = [6, 262, 518] ∧
    runSteps (step Components.plain) lateExitEnd [.act (.login 0),
      .act (.chunk [11, 5] [9] 0 ⟨.uniqueChunk, [], 0, 0, []⟩)] =
        .error (.exit .cacheChunkType) ∧
    ¬ World.Usable Components.plain lateExitEnd.world 0 := by
  refine ⟨runSteps_endOf (by decide +kernel), by decide +kernel, by decide +kernel,
    eq_error_of_stopped (by decide +kernel), fun h => ?_⟩
  have hin := h.contained 5 (by decide +kernel)
  revert hin
  decide +kernel

/-- The second upload exits before it evicts anything. -/
def earlyExit : AbortAction :=
  let fp := (PlainChunk.mk [10, 5] [9] 0).fp Components.plain
  let fp' := (PlainChunk.mk [12, 6] [9] 0).fp Components.plain
  .abort [(fp, 3), (fp', 3)]
    [(5, fp), (261, fp), (517, fp), (6, fp'), (262, fp'), (518, fp')]

theorem early_exit_usable : ∃ t v', twoUploadsEnd.world.session = some t ∧
    step Components.plain twoUploadsEnd earlyExit = .ok v' ∧
    World.Usable Components.plain v'.world t.clientId := by
  have hreach : Reach (step Components.plain) (Early Components.plain) init twoUploadsEnd :=
    endOf_reach (by decide +kernel) (by decide +kernel)
  have hsome : twoUploadsEnd.world.session.isSome = true := by decide +kernel
  obtain ⟨t, ht⟩ := Option.isSome_iff_exists.mp hsome
  have hgoes : stopped (step Components.plain twoUploadsEnd earlyExit) = none := by decide +kernel
  cases hs : step Components.plain twoUploadsEnd earlyExit with
  | ok v' => exact ⟨t, v', ht, rfl, ((abort_usable_iff hreach).2 ht hs).mpr (by decide +kernel)⟩
  | error e => rw [hs] at hgoes; exact nomatch hgoes

end Aborting

end EDRStore
