/-
# `EDRStore.Lockstep` — the client's cache meta and the server's inform cache

Two programs keep two maps by different code: `CacheMeta` by query, update and
version ageing, `InformCache` by insert, count, evict and delete.  They agree on
their features because every change of the one is answered by a message to the
other, the features in the eviction buffer being the ones still to be sent.

    CacheInv   every cached feature is counted at its base, and a base that is
               counted has its data
    InStep     the same features on both sides, but for those in the buffer

A count is only a bound: a triple with equal features, or features taken over by
another base, leave it higher than the number of features that name the base.
-/
import EDRStore.System

namespace EDRStore

namespace InformCache

/-- The features that name the base `fp`. -/
def featuresOf (c : InformCache) (fp : Fp) : Finset Feature :=
  c.localFeature2FpDb.keys.filter fun f => c.localFeature2FpDb.lookup f = some fp

theorem mem_featuresOf {c : InformCache} {fp : Fp} {f : Feature} :
    f ∈ c.featuresOf fp ↔ c.localFeature2FpDb.lookup f = some fp := by
  rw [featuresOf, Finset.mem_filter, Finmap.mem_keys]
  exact ⟨fun h => h.2, fun h => ⟨Index.mem_of_lookup h, h⟩⟩

/-- What the counts and the data owe to the feature index. -/
structure CacheInv (c : InformCache) : Prop where
  counted : ∀ fp, (c.featuresOf fp).card ≤ (c.base2CntIdx.lookup fp).getD 0
  kept : ∀ fp ∈ c.base2CntIdx, fp ∈ c.base2DataDb

variable {c c' : InformCache}

/-- A base that a feature names is counted at least once, and its data is in. -/
theorem CacheInv.base (h : CacheInv c) {f : Feature} {fp : Fp}
    (hf : c.localFeature2FpDb.lookup f = some fp) :
    (∃ cnt, c.base2CntIdx.lookup fp = some cnt ∧ 0 < cnt) ∧
      ∃ data, c.base2DataDb.lookup fp = some data := by
  have hpos : 0 < (c.featuresOf fp).card := Finset.card_pos.mpr ⟨f, mem_featuresOf.mpr hf⟩
  have hle := Nat.lt_of_lt_of_le hpos (h.counted fp)
  cases hc : c.base2CntIdx.lookup fp with
  | none =>
      rw [hc] at hle
      exact absurd hle (Nat.lt_irrefl 0)
  | some cnt =>
      rw [hc] at hle
      exact ⟨⟨cnt, rfl, hle⟩, Index.lookup_isSome_of_mem (h.kept fp (Index.mem_of_lookup hc))⟩

theorem cacheInv_empty (data : Index Fp Bytes) : CacheInv ⟨∅, ∅, data⟩ where
  counted := by
    intro fp
    rw [featuresOf, Finmap.keys_empty, Finset.filter_empty, Finset.card_empty]
    exact Nat.zero_le _
  kept := fun _ h => absurd h Finmap.notMem_empty

/-- An insertion adds at most its three features to its own base, and to no
other. -/
theorem card_featuresOf_insert (chunk : WrappedChunk) (fp : Fp) :
    ((c.insertCachedChunk chunk).featuresOf fp).card ≤
      (c.featuresOf fp).card + if fp = chunk.info.fp then superFeaturePerChunk else 0 := by
  by_cases hfp : fp = chunk.info.fp
  · rw [if_pos hfp]
    have hsub : (c.insertCachedChunk chunk).featuresOf fp ⊆
        c.featuresOf fp ∪ chunk.info.features.toList.toFinset := by
      intro f hf
      rw [mem_featuresOf, lookup_insertCachedChunk_feature] at hf
      rw [Finset.mem_union, mem_featuresOf, List.mem_toFinset]
      split at hf
      · rename_i hmem; exact Or.inr hmem
      · exact Or.inl hf
    refine (Finset.card_le_card hsub).trans ((Finset.card_union_le _ _).trans ?_)
    exact Nat.add_le_add_left (List.toFinset_card_le _) _
  · rw [if_neg hfp]
    refine Finset.card_le_card fun f hf => ?_
    rw [mem_featuresOf, lookup_insertCachedChunk_feature] at hf
    split at hf
    · exact absurd (Option.some.inj hf).symm hfp
    · exact mem_featuresOf.mpr hf

/-- `InsertCachedChunk`, as long as the count of the base does not wrap. -/
theorem CacheInv.insert (h : CacheInv c) {chunk : WrappedChunk}
    (hw : ∀ cnt, c.base2CntIdx.lookup chunk.info.fp = some cnt →
      cnt + superFeaturePerChunk < 2 ^ 32) : CacheInv (c.insertCachedChunk chunk) where
  counted := by
    intro fp
    have hcard := card_featuresOf_insert (c := c) chunk fp
    have hold := h.counted fp
    rw [lookup_insertCachedChunk_cnt]
    split at hcard
    · rename_i hfp
      subst hfp
      rw [if_pos rfl]
      cases hc : c.base2CntIdx.lookup chunk.info.fp with
      | none =>
          rw [hc] at hold
          simp only [Option.getD_none] at hold
          simp only [Option.map_none, Option.getD_none, Option.getD_some]
          omega
      | some cnt =>
          rw [hc] at hold
          simp only [Option.getD_some] at hold
          simp only [Option.map_some, Option.getD_some, addCnt, Nat.mod_eq_of_lt (hw cnt hc)]
          omega
    · rename_i hfp
      rw [if_neg hfp]
      omega
  kept := by
    intro fp hm
    obtain ⟨cnt, hcnt⟩ := Index.lookup_isSome_of_mem hm
    rw [lookup_insertCachedChunk_cnt] at hcnt
    rw [Index.mem_iff_lookup, lookup_insertCachedChunk_data]
    split
    · exact ⟨_, rfl⟩
    · rename_i hno
      refine Index.lookup_isSome_of_mem (h.kept fp ?_)
      by_cases hfp : fp = chunk.info.fp
      · subst hfp
        -- it was counted before, or its data has just been put in
        cases hc : c.base2CntIdx.lookup chunk.info.fp with
        | none => exact absurd ⟨rfl, hc⟩ hno
        | some cnt => exact Index.mem_of_lookup hc
      · rw [if_neg hfp] at hcnt
        exact Index.mem_of_lookup hcnt

/-- `EvictCacheChunk` on one feature: a feature that is in is found, and so is
the count of its base. -/
theorem CacheInv.evictFeature (h : CacheInv c) {f : Feature} (hf : f ∈ c.localFeature2FpDb) :
    ∃ c', c.evictFeature f = .ok c' ∧ CacheInv c' ∧
      ∀ g, g ∈ c'.localFeature2FpDb ↔ g ≠ f ∧ g ∈ c.localFeature2FpDb := by
  obtain ⟨fp, hfp⟩ := Index.lookup_isSome_of_mem hf
  obtain ⟨⟨cnt, hcnt, hpos⟩, -⟩ := h.base hfp
  refine ⟨{ c with
      base2CntIdx := c.base2CntIdx.insert fp (cnt - 1)
      localFeature2FpDb := c.localFeature2FpDb.erase f }, ?_, ⟨?_, ?_⟩, fun g => Finmap.mem_erase⟩
  · simp only [InformCache.evictFeature, hfp, hcnt]
  · intro fp'
    rw [Index.lookup_insert_ite]
    have hsub : featuresOf { c with
        base2CntIdx := c.base2CntIdx.insert fp (cnt - 1)
        localFeature2FpDb := c.localFeature2FpDb.erase f } fp' ⊆ (c.featuresOf fp').erase f := by
      intro g hg
      rw [mem_featuresOf, Index.lookup_erase_ite] at hg
      split at hg
      · exact nomatch hg
      · rename_i hne
        exact Finset.mem_erase.mpr ⟨hne, mem_featuresOf.mpr hg⟩
    have hle := Finset.card_le_card hsub
    have hold := h.counted fp'
    split
    · rename_i heq
      subst heq
      rw [hcnt] at hold
      rw [Finset.card_erase_of_mem (mem_featuresOf.mpr hfp)] at hle
      simp only [Option.getD_some] at hold ⊢
      omega
    · exact hle.trans ((Finset.card_le_card (Finset.erase_subset _ _)).trans hold)
  · intro fp' hm
    rcases Finmap.mem_insert.mp hm with rfl | hm
    · exact h.kept _ (Index.mem_of_lookup hcnt)
    · exact h.kept _ hm

/-- `EvictCacheChunk` on features that are all in, each named once. -/
theorem CacheInv.evict {fs : List Feature} :
    ∀ {c : InformCache}, CacheInv c → fs.Nodup → (∀ f ∈ fs, f ∈ c.localFeature2FpDb) →
      ∃ c', fs.foldlM InformCache.evictFeature c = .ok c' ∧ CacheInv c' ∧
        ∀ g, g ∈ c'.localFeature2FpDb ↔ g ∉ fs ∧ g ∈ c.localFeature2FpDb := by
  induction fs with
  | nil => intro c h _ _; exact ⟨c, rfl, h, fun g => by simp⟩
  | cons f fs ih =>
      intro c h hnd hin
      obtain ⟨hf, hnd⟩ := List.nodup_cons.mp hnd
      obtain ⟨c₁, h₁, hinv, hmem⟩ := h.evictFeature (hin f List.mem_cons_self)
      obtain ⟨c₂, h₂, hinv₂, hmem₂⟩ := ih hinv hnd (by
        intro g hg
        refine (hmem g).mpr ⟨?_, hin g (List.mem_cons_of_mem _ hg)⟩
        rintro rfl
        exact hf hg)
      refine ⟨c₂, by rw [List.foldlM_cons, h₁, ok_bind, h₂], hinv₂, ?_⟩
      intro g
      rw [hmem₂, hmem, List.mem_cons, not_or]
      exact ⟨fun ⟨h1, h2, h3⟩ => ⟨⟨h2, h1⟩, h3⟩, fun ⟨⟨h1, h2⟩, h3⟩ => ⟨h2, h1, h3⟩⟩

/-- `DeleteEvictChunk` drops no base that a feature names. -/
theorem CacheInv.delete (h : CacheInv c) : CacheInv c.deleteEvictChunk where
  counted := by
    intro fp
    refine (h.counted fp).trans ?_
    rw [lookup_deleteEvictChunk_cnt]
    cases hc : c.base2CntIdx.lookup fp with
    | none => exact Nat.le_refl _
    | some cnt =>
        rw [Option.filter_some]
        cases cnt with
        | zero => exact Nat.zero_le _
        | succ n => exact Nat.le_refl _
  kept := by
    intro fp hm
    obtain ⟨cnt, hcnt⟩ := Index.lookup_isSome_of_mem hm
    rw [lookup_deleteEvictChunk_cnt] at hcnt
    obtain ⟨hcnt, hne⟩ := Option.filter_eq_some_iff.mp hcnt
    rw [Index.mem_iff_lookup, lookup_deleteEvictChunk_data, if_neg]
    · exact Index.lookup_isSome_of_mem (h.kept fp (Index.mem_of_lookup hcnt))
    · intro h0
      rw [hcnt] at h0
      cases h0
      simp at hne

/-- Without counts there are no features either, so that nothing is lost by the
early return of the loader. -/
theorem CacheInv.features_empty (h : CacheInv c) (h0 : c.base2CntIdx = ∅) :
    c.localFeature2FpDb = ∅ := by
  refine Index.eq_empty_of_keys fun f hf => ?_
  obtain ⟨fp, hfp⟩ := Index.lookup_isSome_of_mem hf
  obtain ⟨⟨cnt, hcnt, -⟩, -⟩ := h.base hfp
  rw [h0, Finmap.lookup_empty] at hcnt
  exact nomatch hcnt

theorem CacheInv.load_store (h : CacheInv c) {cntOrder : List (Fp × Nat)}
    {idxOrder : List (Feature × Fp)} (hc : Index.Lists c.base2CntIdx cntOrder)
    (hi : Index.Lists c.localFeature2FpDb idxOrder) :
    loadCntIdx (c.storeCntIdx cntOrder idxOrder) = c :=
  InformCache.load_store hc hi h.features_empty

end InformCache

/-! ## Both sides of one upload -/

/-- The client knows the features the server's cache holds, but for those it
has still to send. -/
structure InStep (m : CacheMeta) (buf : List Feature) (c : InformCache) : Prop where
  cacheInv : c.CacheInv
  features : ∀ f, f ∈ c.localFeature2FpDb ↔ f ∈ m.feature2VersionIdx ∨ f ∈ buf
  once : buf.Nodup
  dropped : ∀ f ∈ buf, f ∉ m.feature2VersionIdx

namespace InStep

variable {cfg : Components} {m : CacheMeta} {buf : List Feature} {c : InformCache}

/-- With nothing left to send, both sides have the same features. -/
theorem keys_eq (h : InStep m [] c) : m.feature2VersionIdx.keys = c.localFeature2FpDb.keys := by
  ext f
  rw [Finmap.mem_keys, Finmap.mem_keys, h.features]
  simp

theorem ofEmpty (n : Nat) (data : Index Fp Bytes) : InStep ⟨∅, n⟩ [] ⟨∅, ∅, data⟩ where
  cacheInv := InformCache.cacheInv_empty data
  features := fun f => by simp [Finmap.notMem_empty]
  once := .nil
  dropped := fun _ h => absurd h List.not_mem_nil

/-- Only the known features matter, not their versions. -/
theorem congr {m' : CacheMeta} (h : InStep m buf c)
    (hm : ∀ f, f ∈ m'.feature2VersionIdx ↔ f ∈ m.feature2VersionIdx) : InStep m' buf c where
  cacheInv := h.cacheInv
  features := fun f => by rw [hm, h.features]
  once := h.once
  dropped := fun f hf hm' => h.dropped f hf ((hm f).mp hm')

/-- `EvictFeature` drops one feature and remembers to send it. -/
theorem erase (h : InStep m buf c) {f : Feature} (hf : f ∈ m.feature2VersionIdx) :
    InStep (m.eraseFeature f) (buf ++ [f]) c where
  cacheInv := h.cacheInv
  features := by
    intro g
    rw [h.features, CacheMeta.mem_eraseFeature, List.mem_append, List.mem_singleton]
    by_cases hg : g = f
    · subst hg
      simp [hf]
    · simp [hg]
  once := by
    refine List.nodup_append.mpr ⟨h.once, List.nodup_singleton f, ?_⟩
    rintro a ha b hb rfl
    cases List.mem_singleton.mp hb
    exact h.dropped _ ha hf
  dropped := by
    intro g hg hm
    obtain ⟨hne, hm⟩ := CacheMeta.mem_eraseFeature.mp hm
    rcases List.mem_append.mp hg with hg | hg
    · exact h.dropped g hg hm
    · exact hne (List.mem_singleton.mp hg)

/-- Sending the buffer is taken by the server without an exit, and leaves
nothing to send. -/
theorem send (h : InStep m buf c) :
    ∃ c', buf.foldlM InformCache.evictFeature c = .ok c' ∧ InStep m [] c' := by
  obtain ⟨c', hc, hinv, hmem⟩ :=
    h.cacheInv.evict h.once (fun f hf => (h.features f).mpr (Or.inr hf))
  refine ⟨c', hc, hinv, ?_, .nil, fun _ h => absurd h List.not_mem_nil⟩
  intro f
  rw [hmem, h.features]
  constructor
  · rintro ⟨hno, hm | hf⟩
    · exact Or.inl hm
    · exact absurd hf hno
  · rintro (hm | hf)
    · exact ⟨fun hf => h.dropped f hf hm, Or.inl hm⟩
    · exact absurd hf List.not_mem_nil

theorem flushed {buf' : List Feature} {c' : InformCache} (h : InStep m buf c)
    (hf : Flushed buf c buf' c') : InStep m buf' c' := by
  cases hf with
  | kept => exact h
  | sent hs =>
      obtain ⟨c₁, h₁, hin⟩ := h.send
      rw [hs] at h₁
      cases h₁
      exact hin

/-- A pair enters the same features on both sides. -/
theorem pair (h : InStep m [] c) {chunk : WrappedChunk} {m' : CacheMeta}
    (hw : ∀ cnt, c.base2CntIdx.lookup chunk.info.fp = some cnt →
      cnt + superFeaturePerChunk < 2 ^ 32)
    (hm : ∀ f, f ∈ m'.feature2VersionIdx ↔
      f ∈ chunk.info.features.toList ∨ f ∈ m.feature2VersionIdx) :
    InStep m' [] (c.insertCachedChunk chunk) where
  cacheInv := h.cacheInv.insert hw
  features := by
    intro f
    rw [Index.mem_iff_lookup, InformCache.lookup_insertCachedChunk_feature, hm]
    split
    · rename_i hf; simp [hf]
    · rename_i hf
      rw [← Index.mem_iff_lookup, h.features]
      simp [hf]
  once := .nil
  dropped := fun _ h => absurd h List.not_mem_nil

/-- A known feature rules out an empty cache. -/
theorem nonempty (h : InStep m buf c) {f : Feature} (hf : f ∈ m.feature2VersionIdx) :
    c.getCacheSize ≠ 0 := by
  intro h0
  have hm := (h.features f).mpr (Or.inl hf)
  rw [InformCache.getCacheSize_eq_zero.mp h0] at hm
  exact Finmap.notMem_empty hm

end InStep

/-! ## Any number of sessions -/

/-- The exits that a disagreement of the two caches leads to. -/
def cacheExits : List Exit :=
  [.cacheChunkType, .cacheBaseMissing, .evictCountMissing, .evictFeatureMissing]

namespace World

variable {cfg : Components} {w w' : World} {a : Action}

/-- The count of the base a chunk may be entered for does not wrap. -/
def NoWrap (cfg : Components) (w : World) (a : Action) : Prop :=
  a.OnChunk fun x _ => ∀ t ∈ w.session,
    ∀ cnt ∈ t.informCache.base2CntIdx.lookup (x.fp cfg), cnt + superFeaturePerChunk < 2 ^ 32

instance (w : World) (a : Action) : Decidable (NoWrap cfg w a) :=
  inferInstanceAs (Decidable (a.OnChunk _))

/-- The two caches of a running session, and the files of both sides between
sessions. -/
structure Synced (w : World) : Prop where
  running : ∀ {t}, w.session = some t → InStep t.cacheMeta t.evictFeatureBuf t.informCache
  /-- Features wait in the buffer only while `EvictFeature` runs. -/
  sent : ∀ {t}, w.session = some t → t.phase ≠ .evicting → t.evictFeatureBuf = []
  resting : ∀ c, InStep (CacheMeta.loadCacheMeta (w.metaFiles c)) []
    (InformCache.loadCntIdx (w.informFiles c))

theorem synced_init : Synced init where
  running := fun h => nomatch h
  sent := fun h => nomatch h
  resting := fun _ => InStep.ofEmpty 0 ∅

/-- What is stored at the end of a `ClientVar` is loaded for the next one. -/
theorem inStep_stored {m : CacheMeta} {c : InformCache} (h : InStep m [] c)
    {cntOrder : List (Fp × Nat)} {idxOrder : List (Feature × Fp)}
    (hc : Index.Lists c.deleteEvictChunk.base2CntIdx cntOrder)
    (hi : Index.Lists c.deleteEvictChunk.localFeature2FpDb idxOrder) :
    InStep m [] (InformCache.loadCntIdx (c.deleteEvictChunk.storeCntIdx cntOrder idxOrder)) := by
  rw [h.cacheInv.delete.load_store hc hi]
  exact { h with cacheInv := h.cacheInv.delete }

/-- The writer does not touch the inform cache. -/
theorem runWriter_informCache {s s' : UploadState} {chunk : WrappedChunk}
    (h : UploadState.runWriter cfg s chunk = .ok s') : s'.informCache = s.informCache := by
  obtain ⟨r, -, h⟩ := bind_ok h
  cases h
  rfl

/-- One chunk, on both sides. -/
theorem inStep_chunk {m m' : CacheMeta} {s s' : UploadState} {x : PlainChunk}
    {addr : KeyForChunkHashDB} (h : InStep m [] s.informCache)
    (hw : ∀ cnt ∈ s.informCache.base2CntIdx.lookup (x.fp cfg), cnt + superFeaturePerChunk < 2 ^ 32)
    (hd : ChunkDone cfg m s x addr m' s') : InStep m' [] s'.informCache := by
  have hpair : InStep ((m.queryCacheMeta (x.features cfg)).2.updateCacheMeta (x.features cfg)) []
      (s.informCache.insertCachedChunk (x.cacheChunk cfg addr)) := by
    refine h.pair hw fun f => ?_
    rw [CacheMeta.mem_updateCacheMeta, CacheMeta.mem_queryCacheMeta]
    rfl
  have hsingle : InStep (m.queryCacheMeta (x.features cfg)).2 [] s.informCache :=
    h.congr fun f => CacheMeta.mem_queryCacheMeta
  cases hd with
  | pairOld hq hm => exact hpair
  | pairNew hq hm hw =>
      rw [runWriter_informCache hw]
      exact hpair
  | singleOld hq hm => exact hsingle
  | singleDelta hq hm hf hb hv hd he hw =>
      rw [runWriter_informCache hw]
      exact hsingle
  | singlePlain hq hm h0 hw =>
      rw [runWriter_informCache hw]
      exact hsingle

theorem synced_step (h : Synced w) (hg : NoWrap cfg w a) (hs : Stepped cfg w a w') :
    Synced w' := by
  cases hs with
  | login c hs =>
      refine ⟨?_, ?_, h.resting⟩
      · intro t ht
        cases ht
        -- the version goes up, the features stay
        exact (h.resting c).congr fun f => Iff.rfl
      · intro t ht _
        cases ht
        rfl
  | @chunk t m s x addr hs hp hd =>
      have hbuf := h.sent hs (by rw [hp]; exact fun h => nomatch h)
      have hin := h.running hs
      rw [hbuf] at hin
      refine ⟨?_, ?_, h.resting⟩
      · intro t' ht
        cases ht
        show InStep m t.evictFeatureBuf s.informCache
        rw [hbuf]
        exact inStep_chunk hin (hg t hs) hd
      · intro t' ht _
        cases ht
        exact hbuf
  | recipeEnd hs hp =>
      refine ⟨?_, ?_, h.resting⟩
      · intro t' ht
        cases ht
        have hin := h.running hs
        exact hin
      · intro t' ht hne
        cases ht
        exact absurd rfl hne
  | evict f hs hp hf hb =>
      refine ⟨?_, ?_, h.resting⟩
      · intro t' ht
        cases ht
        exact ((h.running hs).erase (CacheMeta.mem_of_aged hf)).flushed hb
      · intro t' ht hne
        cases ht
        exact absurd hp hne
  | evictEnd hs hp hb =>
      refine ⟨?_, ?_, h.resting⟩
      · intro t' ht
        cases ht
        obtain ⟨c, hc, hin⟩ := (h.running hs).send
        rw [hb] at hc
        cases hc
        exact hin
      · intro t' ht _
        cases ht
        rfl
  | @logout t metaOrder cntOrder idxOrder hs hp hm hc hi =>
      refine ⟨(fun h => nomatch h), (fun h => nomatch h), ?_⟩
      have hin := h.running hs
      rw [h.sent hs (by rw [hp]; exact fun h => nomatch h)] at hin
      intro c
      by_cases hid : c = t.clientId
      · subst hid
        simp only [Function.update_self]
        rw [CacheMeta.load_store hm]
        exact inStep_stored hin hc hi
      · simp only [Function.update_of_ne hid]
        exact h.resting c
  | download c file garbage cntOrder idxOrder hs hm hd hc hi =>
      refine ⟨fun ht => h.running ht, fun ht => h.sent ht, ?_⟩
      intro c'
      by_cases hid : c' = c
      · subst hid
        simp only [Function.update_self]
        exact inStep_stored (h.resting c') hc hi
      · simp only [Function.update_of_ne hid]
        exact h.resting c'

theorem synced_reach (h : Reach (step cfg) (NoWrap cfg) init w) : Synced w :=
  h.inv Synced synced_init fun _ _ _ hi hg hs => synced_step hi hg (step_stepped hs)

/-! ### The exits -/

theorem runWriter_avoids (s : UploadState) (chunk : WrappedChunk) :
    Avoids cacheExits (UploadState.runWriter cfg s chunk) := by
  refine Avoids.bind ?_ fun r _ => Avoids.ok _
  intro e he
  rcases DataWriterThd.runChunk_error he with ⟨rfl, -⟩ | ⟨rfl, -⟩ | ⟨rfl, -⟩ <;> decide

/-- The cache stage takes a single chunk of which the client knows a feature. -/
theorem runCache_avoids {s : UploadState} {m : CacheMeta} (h : InStep m [] s.informCache)
    (chunk : WrappedChunk) (hs : chunk.info.stat = .uniqueChunk)
    (hq : ∃ f ∈ chunk.info.features.toList, f ∈ m.feature2VersionIdx) :
    Avoids cacheExits (UploadState.runCache cfg s chunk) := by
  intro e he
  rcases UploadState.runCache_single_error hs he with
    ⟨-, hno⟩ | ⟨-, f, hf, base, hb, hd⟩ | rfl | ⟨chunk', -, hw⟩
  · obtain ⟨f, hf, hm⟩ := hq
    obtain ⟨fp, hfp⟩ := Index.lookup_isSome_of_mem ((h.features f).mpr (Or.inl hm))
    rw [hno f hf] at hfp
    exact nomatch hfp
  · obtain ⟨-, data, hdata⟩ := h.cacheInv.base hb
    rw [hd] at hdata
    exact nomatch hdata
  · decide
  · exact runWriter_avoids s chunk' e hw

theorem runItem_avoids {s : UploadState} {m : CacheMeta} (h : InStep m [] s.informCache)
    (x : PlainChunk) (addr : KeyForChunkHashDB) :
    Avoids cacheExits (UploadState.runItem cfg s addr
      (SenderThd.sendItem cfg .fullEdr m (prepareChunk cfg x.data x.key x.seed)).1) := by
  rcases sendItem_cases cfg m x with ⟨hq, heq⟩ | ⟨hq, heq⟩
  · rw [heq, UploadState.runItem_single (x.fp cfg) rfl rfl]
    split
    · exact Avoids.ok _
    · refine Avoids.bind ?_ fun _ _ => Avoids.ok _
      exact runCache_avoids (s := s.placeholder (x.fp cfg) addr) h _ rfl hq
  · rw [heq, UploadState.runItem_pair (x.fp cfg) rfl rfl]
    simp only
    split
    · exact Avoids.ok _
    · exact (runWriter_avoids _ _).bind fun _ _ => Avoids.ok _

theorem restoreChunk_avoids (srv : Server) (informCache : InformCache) (fp : Fp)
    (cur : ClientStore) :
    Avoids cacheExits (DataDecoderThd.restoreChunk cfg srv informCache fp cur) := by
  have hdelta : ∀ b d : Bytes, Avoids cacheExits (orExit .deltaDecode (cfg.deltaDecode b d)) :=
    fun b d => avoids_orExit (by decide) _
  have hbase : ∀ {e : Exit}, e ∉ cacheExits → ∀ fp,
      Avoids cacheExits (orExit e (srv.fp2AddrDb.lookup fp)) :=
    fun he fp => avoids_orExit he _
  refine Avoids.bind ?_ fun r _ => (Avoids.bind ?_ fun _ _ => Avoids.ok _)
  · refine (hbase (by decide) fp).bind fun addr _ => ?_
    simp only
    split
    · refine Avoids.bind ?_ fun _ _ => Avoids.ok _
      exact (hbase (by decide) _).bind fun _ _ => Avoids.ok _
    · exact Avoids.ok _
    · refine Avoids.bind ?_ fun _ _ => Avoids.ok _
      unfold DataReaderThd.procCacheDeltaChunk
      split
      · exact (avoids_orExit (by decide) _).bind fun _ _ => Avoids.ok _
      · refine (hbase (by decide) _).bind fun baseAddr _ => ?_
        split
        · refine (hbase (by decide) _).bind fun _ _ => ?_
          exact (hdelta _ _).bind fun _ _ => Avoids.ok _
        · exact Avoids.ok _
        · exact Avoids.ok _
        · exact Avoids.error (by decide)
    · exact Avoids.error (by decide)
  · unfold DataDecoderThd.decodeChunk
    split
    · split
      · exact (hdelta _ _).bind fun _ _ => Avoids.ok _
      · exact Avoids.error (by decide)
    · split
      · exact Avoids.ok _
      · exact (hdelta _ _).bind fun _ _ => Avoids.ok _
      · exact Avoids.ok _
      · exact Avoids.error (by decide)
    · exact Avoids.ok _
    · exact Avoids.error (by decide)

theorem restoreFile_avoids (srv : Server) (informCache : InformCache) (fps : List Fp) :
    ∀ cur, Avoids cacheExits (restoreFile cfg srv informCache cur fps) := by
  induction fps with
  | nil => intro cur; exact Avoids.ok _
  | cons fp fps ih =>
      intro cur
      refine (restoreChunk_avoids srv informCache fp cur).bind fun r _ => ?_
      exact (ih r.2).bind fun _ _ => Avoids.ok _

theorem fullEDR_avoids (keys : List Key) :
    ∀ entries, Avoids cacheExits (DataRetrieverThd.fullEDR cfg keys entries) := by
  have hdec : ∀ data key,
      Avoids cacheExits (orExit .retrieverDecrypt (cfg.twoPhaseDecChunk data key)) :=
    fun data key => avoids_orExit (by decide) _
  induction keys with
  | nil => intro entries; exact Avoids.ok _
  | cons key keys ih =>
      intro entries
      refine Avoids.bind ?_ fun r _ => (ih r.2).bind fun _ _ => Avoids.ok _
      unfold DataRetrieverThd.fullEDRItem
      split
      · refine Avoids.bind ?_ fun _ _ => Avoids.ok _
        exact (hdec _ _).bind fun _ _ => Avoids.ok _
      · exact (hdec _ _).bind fun _ _ => Avoids.ok _
      · refine Avoids.bind ((hdec _ _).bind fun _ _ => Avoids.ok _) fun _ _ => ?_
        refine (avoids_orExit (by decide) _).bind fun _ _ => ?_
        exact (hdec _ _).bind fun _ _ => Avoids.ok _
      · exact Avoids.ok _
      · exact Avoids.error (by decide)

/-- From a state in which both sides agree, no action leads to one of the exits. -/
theorem Synced.exits (h : Synced w) {e : Exit} (he : w.step cfg a = .error (.exit e)) :
    e ∉ cacheExits := by
  cases a with
  | login c =>
      simp only [step] at he
      split at he <;> cases he
  | chunk data key seed addr =>
      simp only [step] at he
      split at he
      · cases he
      · rename_i t hs
        split at he
        · rename_i hp
          have hin := h.running hs
          rw [h.sent hs (by rw [hp]; exact fun h => by cases h)] at hin
          rcases bind_error he with he | ⟨r, -, he⟩
          · exact runItem_avoids hin ⟨data, key, seed⟩ addr e (exits_eq_exit he)
          · cases he
        · cases he
  | recipeEnd =>
      simp only [step] at he
      split at he
      · cases he
      · split at he <;> cases he
  | evict f =>
      simp only [step] at he
      split at he
      · cases he
      · rename_i t hs
        split at he
        · rename_i hp
          split at he
          · obtain ⟨c, hc, -⟩ := ((h.running hs).erase (CacheMeta.mem_of_aged hp.2)).send
            rw [sendFeatures_eq, hc] at he
            cases he
          · cases he
        · cases he
  | evictEnd =>
      simp only [step] at he
      split at he
      · cases he
      · rename_i t hs
        split at he
        · split at he
          · obtain ⟨c, hc, -⟩ := (h.running hs).send
            rw [sendFeatures_eq, hc] at he
            cases he
          · cases he
        · cases he
  | logout metaOrder cntOrder idxOrder =>
      simp only [step] at he
      split at he
      · cases he
      · split at he
        · rcases bind_error he with he | ⟨w₁, -, he⟩
          · simp only [closeCache] at he
            split at he <;> cases he
          · cases he
        · cases he
  | download c file garbage cntOrder idxOrder =>
      simp only [step] at he
      split at he
      · cases he
      · split at he
        · rcases bind_error he with he | ⟨chunks, -, he⟩
          · rcases bind_error (exits_eq_exit he) with he | ⟨r, -, he⟩
            · exact restoreFile_avoids _ _ _ _ e he
            · exact fullEDR_avoids _ _ e he
          · simp only [closeCache] at he
            split at he <;> cases he
        · cases he

/-- A base that a feature names is counted, and its data is in. -/
def BasesHeld (c : InformCache) : Prop :=
  ∀ f fp, c.localFeature2FpDb.lookup f = some fp →
    (∃ cnt, c.base2CntIdx.lookup fp = some cnt ∧ 0 < cnt) ∧
      ∃ data, c.base2DataDb.lookup fp = some data

/-- Client and server caches stay in lockstep over any number of sessions.  In
every state reached: while an upload runs, the server has the features the
client knows and those in the buffer, which are sent before anything else, so
that both have the same when the buffer is empty; between sessions, what both
sides load has the same features; every base a feature names is counted and has
its data; and no action ends the server in one of the four exits. -/
theorem caches_lockstep (h : Reach (step cfg) (NoWrap cfg) init w) :
    (∀ t ∈ w.session,
      (∀ f, f ∈ t.informCache.localFeature2FpDb ↔
        f ∈ t.cacheMeta.feature2VersionIdx ∨ f ∈ t.evictFeatureBuf) ∧
      (t.evictFeatureBuf = [] →
        t.cacheMeta.feature2VersionIdx.keys = t.informCache.localFeature2FpDb.keys) ∧
      (t.phase ≠ .evicting → t.evictFeatureBuf = []) ∧
      BasesHeld t.informCache) ∧
    (∀ c, (CacheMeta.loadCacheMeta (w.metaFiles c)).feature2VersionIdx.keys =
        (InformCache.loadCntIdx (w.informFiles c)).localFeature2FpDb.keys ∧
      BasesHeld (InformCache.loadCntIdx (w.informFiles c))) ∧
    ∀ a e, w.step cfg a = .error (.exit e) → e ∉ cacheExits := by
  have hi := synced_reach h
  refine ⟨?_, ?_, fun a e he => hi.exits he⟩
  · intro t ht
    have hin := hi.running ht
    refine ⟨hin.features, ?_, hi.sent ht, fun f fp hf => hin.cacheInv.base hf⟩
    intro hb
    rw [hb] at hin
    exact hin.keys_eq
  · intro c
    exact ⟨(hi.resting c).keys_eq, fun f fp hf => (hi.resting c).cacheInv.base hf⟩

/-- Two uploads by one client: the second sees none of the first one's features,
and is about to send them for eviction. -/
def lockstepActions : List Action :=
  let addr : KeyForChunkHashDB := ⟨.uniqueChunk, [], 0, 0, []⟩
  let fp := (PlainChunk.mk [10, 5] [9] 0).fp Components.plain
  [.login 0, .chunk [10, 5] [9] 0 addr, .chunk [11, 5] [9] 0 addr, .recipeEnd, .evictEnd,
    .logout [(5, 1), (261, 1), (517, 1)] [(fp, 3)] [(5, fp), (261, fp), (517, fp)],
    .login 0, .chunk [12, 6] [9] 0 addr, .recipeEnd, .evict 5, .evict 261, .evict 517]

def lockstepEnd : World := endOf (step Components.plain) init lockstepActions

theorem caches_lockstep_sample :
    ∃ t, lockstepEnd.session = some t ∧ t.evictFeatureBuf = [517] ∧
      (517 ∈ t.informCache.localFeature2FpDb ↔
        517 ∈ t.cacheMeta.feature2VersionIdx ∨ 517 ∈ t.evictFeatureBuf) := by
  have hreach : Reach (step Components.plain) (NoWrap Components.plain) init lockstepEnd :=
    endOf_reach (by decide +kernel) (by decide +kernel)
  have h := caches_lockstep hreach
  have hsome : lockstepEnd.session.isSome = true := by decide +kernel
  have hbuf : ∀ t ∈ lockstepEnd.session, t.evictFeatureBuf = [517] := by decide +kernel
  obtain ⟨t, ht⟩ := Option.isSome_iff_exists.mp hsome
  exact ⟨t, ht, hbuf t ht, (h.1 t ht).1 517⟩

end World

end EDRStore
