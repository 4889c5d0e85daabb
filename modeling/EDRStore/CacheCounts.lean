/-
# `EDRStore.CacheCounts` — the reference counts of the inform cache

A base stays in the cache as long as a feature names it: `base_2_cnt_idx_`
counts them down to zero as they are evicted.  Up it counts three for every
chunk announced,

    features [5, 5, 9]     local_feature_2_fp_db_   5 ↦ b, 9 ↦ b
                           base_2_cnt_idx_          b ↦ 3

so that a chunk with a feature twice, such as one of zeros only, is never
counted down again.  The counts are exact as long as no such chunk comes and the
32 bits suffice (`counts_exact_iff`).
-/
import EDRStore.InformCache
import EDRStore.Lib.Fibre
import EDRStore.Lib.Run

namespace EDRStore

/-- What is done to the cache of a client; `reopen` is the end of a session and
the beginning of the next, the two maps written in the orders given. -/
inductive CacheOp where
  | insertCachedChunk (cacheChunk : WrappedChunk)
  | evictCacheChunk (evictChunk : WrappedChunk)
  | deleteEvictChunk
  | reopen (cntOrder : List (Fp × Nat)) (idxOrder : List (Feature × Fp))

namespace InformCache

def step (c : InformCache) : CacheOp → Except Exit InformCache
  | .insertCachedChunk chunk => .ok (c.insertCachedChunk chunk)
  | .evictCacheChunk chunk => c.evictCacheChunk chunk
  | .deleteEvictChunk => .ok c.deleteEvictChunk
  | .reopen cntOrder idxOrder => .ok (loadCntIdx (c.storeCntIdx cntOrder idxOrder))

/-- What the client guarantees: it announces a chunk only if it knows none of
its features, and evicts only features it knows.  Maps are written out whole. -/
def Announced (c : InformCache) : CacheOp → Prop
  | .insertCachedChunk chunk => ∀ f ∈ chunk.info.features.toList, c.localFeature2FpDb.lookup f = none
  | .evictCacheChunk chunk =>
      chunk.evictFeatures.Nodup ∧ ∀ f ∈ chunk.evictFeatures, f ∈ c.localFeature2FpDb
  | .deleteEvictChunk => True
  | .reopen cntOrder idxOrder =>
      Index.Lists c.base2CntIdx cntOrder ∧ Index.Lists c.localFeature2FpDb idxOrder

-- over the list: there are too many features to try them all
instance (c : InformCache) : (a : CacheOp) → Decidable (c.Announced a)
  | .insertCachedChunk _ => List.decidableBAll _ _
  | .evictCacheChunk chunk =>
      have := List.decidableBAll (· ∈ c.localFeature2FpDb) chunk.evictFeatures
      inferInstanceAs (Decidable (chunk.evictFeatures.Nodup ∧ _))
  | .deleteEvictChunk => inferInstanceAs (Decidable True)
  | .reopen _ _ => inferInstanceAs (Decidable (_ ∧ _))

/-- The counts say how many features name a base, and `DeleteEvictChunk` drops
the bases that no feature names, and keeps no other. -/
structure CountsExact (c : InformCache) : Prop where
  count : ∀ fp cnt, c.base2CntIdx.lookup fp = some cnt → cnt = c.localFeature2FpDb.refs fp
  deleted : ∀ fp ∈ c.base2CntIdx,
    fp ∉ c.deleteEvictChunk.base2CntIdx ↔ c.localFeature2FpDb.refs fp = 0
  deletedData : ∀ fp ∈ c.base2DataDb,
    fp ∉ c.deleteEvictChunk.base2DataDb ↔ c.localFeature2FpDb.refs fp = 0
  referenced : ∀ fp ∈ c.deleteEvictChunk.base2DataDb, 0 < c.localFeature2FpDb.refs fp

/-- The chunk has three different features, and the count of its base has room
for them. -/
def Countable (c : InformCache) : CacheOp → Prop
  | .insertCachedChunk chunk =>
      chunk.info.features.toList.Nodup ∧
        c.localFeature2FpDb.refs chunk.info.fp + superFeaturePerChunk < 2 ^ 32
  | _ => True

instance (c : InformCache) : (a : CacheOp) → Decidable (c.Countable a)
  | .insertCachedChunk _ => inferInstanceAs (Decidable (_ ∧ _))
  | .evictCacheChunk _ => inferInstanceAs (Decidable True)
  | .deleteEvictChunk => inferInstanceAs (Decidable True)
  | .reopen _ _ => inferInstanceAs (Decidable True)

/-! ## What every operation keeps -/

/-- The counts are exact, every named base is counted, and every counted base
is there. -/
structure Balanced (c : InformCache) : Prop where
  count : ∀ fp cnt, c.base2CntIdx.lookup fp = some cnt → cnt = c.localFeature2FpDb.refs fp
  counted : ∀ f fp, c.localFeature2FpDb.lookup f = some fp → fp ∈ c.base2CntIdx
  data : ∀ fp, fp ∈ c.base2DataDb ↔ fp ∈ c.base2CntIdx

variable {c c' : InformCache}

theorem balanced_new : (loadCntIdx .none).Balanced where
  count := fun _ _ h => nomatch h
  counted := fun _ _ h => nomatch h
  data := fun _ => Iff.rfl

theorem Balanced.refs_eq_zero (h : c.Balanced) {fp : Fp} (hn : c.base2CntIdx.lookup fp = none) :
    c.localFeature2FpDb.refs fp = 0 := by
  refine Nat.eq_zero_of_not_pos fun hpos => ?_
  obtain ⟨f, hf⟩ := Index.refs_pos.mp hpos
  obtain ⟨cnt, hcnt⟩ := Index.lookup_isSome_of_mem (h.counted f fp hf)
  exact nomatch hn.symm.trans hcnt

/-- The features and the counts after an insertion of new features. -/
theorem refs_insertCachedChunk {chunk : WrappedChunk}
    (hnew : ∀ f ∈ chunk.info.features.toList, c.localFeature2FpDb.lookup f = none) (fp : Fp) :
    (c.insertCachedChunk chunk).localFeature2FpDb.refs fp =
      if fp = chunk.info.fp then
        c.localFeature2FpDb.refs fp + chunk.info.features.toList.toFinset.card
      else c.localFeature2FpDb.refs fp := by
  have heq : (c.insertCachedChunk chunk).localFeature2FpDb =
      c.localFeature2FpDb.insertAll chunk.info.features.toList chunk.info.fp := by
    cases h : c.base2CntIdx.lookup chunk.info.fp with
    | some cnt => rw [insertCachedChunk_present h]
    | none => rw [insertCachedChunk_absent h]
  rw [heq]
  split
  · rename_i hfp
    rw [hfp, Index.refs_insertAll_self hnew]
  · rename_i hfp
    exact Index.refs_insertAll_of_ne hnew hfp

/-- Among three features there are one, two or three different ones. -/
theorem card_features (fs : Features) :
    0 < fs.toList.toFinset.card ∧ fs.toList.toFinset.card ≤ superFeaturePerChunk ∧
      (fs.toList.toFinset.card = superFeaturePerChunk ↔ fs.toList.Nodup) := by
  refine ⟨Finset.card_pos.mpr ⟨fs.sf0, ?_⟩, List.toFinset_card_le _, ?_⟩
  · exact List.mem_toFinset.mpr List.mem_cons_self
  · exact Multiset.toFinset_card_eq_card_iff_nodup (m := (fs.toList : Multiset Feature))

/-- An insertion of new features keeps the balance just when it is countable. -/
theorem Balanced.insert (h : c.Balanced) {chunk : WrappedChunk}
    (hnew : ∀ f ∈ chunk.info.features.toList, c.localFeature2FpDb.lookup f = none)
    (hc : c.Countable (.insertCachedChunk chunk)) : (c.insertCachedChunk chunk).Balanced := by
  obtain ⟨hnd, hroom⟩ := hc
  have hcard := (card_features chunk.info.features).2.2.mpr hnd
  refine ⟨fun fp cnt hl => ?_, fun f fp hl => ?_, fun fp => ?_⟩
  · rw [lookup_insertCachedChunk_cnt] at hl
    rw [refs_insertCachedChunk hnew]
    split at hl
    · rename_i hfp
      rw [if_pos hfp, hfp, hcard]
      cases hold : c.base2CntIdx.lookup chunk.info.fp with
      | none =>
          rw [hold] at hl
          cases hl
          rw [h.refs_eq_zero hold, Nat.zero_add]
          rfl
      | some old =>
          rw [hold] at hl
          cases hl
          have hcount := h.count _ _ hold
          subst hcount
          exact Nat.mod_eq_of_lt hroom
    · rename_i hfp
      rw [if_neg hfp]
      exact h.count fp cnt hl
  · rw [lookup_insertCachedChunk_feature] at hl
    rw [Index.mem_iff_lookup, lookup_insertCachedChunk_cnt]
    split
    · exact ⟨_, rfl⟩
    · rename_i hfp
      split at hl
      · exact absurd (Option.some.inj hl).symm hfp
      · exact Index.mem_iff_lookup.mp (h.counted f fp hl)
  · rw [Index.mem_iff_lookup, Index.mem_iff_lookup, lookup_insertCachedChunk_cnt,
      lookup_insertCachedChunk_data]
    by_cases hfp : fp = chunk.info.fp
    · subst hfp
      rw [if_pos rfl]
      refine ⟨fun _ => ⟨_, rfl⟩, fun _ => ?_⟩
      split
      · exact ⟨_, rfl⟩
      · rename_i hold
        refine Index.mem_iff_lookup.mp ((h.data _).mpr (Index.mem_iff_lookup.mpr ?_))
        exact Option.ne_none_iff_exists'.mp fun hn => hold ⟨rfl, hn⟩
    · rw [if_neg hfp, if_neg (fun hand => hfp hand.1), ← Index.mem_iff_lookup,
        ← Index.mem_iff_lookup]
      exact h.data fp

/-- An insertion that is not countable leaves a wrong count. -/
theorem Balanced.insert_needs (h : c.Balanced) {chunk : WrappedChunk}
    (hnew : ∀ f ∈ chunk.info.features.toList, c.localFeature2FpDb.lookup f = none)
    (he : (c.insertCachedChunk chunk).CountsExact) : c.Countable (.insertCachedChunk chunk) := by
  obtain ⟨hpos, hle, hnd⟩ := card_features chunk.info.features
  have hrefs := refs_insertCachedChunk hnew chunk.info.fp
  rw [if_pos rfl] at hrefs
  have hcount := fun cnt hcnt => (he.count chunk.info.fp cnt hcnt).trans hrefs
  rw [lookup_insertCachedChunk_cnt, if_pos rfl] at hcount
  rw [Countable, ← hnd]
  cases hold : c.base2CntIdx.lookup chunk.info.fp with
  | none =>
      rw [hold] at hcount
      have heq := hcount _ rfl
      rw [h.refs_eq_zero hold] at heq ⊢
      simp only [Option.map_none, Option.getD_none] at heq
      exact ⟨by omega, by decide⟩
  | some old =>
      rw [hold] at hcount
      have heq := hcount _ rfl
      have hold' := h.count _ _ hold
      simp only [Option.map_some, Option.getD_some, addCnt, superFeaturePerChunk] at heq hle ⊢
      omega

theorem Balanced.evictFeature (h : c.Balanced) {f : Feature} (he : c.evictFeature f = .ok c') :
    c'.Balanced := by
  obtain ⟨fp, cnt, hf, hcnt, rfl⟩ := evictFeature_cases he
  have hone := h.count fp cnt hcnt
  have hself := Index.refs_erase_self hf
  refine ⟨fun b n hl => ?_, fun g b hl => ?_, fun b => ?_⟩
  · rw [Index.lookup_insert_ite] at hl
    split at hl
    · rename_i hb
      subst hb
      cases hl
      show cnt - 1 = Index.refs (c.localFeature2FpDb.erase f) b
      omega
    · rename_i hb
      exact (h.count b n hl).trans (Index.refs_erase_of_ne hf hb).symm
  · rw [Index.lookup_erase_ite] at hl
    split at hl
    · exact nomatch hl
    · exact Finmap.mem_insert.mpr (Or.inr (h.counted g b hl))
  · refine (h.data b).trans ⟨fun hb => Finmap.mem_insert.mpr (Or.inr hb), fun hb => ?_⟩
    rcases Finmap.mem_insert.mp hb with rfl | hb
    · exact Index.mem_of_lookup hcnt
    · exact hb

theorem Balanced.evict (h : c.Balanced) {chunk : WrappedChunk}
    (he : c.evictCacheChunk chunk = .ok c') : c'.Balanced :=
  foldlM_inv Balanced (fun _ _ _ _ hb hf => hb.evictFeature hf) h he

theorem mem_deleteEvictChunk_cnt {fp : Fp} :
    fp ∈ c.deleteEvictChunk.base2CntIdx ↔ ∃ cnt, c.base2CntIdx.lookup fp = some cnt ∧ cnt ≠ 0 := by
  rw [Index.mem_iff_lookup, lookup_deleteEvictChunk_cnt]
  simp

theorem mem_deleteEvictChunk_data {fp : Fp} :
    fp ∈ c.deleteEvictChunk.base2DataDb ↔
      fp ∈ c.base2DataDb ∧ c.base2CntIdx.lookup fp ≠ some 0 := by
  rw [Index.mem_iff_lookup, lookup_deleteEvictChunk_data, Index.mem_iff_lookup]
  split
  · rename_i h0
    exact ⟨fun ⟨_, hd⟩ => (nomatch hd), fun ⟨_, hne⟩ => absurd h0 hne⟩
  · rename_i hne
    exact ⟨fun hd => ⟨hd, hne⟩, And.left⟩

theorem Balanced.delete (h : c.Balanced) : c.deleteEvictChunk.Balanced := by
  refine ⟨fun fp cnt hl => ?_, fun f fp hl => ?_, fun fp => ?_⟩
  · rw [lookup_deleteEvictChunk_cnt] at hl
    obtain ⟨hl, -⟩ := Option.filter_eq_some_iff.mp hl
    exact h.count fp cnt hl
  · obtain ⟨cnt, hcnt⟩ := Index.lookup_isSome_of_mem (h.counted f fp hl)
    refine mem_deleteEvictChunk_cnt.mpr ⟨cnt, hcnt, ?_⟩
    have hpos : 0 < c.localFeature2FpDb.refs fp := Index.refs_pos.mpr ⟨f, hl⟩
    rw [← h.count fp cnt hcnt] at hpos
    exact Nat.ne_of_gt hpos
  · rw [mem_deleteEvictChunk_cnt, mem_deleteEvictChunk_data, h.data fp, Index.mem_iff_lookup]
    constructor
    · rintro ⟨⟨cnt, hcnt⟩, hne⟩
      exact ⟨cnt, hcnt, fun h0 => hne (h0 ▸ hcnt)⟩
    · rintro ⟨cnt, hcnt, hne⟩
      refine ⟨⟨cnt, hcnt⟩, fun h0 => hne ?_⟩
      exact Option.some.inj (hcnt.symm.trans h0)

/-- No count is left without a feature, so that the loader reads both files. -/
theorem Balanced.reopen (h : c.Balanced) {cntOrder : List (Fp × Nat)}
    {idxOrder : List (Feature × Fp)} (hc : Index.Lists c.base2CntIdx cntOrder)
    (hi : Index.Lists c.localFeature2FpDb idxOrder) :
    (loadCntIdx (c.storeCntIdx cntOrder idxOrder)).Balanced := by
  rw [load_store hc hi]
  · exact h
  · intro h0
    refine Index.eq_empty_of_keys fun f hf => ?_
    obtain ⟨fp, hfp⟩ := Index.lookup_isSome_of_mem hf
    have hmem := h.counted f fp hfp
    rw [h0] at hmem
    exact Finmap.notMem_empty hmem

theorem Balanced.countsExact (h : c.Balanced) : c.CountsExact := by
  have hzero : ∀ fp, fp ∈ c.base2CntIdx →
      (c.base2CntIdx.lookup fp = some 0 ↔ c.localFeature2FpDb.refs fp = 0) := by
    intro fp hm
    obtain ⟨cnt, hcnt⟩ := Index.lookup_isSome_of_mem hm
    rw [hcnt, ← h.count fp cnt hcnt, Option.some.injEq]
  refine ⟨h.count, fun fp hm => ?_, fun fp hm => ?_, fun fp hm => ?_⟩
  · rw [← h.delete.data, mem_deleteEvictChunk_data, ← hzero fp hm, h.data]
    exact ⟨fun hn => Decidable.of_not_not fun h0 => hn ⟨hm, h0⟩, fun h0 hn => hn.2 h0⟩
  · rw [mem_deleteEvictChunk_data, ← hzero fp ((h.data fp).mp hm)]
    exact ⟨fun hn => Decidable.of_not_not fun h0 => hn ⟨hm, h0⟩, fun h0 hn => hn.2 h0⟩
  · obtain ⟨hd, hne⟩ := mem_deleteEvictChunk_data.mp hm
    exact Nat.pos_of_ne_zero fun h0 => hne ((hzero fp ((h.data fp).mp hd)).mpr h0)

/-! ## Runs -/

theorem balanced_step {a : CacheOp} (h : c.Balanced) (ha : c.Announced a) (hc : c.Countable a)
    (hs : c.step a = .ok c') : c'.Balanced := by
  cases a with
  | insertCachedChunk chunk => cases hs; exact h.insert ha hc
  | evictCacheChunk chunk => exact h.evict hs
  | deleteEvictChunk => cases hs; exact h.delete
  | reopen cntOrder idxOrder => cases hs; exact h.reopen ha.1 ha.2

theorem countable_of_step {a : CacheOp} (h : c.Balanced) (ha : c.Announced a)
    (he : c'.CountsExact) (hs : c.step a = .ok c') : c.Countable a := by
  cases a with
  | insertCachedChunk chunk => cases hs; exact h.insert_needs ha he
  | evictCacheChunk chunk => exact trivial
  | deleteEvictChunk => exact trivial
  | reopen cntOrder idxOrder => exact trivial

/-- In a run from a new cache that the client guarantees, the counts are exact
throughout if and only if every chunk inserted is countable. -/
theorem counts_exact_iff (ops : List CacheOp) {c : InformCache}
    (hg : Allowed step Announced (loadCntIdx .none) ops)
    (hrun : runSteps step (loadCntIdx .none) ops = .ok c) :
    (Allowed step (fun c _ => c.CountsExact) (loadCntIdx .none) ops ∧ c.CountsExact) ↔
      Allowed step Countable (loadCntIdx .none) ops :=
  allowed_iff Balanced CountsExact (fun _ h => h.countsExact)
    (fun _ _ _ h ha hc hs => balanced_step h ha hc hs)
    (fun _ _ _ h ha he hs => countable_of_step h ha he hs) balanced_new hg hrun

/-! ### Announced, evicted and deleted -/

/-- A base with these features, all of them evicted, and the end of the session. -/
def evictedBase (features : Features) : List CacheOp :=
  [.insertCachedChunk ⟨⟨[1], features, ⟨.uniqueChunk, [], 0, 0, []⟩, .cacheInsertChunk⟩, [8], []⟩,
    .evictCacheChunk ⟨⟨[], ⟨0, 0, 0⟩, ⟨.uniqueChunk, [], 0, 0, []⟩, .cacheEvictChunk⟩, [],
      features.toList.dedup⟩,
    .deleteEvictChunk]

def evictedBaseEnd (features : Features) : InformCache :=
  endOf step (loadCntIdx .none) (evictedBase features)

/-- With three features the base is gone. -/
theorem counts_exact_sample :
    (evictedBaseEnd ⟨5, 7, 9⟩).CountsExact ∧ (evictedBaseEnd ⟨5, 7, 9⟩).base2DataDb = ∅ := by
  refine ⟨?_, by decide +kernel⟩
  exact ((counts_exact_iff (evictedBase ⟨5, 7, 9⟩) (by decide +kernel)
    (runSteps_endOf (by decide +kernel))).mpr (by decide +kernel)).2

/-- With one feature twice it stays, and no feature names it. -/
theorem repeated_feature_leaks :
    Allowed step Announced (loadCntIdx .none) (evictedBase ⟨5, 5, 9⟩) ∧
    runSteps step (loadCntIdx .none) (evictedBase ⟨5, 5, 9⟩) = .ok (evictedBaseEnd ⟨5, 5, 9⟩) ∧
    (evictedBaseEnd ⟨5, 5, 9⟩).base2CntIdx.lookup [1] = some 1 ∧
    [1] ∈ (evictedBaseEnd ⟨5, 5, 9⟩).base2DataDb ∧
    (evictedBaseEnd ⟨5, 5, 9⟩).localFeature2FpDb = ∅ ∧
    ¬ (evictedBaseEnd ⟨5, 5, 9⟩).CountsExact := by
  have hcnt : (evictedBaseEnd ⟨5, 5, 9⟩).base2CntIdx.lookup [1] = some 1 := by decide +kernel
  have hidx : (evictedBaseEnd ⟨5, 5, 9⟩).localFeature2FpDb = ∅ := by decide +kernel
  refine ⟨by decide +kernel, runSteps_endOf (by decide +kernel), hcnt, by decide +kernel, hidx, ?_⟩
  intro h
  have hone := h.count [1] 1 hcnt
  rw [hidx, Index.refs_empty] at hone
  exact nomatch hone

end InformCache

end EDRStore
