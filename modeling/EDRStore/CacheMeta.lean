/-
# `EDRStore.CacheMeta` — the client's view of its server cache

`cache_meta.cc`: which features the server's inform cache holds for this
client, and in which upload each was last seen.  At the end of an upload the
features not seen in it are dropped here and sent for eviction; between uploads
the index is in a file.
-/
import EDRStore.Components
import EDRStore.Exit

namespace EDRStore

/-- `last_n_para_`. -/
def lastNPara : Nat := 1

structure CacheMeta where
  feature2VersionIdx : Index Feature Nat
  curVersionNum : Nat

/-- The cache meta file: the version and the entries in the order written. -/
structure MetaFile where
  curVersionNum : Nat
  entries : List (Feature × Nat)

namespace CacheMeta

/-- `CacheMeta::LoadCacheMeta`. -/
def loadCacheMeta : Option MetaFile → CacheMeta
  | none => { feature2VersionIdx := ∅, curVersionNum := 0 }
  | some file =>
      match file.entries with
      | [] => { feature2VersionIdx := ∅, curVersionNum := file.curVersionNum }
      | entries =>
          { feature2VersionIdx := Index.insertList ∅ entries
            curVersionNum := file.curVersionNum }

/-- The constructor: load, then the next version, in 32 bits. -/
def new (file : Option MetaFile) : CacheMeta :=
  let m := loadCacheMeta file
  { m with curVersionNum := (m.curVersionNum + 1) % 2 ^ 32 }

/-- `CacheMeta::StoreCacheMeta`, the index written in the order given. -/
def storeCacheMeta (m : CacheMeta) (order : List (Feature × Nat)) : MetaFile :=
  { curVersionNum := m.curVersionNum, entries := order }

/-- `CacheMeta::UpdateCacheMeta`. -/
def updateCacheMeta (m : CacheMeta) (features : Features) : CacheMeta :=
  { m with feature2VersionIdx := m.feature2VersionIdx.insertAll features.toList m.curVersionNum }

/-- `CacheMeta::QueryCacheMeta`: whether any feature is known; those that are
get the current version. -/
def queryCacheMeta (m : CacheMeta) (features : Features) : Bool × CacheMeta :=
  let known := features.toList.filter fun f => m.feature2VersionIdx.lookup f ≠ none
  (known ≠ [], { m with feature2VersionIdx := m.feature2VersionIdx.insertAll known m.curVersionNum })

/-- The test of `EvictFeature`, with the subtraction in 32 bits. -/
def aged (m : CacheMeta) (f : Feature) : Bool :=
  match m.feature2VersionIdx.lookup f with
  | some version => (m.curVersionNum + (2 ^ 32 - version % 2 ^ 32)) % 2 ^ 32 ≥ lastNPara
  | none => false

/-- The loop of `EvictFeature` finds nothing more. -/
def noneAged (m : CacheMeta) : Prop := ∀ f ∈ m.feature2VersionIdx.keys, m.aged f = false

-- over the keys: there are too many features to try them all
instance (m : CacheMeta) : Decidable m.noneAged := Finset.decidableDforallFinset

/-- `feature_2_version_idx_.erase(it)`. -/
def eraseFeature (m : CacheMeta) (f : Feature) : CacheMeta :=
  { m with feature2VersionIdx := m.feature2VersionIdx.erase f }

variable {m : CacheMeta}

theorem mem_updateCacheMeta {features : Features} {f : Feature} :
    f ∈ (m.updateCacheMeta features).feature2VersionIdx ↔
      f ∈ features.toList ∨ f ∈ m.feature2VersionIdx := Index.mem_insertAll

/-- A query enters no feature that was not known. -/
theorem mem_queryCacheMeta {features : Features} {f : Feature} :
    f ∈ (m.queryCacheMeta features).2.feature2VersionIdx ↔ f ∈ m.feature2VersionIdx := by
  unfold queryCacheMeta
  rw [Index.mem_insertAll]
  constructor
  · rintro (hf | hf)
    · have hne : m.feature2VersionIdx.lookup f ≠ none := by
        simpa using (List.mem_filter.mp hf).2
      exact Finmap.mem_iff.mpr (Option.ne_none_iff_exists'.mp hne)
    · exact hf
  · exact Or.inr

theorem queryCacheMeta_similar {features : Features} :
    (m.queryCacheMeta features).1 = true ↔ ∃ f ∈ features.toList, f ∈ m.feature2VersionIdx := by
  unfold queryCacheMeta
  simp only [decide_eq_true_eq]
  constructor
  · intro hne
    obtain ⟨f, hf⟩ := List.exists_mem_of_ne_nil _ hne
    obtain ⟨hf, hk⟩ := List.mem_filter.mp hf
    refine ⟨f, hf, Finmap.mem_iff.mpr (Option.ne_none_iff_exists'.mp ?_)⟩
    simpa using hk
  · rintro ⟨f, hf, hm⟩
    obtain ⟨v, hv⟩ := Index.lookup_isSome_of_mem hm
    exact List.ne_nil_of_mem (List.mem_filter.mpr ⟨hf, by simp [hv]⟩)

theorem mem_eraseFeature {f g : Feature} :
    g ∈ (m.eraseFeature f).feature2VersionIdx ↔ g ≠ f ∧ g ∈ m.feature2VersionIdx :=
  Finmap.mem_erase

theorem mem_of_aged {f : Feature} (h : m.aged f = true) : f ∈ m.feature2VersionIdx := by
  unfold aged at h
  split at h
  · rename_i version hv
    exact Index.mem_of_lookup hv
  · exact nomatch h

/-- Storing and loading gives the index back, in whatever order it was written. -/
theorem load_store {order : List (Feature × Nat)}
    (h : Index.Lists m.feature2VersionIdx order) :
    loadCacheMeta (some (m.storeCacheMeta order)) = m := by
  have hidx := Index.insertList_of_lists h
  cases order with
  | nil =>
      obtain ⟨idx, cur⟩ := m
      have hemp : idx = ∅ := hidx.symm
      subst hemp
      rfl
  | cons e order =>
      simp only [loadCacheMeta, storeCacheMeta, hidx]

end CacheMeta

end EDRStore
