/-
# `EDRStore.Reduction` — `SimilarPolicy` and `DedupDetect`

The two lookups every chunk goes through: which stored chunk is similar enough
to be its base (`FindBaseChunk`), and whether its fingerprint is already known
(`DetectDuplicate`).  `FindBaseChunk` exists twice in `similar_policy.cc`, over
a database and over a hash map; the two differ in how they look a feature up.
-/
import EDRStore.Exit
import Mathlib.Data.List.Sort

namespace EDRStore

/-! ## Choosing a base -/

/-- What the loop of `FindBaseChunk` has counted: `feature_freq_map` and
`first_match_base_fp`. -/
structure FeatureMatch where
  freqMap : List (Fp × Nat)
  firstMatchBaseFp : Option Fp
deriving DecidableEq

namespace SimilarPolicy

def noMatch : FeatureMatch := { freqMap := [], firstMatchBaseFp := none }

/-- `feature_freq_map[fp]++`, or `= 1` for a new key. -/
def bump (fp : Fp) : List (Fp × Nat) → List (Fp × Nat)
  | [] => [(fp, 1)]
  | e :: l => if e.1 = fp then (e.1, e.2 + 1) :: l else e :: bump fp l

/-- One turn of the loop, with the answer of the feature index. -/
def countFeature (m : FeatureMatch) : Option Fp → FeatureMatch
  | none => m
  | some fp =>
      { freqMap := bump fp m.freqMap
        firstMatchBaseFp := some (m.firstMatchBaseFp.getD fp) }

/-- `CmpPair`: decreasing frequency. -/
def cmpPair (a b : Fp × Nat) : Prop := a.2 ≥ b.2

instance : DecidableRel cmpPair := fun a b => inferInstanceAs (Decidable (a.2 ≥ b.2))

/-- The end of `FindBaseChunk`: the most frequent base, or the first one matched
when none occurs twice. -/
def chooseBase (m : FeatureMatch) (info : ChunkInfo) : ChunkInfo :=
  match m.firstMatchBaseFp, m.freqMap.insertionSort cmpPair with
  | some first, top :: _ =>
      { info with
        addr := { info.addr with baseFp := if top.2 = 1 then first else top.1 }
        stat := .similarChunk }
  | _, _ => { info with stat := .nonSimilarChunk }

/-- `SimilarPolicy::FindBaseChunk`, over any way of looking a feature up. -/
def findBaseChunk (query : Feature → Option Fp) (info : ChunkInfo) : ChunkInfo :=
  chooseBase ((info.features.toList.map query).foldl countFeature noMatch) info

/-- The overload over `AbsDatabase`.  Its keys are the eight bytes of a feature; these
and the feature determine each other (`toLe_feature_inj`), so the database is kept by
features here, as the hash map is, and `findBaseDb_findBaseChunkDb` says that one that is
kept by bytes answers the same. -/
def findBaseChunkDb (feature2FpDb : Index Feature Fp) (info : ChunkInfo) : ChunkInfo :=
  findBaseChunk feature2FpDb.lookup info

/-- The overload over `unordered_map`. -/
def findBaseChunkMap (feature2FpDb : Index Feature Fp) (info : ChunkInfo) : ChunkInfo :=
  findBaseChunk feature2FpDb.lookup info

/-- `SimilarPolicy::UpdateFeatureIndex`. -/
def updateFeatureIndex (feature2FpDb : Index Feature Fp) (features : Features) (baseFp : Fp) :
    Index Feature Fp :=
  feature2FpDb.insertAll features.toList baseFp

/-! ## What is chosen -/

/-- The loop has matched nothing, or `freqMap` and the first match name only
bases among the answers `bs`. -/
structure Counted (bs : List Fp) (m : FeatureMatch) : Prop where
  none_iff : m.firstMatchBaseFp = none ↔ m.freqMap = []
  first : ∀ {fp}, m.firstMatchBaseFp = some fp → fp ∈ bs
  freq : ∀ {e}, e ∈ m.freqMap → e.1 ∈ bs

theorem counted_noMatch (bs : List Fp) : Counted bs noMatch where
  none_iff := ⟨fun _ => rfl, fun _ => rfl⟩
  first := fun h => nomatch h
  freq := fun h => absurd h List.not_mem_nil

theorem Counted.weaken {bs bs' : List Fp} {m : FeatureMatch} (h : Counted bs m)
    (hsub : ∀ b ∈ bs, b ∈ bs') : Counted bs' m where
  none_iff := h.none_iff
  first := fun hf => hsub _ (h.first hf)
  freq := fun he => hsub _ (h.freq he)

theorem mem_bump {fp : Fp} {l : List (Fp × Nat)} {e : Fp × Nat} (h : e ∈ bump fp l) :
    e.1 = fp ∨ ∃ e' ∈ l, e'.1 = e.1 := by
  induction l with
  | nil =>
      cases List.mem_singleton.mp h
      exact Or.inl rfl
  | cons a l ih =>
      simp only [bump] at h
      split at h
      · rename_i ha
        rcases List.mem_cons.mp h with rfl | h
        · exact Or.inl ha
        · exact Or.inr ⟨e, List.mem_cons_of_mem _ h, rfl⟩
      · rcases List.mem_cons.mp h with rfl | h
        · exact Or.inr ⟨e, List.mem_cons_self, rfl⟩
        · rcases ih h with h | ⟨e', he', heq⟩
          · exact Or.inl h
          · exact Or.inr ⟨e', List.mem_cons_of_mem _ he', heq⟩

theorem bump_ne_nil (fp : Fp) (l : List (Fp × Nat)) : bump fp l ≠ [] := by
  cases l with
  | nil => exact List.cons_ne_nil _ _
  | cons a l =>
      simp only [bump]
      split <;> exact List.cons_ne_nil _ _

theorem Counted.count {bs : List Fp} {m : FeatureMatch} (h : Counted bs m) {a : Option Fp}
    (ha : ∀ {fp}, a = some fp → fp ∈ bs) : Counted bs (countFeature m a) := by
  cases a with
  | none => exact h
  | some fp =>
      refine ⟨⟨(fun hn => nomatch hn), fun hn => absurd hn (bump_ne_nil _ _)⟩, ?_, ?_⟩
      · intro fp' hfp'
        cases hfp'
        cases hm : m.firstMatchBaseFp with
        | none => exact ha rfl
        | some first => exact h.first hm
      · intro e he
        rcases mem_bump he with heq | ⟨e', he', heq⟩
        · exact heq ▸ ha rfl
        · exact heq ▸ h.freq he'

theorem firstMatch_countFeature {m : FeatureMatch} {a : Option Fp} :
    (countFeature m a).firstMatchBaseFp = none ↔ m.firstMatchBaseFp = none ∧ a = none := by
  cases a with
  | none => simp [countFeature]
  | some fp => simp [countFeature]

/-- Every answer counted is among the answers. -/
theorem counted_foldl {bs : List Fp} (as : List (Option Fp)) :
    ∀ {m : FeatureMatch}, Counted bs m → (∀ fp, some fp ∈ as → fp ∈ bs) →
      Counted bs (as.foldl countFeature m) := by
  induction as with
  | nil => intro m h _; exact h
  | cons a as ih =>
      intro m h has
      refine ih (h.count ?_) (fun fp hfp => has fp (List.mem_cons_of_mem _ hfp))
      rintro fp rfl
      exact has fp List.mem_cons_self

theorem firstMatch_foldl (as : List (Option Fp)) :
    ∀ m : FeatureMatch, (as.foldl countFeature m).firstMatchBaseFp = none ↔
      m.firstMatchBaseFp = none ∧ ∀ a ∈ as, a = none := by
  induction as with
  | nil => intro m; simp
  | cons a as ih =>
      intro m
      rw [List.foldl_cons, ih, firstMatch_countFeature]
      simp [and_assoc]

/-- The chunk that is not similar to anything keeps all but its status. -/
theorem chooseBase_none {m : FeatureMatch} (h : m.firstMatchBaseFp = none) (info : ChunkInfo) :
    chooseBase m info = { info with stat := .nonSimilarChunk } := by
  simp only [chooseBase, h]

@[simp] theorem chooseBase_fp (m : FeatureMatch) (info : ChunkInfo) :
    (chooseBase m info).fp = info.fp := by
  unfold chooseBase
  split <;> rfl

@[simp] theorem chooseBase_features (m : FeatureMatch) (info : ChunkInfo) :
    (chooseBase m info).features = info.features := by
  unfold chooseBase
  split <;> rfl

/-- The base chosen is one of the bases counted. -/
theorem chooseBase_some {bs : List Fp} {m : FeatureMatch} (hm : Counted bs m) {first : Fp}
    (h : m.firstMatchBaseFp = some first) (info : ChunkInfo) :
    ∃ base ∈ bs, chooseBase m info =
      { info with addr := { info.addr with baseFp := base }, stat := .similarChunk } := by
  have hne : m.freqMap ≠ [] := by
    intro hnil
    rw [hm.none_iff.mpr hnil] at h
    exact nomatch h
  cases hs : m.freqMap.insertionSort cmpPair with
  | nil =>
      have := List.perm_insertionSort cmpPair m.freqMap
      rw [hs] at this
      exact absurd this.nil_eq.symm hne
  | cons top rest =>
      have htop : top ∈ m.freqMap := by
        have : top ∈ m.freqMap.insertionSort cmpPair := by rw [hs]; exact List.mem_cons_self
        exact (List.mem_insertionSort cmpPair).mp this
      refine ⟨if top.2 = 1 then first else top.1, ?_, ?_⟩
      · split
        · exact hm.first h
        · exact hm.freq htop
      · simp only [chooseBase, h, hs]

/-- The verdict of `FindBaseChunk`. -/
inductive Verdict (query : Feature → Option Fp) (info : ChunkInfo) : ChunkInfo → Prop
  /-- No feature is mapped. -/
  | nonSimilar (h : ∀ f ∈ info.features.toList, query f = none) :
      Verdict query info { info with stat := .nonSimilarChunk }
  /-- Some feature is mapped to the base. -/
  | similar (f : Feature) (base : Fp) (hf : f ∈ info.features.toList) (hb : query f = some base) :
      Verdict query info
        { info with addr := { info.addr with baseFp := base }, stat := .similarChunk }

theorem findBaseChunk_verdict (query : Feature → Option Fp) (info : ChunkInfo) :
    Verdict query info (findBaseChunk query info) := by
  have hc : Counted (info.features.toList.filterMap query)
      ((info.features.toList.map query).foldl countFeature noMatch) := by
    refine counted_foldl _ (counted_noMatch _) ?_
    intro fp hfp
    obtain ⟨f, hf, hq⟩ := List.mem_map.mp hfp
    exact List.mem_filterMap.mpr ⟨f, hf, hq⟩
  cases h : ((info.features.toList.map query).foldl countFeature noMatch).firstMatchBaseFp with
  | none =>
      rw [findBaseChunk, chooseBase_none h]
      refine Verdict.nonSimilar ?_
      intro f hf
      exact ((firstMatch_foldl _ _).mp h).2 _ (List.mem_map.mpr ⟨f, hf, rfl⟩)
  | some first =>
      obtain ⟨base, hbase, heq⟩ := chooseBase_some hc h info
      obtain ⟨f, hf, hq⟩ := List.mem_filterMap.mp hbase
      rw [findBaseChunk, heq]
      exact Verdict.similar f base hf hq

/-- A chunk is similar exactly when one of its features is mapped. -/
theorem findBaseChunk_similar_iff {query : Feature → Option Fp} {info : ChunkInfo} :
    (findBaseChunk query info).stat = .similarChunk ↔
      ∃ f ∈ info.features.toList, ∃ base, query f = some base := by
  generalize hr : findBaseChunk query info = r
  have hv : Verdict query info r := hr ▸ findBaseChunk_verdict query info
  cases hv with
  | nonSimilar h =>
      simp only [reduceCtorEq, false_iff]
      rintro ⟨f, hf, base, hb⟩
      rw [h f hf] at hb
      exact nomatch hb
  | similar f base hf hb => exact ⟨fun _ => ⟨f, hf, base, hb⟩, fun _ => rfl⟩

end SimilarPolicy

/-! ## Finding duplicates -/

namespace DedupDetect

/-- `DedupDetect::DetectDuplicate`: an unknown fingerprint is entered with
whatever address the chunk carries, to be replaced by the writer. -/
def detectDuplicate (fp2AddrDb : Index Fp KeyForChunkHashDB) (info : ChunkInfo) :
    ChunkInfo × Index Fp KeyForChunkHashDB :=
  match fp2AddrDb.lookup info.fp with
  | none => ({ info with stat := .uniqueChunk }, fp2AddrDb.insert info.fp info.addr)
  | some _ => ({ info with stat := .duplicateChunk }, fp2AddrDb)

theorem detectDuplicate_unique {fp2AddrDb : Index Fp KeyForChunkHashDB} {info : ChunkInfo}
    (h : info.fp ∉ fp2AddrDb) : detectDuplicate fp2AddrDb info =
      ({ info with stat := .uniqueChunk }, fp2AddrDb.insert info.fp info.addr) := by
  rw [detectDuplicate, Finmap.lookup_eq_none.mpr h]

theorem detectDuplicate_duplicate {fp2AddrDb : Index Fp KeyForChunkHashDB} {info : ChunkInfo}
    (h : info.fp ∈ fp2AddrDb) : detectDuplicate fp2AddrDb info =
      ({ info with stat := .duplicateChunk }, fp2AddrDb) := by
  obtain ⟨a, ha⟩ := Index.lookup_isSome_of_mem h
  rw [detectDuplicate, ha]

end DedupDetect

end EDRStore
