/-
# `EDRStore.BaseChoice` — the base a chunk gets does not depend on hash order

`FindBaseChunk` copies a hash map into a vector, in whatever order the map
iterates, and sorts the vector with a sort that is not stable:

    answers      b₁  b₂  b₁          freq map   {b₂ ↦ 1, b₁ ↦ 2}
    sorted       (b₁, 2) (b₂, 1)     base       b₁

With three answers it makes no difference.  Two bases that occur twice each
would need four, so that the head of the vector is settled when it counts, and
when no base occurs twice the base is the first that was matched.
-/
import EDRStore.Lib.Bytes
import EDRStore.Reduction

namespace EDRStore

namespace SimilarPolicy

/-- The answers of the feature index, in loop order. -/
def answers (query : Feature → Option Fp) (info : ChunkInfo) : List (Option Fp) :=
  info.features.toList.map query

/-- What the loop of `FindBaseChunk` has counted at its end. -/
def matched (query : Feature → Option Fp) (info : ChunkInfo) : FeatureMatch :=
  (answers query info).foldl countFeature noMatch

/-- What follows the sort. -/
def pickBase (firstMatchBaseFp : Option Fp) (tmpFreqVec : List (Fp × Nat)) (info : ChunkInfo) :
    ChunkInfo :=
  match firstMatchBaseFp, tmpFreqVec with
  | some first, top :: _ =>
      { info with
        addr := { info.addr with baseFp := if top.2 = 1 then first else top.1 }
        stat := .similarChunk }
  | _, _ => { info with stat := .nonSimilarChunk }

/-- What `FindBaseChunk` can come to: the map is copied out in any order, and
`sort` leaves the pairs in any order that `CmpPair` allows. -/
inductive FindBase (query : Feature → Option Fp) (info : ChunkInfo) : ChunkInfo → Prop
  | intro (tmpFreqVec sorted : List (Fp × Nat))
      (hcopy : tmpFreqVec.Perm (matched query info).freqMap)
      (hsort : sorted.Perm tmpFreqVec) (hord : sorted.Pairwise cmpPair) :
      FindBase query info (pickBase (matched query info).firstMatchBaseFp sorted info)

/-- `QueryBuffer` with the eight bytes of a feature. -/
def queryBuffer (feature2FpDb : Index Bytes Fp) (f : Feature) : Option Fp :=
  feature2FpDb.lookup (toLe 8 f.toNat)

/-- `UpdateFeatureIndex` over `AbsDatabase`. -/
def updateFeatureIndexDb (feature2FpDb : Index Bytes Fp) (features : Features) (baseFp : Fp) :
    Index Bytes Fp :=
  feature2FpDb.insertAll (features.toList.map fun f => toLe 8 f.toNat) baseFp

/-- The overload over `AbsDatabase`. -/
def FindBaseDb (feature2FpDb : Index Bytes Fp) : ChunkInfo → ChunkInfo → Prop :=
  FindBase (queryBuffer feature2FpDb)

/-- The overload over `unordered_map`. -/
def FindBaseMap (feature2FpDb : Index Feature Fp) : ChunkInfo → ChunkInfo → Prop :=
  FindBase feature2FpDb.lookup

/-! ## What the loop counts -/

/-- How often the list says `fp` occurs. -/
def freqOf (fp : Fp) : List (Fp × Nat) → Nat
  | [] => 0
  | e :: l => if e.1 = fp then e.2 else freqOf fp l

theorem freqOf_bump (fp g : Fp) (l : List (Fp × Nat)) :
    freqOf g (bump fp l) = freqOf g l + if g = fp then 1 else 0 := by
  induction l with
  | nil =>
      simp only [bump, freqOf, Nat.zero_add]
      by_cases h : fp = g
      · rw [if_pos h, if_pos h.symm]
      · rw [if_neg h, if_neg (Ne.symm h)]
  | cons e l ih =>
      simp only [bump]
      split
      · rename_i he
        simp only [freqOf]
        by_cases h : e.1 = g
        · rw [if_pos h, if_pos h, if_pos (h.symm.trans he)]
        · rw [if_neg h, if_neg h, if_neg (fun hg => h (he.trans hg.symm)), Nat.add_zero]
      · rename_i he
        simp only [freqOf]
        by_cases h : e.1 = g
        · rw [if_pos h, if_pos h, if_neg (fun hg => he (h.trans hg)), Nat.add_zero]
        · rw [if_neg h, if_neg h, ih]

/-- The keys of a bumped list. -/
theorem mem_keys_bump {fp g : Fp} {l : List (Fp × Nat)} :
    g ∈ (bump fp l).map Prod.fst ↔ g = fp ∨ g ∈ l.map Prod.fst := by
  induction l with
  | nil => simp [bump]
  | cons e l ih =>
      simp only [bump]
      split
      · rename_i he
        simp only [List.map_cons, List.mem_cons, he]
        exact ⟨Or.inr, fun h => h.elim Or.inl id⟩
      · simp only [List.map_cons, List.mem_cons, ih]
        tauto

theorem nodup_bump (fp : Fp) {l : List (Fp × Nat)} (h : (l.map Prod.fst).Nodup) :
    ((bump fp l).map Prod.fst).Nodup := by
  induction l with
  | nil => exact List.nodup_singleton _
  | cons e l ih =>
      simp only [List.map_cons, List.nodup_cons] at h
      simp only [bump]
      split
      · exact List.nodup_cons.mpr h
      · rename_i he
        refine List.nodup_cons.mpr ⟨fun hm => ?_, ih h.2⟩
        rcases mem_keys_bump.mp hm with heq | hm
        · exact he heq
        · exact h.1 hm

theorem freqOf_of_mem {l : List (Fp × Nat)} (h : (l.map Prod.fst).Nodup) {e : Fp × Nat}
    (he : e ∈ l) : freqOf e.1 l = e.2 := by
  induction l with
  | nil => exact absurd he List.not_mem_nil
  | cons a l ih =>
      simp only [List.map_cons, List.nodup_cons] at h
      simp only [freqOf]
      rcases List.mem_cons.mp he with rfl | he
      · rw [if_pos rfl]
      · rw [if_neg (fun ha => h.1 (List.mem_map.mpr ⟨e, he, ha.symm⟩)), ih h.2 he]

theorem mem_of_freqOf {l : List (Fp × Nat)} {fp : Fp} (h : freqOf fp l ≠ 0) :
    (fp, freqOf fp l) ∈ l := by
  induction l with
  | nil => exact absurd rfl h
  | cons e l ih =>
      simp only [freqOf] at h ⊢
      split at h
      · rename_i he
        subst he
        rw [if_pos rfl]
        exact List.mem_cons_self
      · rename_i he
        rw [if_neg he]
        exact List.mem_cons_of_mem _ (ih h)

/-- The map counts the answers, each base under one key. -/
structure Freq (as : List (Option Fp)) (m : FeatureMatch) : Prop where
  nodup : (m.freqMap.map Prod.fst).Nodup
  count : ∀ fp, freqOf fp m.freqMap = as.count (some fp)
  pos : ∀ e ∈ m.freqMap, e.2 ≠ 0
  first : m.firstMatchBaseFp = as.findSome? id

theorem freq_noMatch : Freq [] noMatch where
  nodup := List.nodup_nil
  count := fun _ => rfl
  pos := fun _ he => absurd he List.not_mem_nil
  first := rfl

theorem Freq.countFeature {as : List (Option Fp)} {m : FeatureMatch} (h : Freq as m)
    (a : Option Fp) : Freq (as ++ [a]) (countFeature m a) := by
  cases a with
  | none =>
      refine ⟨h.nodup, fun fp => ?_, h.pos, ?_⟩
      · rw [List.count_append, ← h.count fp]
        rfl
      · rw [List.findSome?_append, ← h.first]
        exact (Option.or_none).symm
  | some b =>
      refine ⟨nodup_bump b h.nodup, fun fp => ?_, fun e he => ?_, ?_⟩
      · rw [List.count_append, ← h.count fp]
        refine (freqOf_bump b fp m.freqMap).trans ?_
        rw [List.count_singleton]
        by_cases hb : fp = b
        · simp [hb]
        · simp [hb, Ne.symm hb]
      · have hnd := nodup_bump b h.nodup
        rw [← freqOf_of_mem hnd he, freqOf_bump]
        rcases mem_bump he with hb | ⟨e', he', heq⟩
        · rw [if_pos hb]
          exact Nat.succ_ne_zero _
        · rw [← heq, freqOf_of_mem h.nodup he']
          have := h.pos e' he'
          omega
      · rw [List.findSome?_append, ← h.first]
        simp only [SimilarPolicy.countFeature]
        cases m.firstMatchBaseFp <;> rfl

theorem freq_foldl (bs : List (Option Fp)) : ∀ {as : List (Option Fp)} {m : FeatureMatch},
    Freq as m → Freq (as ++ bs) (bs.foldl countFeature m) := by
  induction bs with
  | nil => intro as m h; rw [List.append_nil]; exact h
  | cons b bs ih =>
      intro as m h
      have := ih (h.countFeature b)
      rwa [List.append_assoc] at this

theorem freq_matched (query : Feature → Option Fp) (info : ChunkInfo) :
    Freq (answers query info) (matched query info) :=
  freq_foldl (answers query info) freq_noMatch

/-! ## What is chosen -/

/-- The verdict and the base that the features determine. -/
structure CanonicalBase (query : Feature → Option Fp) (info r : ChunkInfo) : Prop where
  nonSimilar : r.stat = .nonSimilarChunk ↔ ∀ f ∈ info.features.toList, query f = none
  similar : r.stat = .similarChunk ↔ ∃ f ∈ info.features.toList, query f ≠ none
  /-- Two of the features agree. -/
  majority : ∀ b, 2 ≤ (answers query info).count (some b) → r.addr.baseFp = b
  /-- No two of them do. -/
  first : (∀ b, (answers query info).count (some b) < 2) →
    ∀ b, (answers query info).findSome? id = some b → r.addr.baseFp = b
  unmapped : (∀ f ∈ info.features.toList, query f = none) → r.addr.baseFp = info.addr.baseFp
  frame : r = { info with addr := { info.addr with baseFp := r.addr.baseFp }, stat := r.stat }

variable {query : Feature → Option Fp} {info r : ChunkInfo}

/-- At most one base is the answer for two of three features. -/
theorem majority_unique {b c : Fp} (hb : 2 ≤ (answers query info).count (some b))
    (hmax : (answers query info).count (some b) ≤ (answers query info).count (some c)) :
    c = b := by
  by_contra hne
  have hlen : (answers query info).length = 3 := by
    rw [answers, List.length_map, Features.length_toList]
    rfl
  have hsum := List.length_eq_countP_add_countP (· == some b) (l := answers query info)
  have hle : (answers query info).count (some c) ≤
      (answers query info).countP (fun a => ¬ (a == some b)) := by
    refine List.countP_mono_left fun a _ ha => ?_
    have hac : a = some c := by simpa using ha
    simp [hac, hne]
  rw [hlen] at hsum
  unfold List.count at hb hmax hle
  omega

/-- The head of the sorted vector is a most frequent base, with its frequency. -/
theorem head_most_frequent {sorted rest : List (Fp × Nat)} {top : Fp × Nat}
    (hperm : sorted.Perm (matched query info).freqMap) (hord : sorted.Pairwise cmpPair)
    (hs : sorted = top :: rest) :
    top.2 = (answers query info).count (some top.1) ∧ top.2 ≠ 0 ∧
      ∀ b, (answers query info).count (some b) ≤ top.2 := by
  have hf := freq_matched query info
  have htop : top ∈ (matched query info).freqMap :=
    hperm.mem_iff.mp (hs ▸ List.mem_cons_self)
  refine ⟨?_, hf.pos top htop, fun b => ?_⟩
  · rw [← hf.count, freqOf_of_mem hf.nodup htop]
  · rcases Nat.eq_zero_or_pos ((answers query info).count (some b)) with h0 | hpos
    · rw [h0]
      exact Nat.zero_le _
    · rw [← hf.count] at hpos ⊢
      have hb := hperm.mem_iff.mpr (mem_of_freqOf (Nat.ne_of_gt hpos))
      rw [hs] at hb hord
      rcases List.mem_cons.mp hb with heq | hb
      · rw [← heq]
      · exact (List.pairwise_cons.mp hord).1 _ hb

theorem findBase_canonical (h : FindBase query info r) : CanonicalBase query info r := by
  obtain ⟨tmpFreqVec, sorted, hcopy, hsort, hord⟩ := h
  have hf := freq_matched query info
  have hperm := hsort.trans hcopy
  cases hfirst : (matched query info).firstMatchBaseFp with
  | none =>
      have hnone : ∀ f ∈ info.features.toList, query f = none := by
        intro f hmem
        have hall := List.findSome?_eq_none_iff.mp (hf.first ▸ hfirst)
        exact hall (query f) (List.mem_map.mpr ⟨f, hmem, rfl⟩)
      have hno : ∀ b, (answers query info).count (some b) = 0 := by
        intro b
        refine List.count_eq_zero.mpr fun hm => ?_
        obtain ⟨f, hmem, hq⟩ := List.mem_map.mp hm
        exact nomatch (hnone f hmem).symm.trans hq
      refine ⟨⟨fun _ => hnone, fun _ => rfl⟩, ⟨(nomatch ·), ?_⟩, fun b hb => ?_, fun _ b hb => ?_,
        fun _ => rfl, rfl⟩
      · rintro ⟨f, hmem, hne⟩
        exact absurd (hnone f hmem) hne
      · rw [hno b] at hb
        exact nomatch hb
      · rw [← hf.first, hfirst] at hb
        exact nomatch hb
  | some first =>
      have hfind : (answers query info).findSome? id = some first := hf.first ▸ hfirst
      obtain ⟨a, ha, hfa⟩ := List.exists_of_findSome?_eq_some hfind
      obtain rfl : a = some first := hfa
      obtain ⟨f, hmem, hq⟩ := List.mem_map.mp ha
      have hcount : freqOf first (matched query info).freqMap ≠ 0 := by
        rw [hf.count]
        exact Nat.ne_of_gt (List.count_pos_iff.mpr ha)
      cases hs : sorted with
      | nil =>
          have hin := hperm.mem_iff.mpr (mem_of_freqOf hcount)
          rw [hs] at hin
          exact absurd hin List.not_mem_nil
      | cons top rest =>
          obtain ⟨htop, hpos, hmax⟩ := head_most_frequent hperm hord hs
          have hsome : query f ≠ none := by
            rw [hq]
            exact nofun
          refine ⟨⟨(nomatch ·), fun hall => absurd (hall f hmem) hsome⟩,
            ⟨fun _ => ⟨f, hmem, hsome⟩, fun _ => rfl⟩, fun b hb => ?_, fun hlt b hb => ?_,
            fun hall => absurd (hall f hmem) hsome, rfl⟩
          · have hone : top.2 ≠ 1 := by
              have := hmax b
              omega
            show (if top.2 = 1 then first else top.1) = b
            rw [if_neg hone]
            exact majority_unique hb (htop ▸ hmax b)
          · have hone : top.2 = 1 := by
              have := hlt top.1
              omega
            show (if top.2 = 1 then first else top.1) = b
            rw [if_pos hone]
            exact Option.some.inj (hfind.symm.trans hb)

/-- The features leave no choice. -/
theorem CanonicalBase.unique {r' : ChunkInfo} (h : CanonicalBase query info r)
    (h' : CanonicalBase query info r') : r = r' := by
  have hboth : r.stat = r'.stat ∧ r.addr.baseFp = r'.addr.baseFp := by
    by_cases hall : ∀ f ∈ info.features.toList, query f = none
    · exact ⟨(h.nonSimilar.mpr hall).trans (h'.nonSimilar.mpr hall).symm,
        (h.unmapped hall).trans (h'.unmapped hall).symm⟩
    · have hsome : ∃ f ∈ info.features.toList, query f ≠ none := by
        simpa using hall
      refine ⟨(h.similar.mpr hsome).trans (h'.similar.mpr hsome).symm, ?_⟩
      by_cases htwo : ∃ b, 2 ≤ (answers query info).count (some b)
      · obtain ⟨b, hb⟩ := htwo
        rw [h.majority b hb, h'.majority b hb]
      · have hlt : ∀ b, (answers query info).count (some b) < 2 :=
          fun b => Nat.lt_of_not_le fun hb => htwo ⟨b, hb⟩
        obtain ⟨f, hf, hne⟩ := hsome
        cases hfind : (answers query info).findSome? id with
        | none =>
            refine absurd ?_ hne
            exact List.findSome?_eq_none_iff.mp hfind (query f) (List.mem_map.mpr ⟨f, hf, rfl⟩)
        | some b => rw [h.first hlt b hfind, h'.first hlt b hfind]
  rw [h.frame, h'.frame, hboth.1, hboth.2]

instance : Std.Total cmpPair := ⟨fun a b => Nat.le_total b.2 a.2⟩

instance : IsTrans (Fp × Nat) cmpPair := ⟨fun _ _ _ hab hbc => Nat.le_trans hbc hab⟩

/-- The function comes to one of the allowed results. -/
theorem findBaseChunk_findBase (query : Feature → Option Fp) (info : ChunkInfo) :
    FindBase query info (findBaseChunk query info) :=
  FindBase.intro _ _ (List.Perm.refl _) (List.perm_insertionSort cmpPair _)
    (List.pairwise_insertionSort cmpPair _)

/-- Over a database with its keys as bytes, the function comes to what it does over the
features. -/
theorem findBaseDb_findBaseChunkDb {db : Index Bytes Fp} {idx : Index Feature Fp}
    (hsame : ∀ f, queryBuffer db f = idx.lookup f) (info : ChunkInfo) :
    FindBaseDb db info (findBaseChunkDb idx info) := by
  have hq : queryBuffer db = idx.lookup := funext hsame
  rw [FindBaseDb, hq]
  exact findBaseChunk_findBase _ _

/-- Over the same mapping both overloads come to one result, the one that the
features determine. -/
theorem base_choice_canonical {db : Index Bytes Fp} {idx : Index Feature Fp}
    (hsame : ∀ f, queryBuffer db f = idx.lookup f) {info r r' : ChunkInfo}
    (h : FindBaseDb db info r) (h' : FindBaseMap idx info r') :
    r = r' ∧ r = findBaseChunk idx.lookup info ∧ CanonicalBase idx.lookup info r := by
  have hq : queryBuffer db = idx.lookup := funext hsame
  have hfind := findBaseDb_findBaseChunkDb hsame info
  rw [FindBaseDb, hq] at h hfind
  have hc := findBase_canonical h
  exact ⟨hc.unique (findBase_canonical h'), hc.unique (findBase_canonical hfind), hc⟩

theorem toLe_feature_inj {f g : Feature} (h : toLe 8 f.toNat = toLe 8 g.toNat) : f = g := by
  have hval := congrArg ofLe h
  rw [ofLe_toLe_of_lt (UInt64.toNat_lt f), ofLe_toLe_of_lt (UInt64.toNat_lt g)] at hval
  exact UInt64.toNat_inj.mp hval

/-- The two indexes stay the same mapping when both are updated. -/
theorem queryBuffer_updateFeatureIndexDb (db : Index Bytes Fp) (idx : Index Feature Fp)
    (hsame : ∀ f, queryBuffer db f = idx.lookup f) (features : Features) (baseFp : Fp)
    (f : Feature) : queryBuffer (updateFeatureIndexDb db features baseFp) f =
      (updateFeatureIndex idx features baseFp).lookup f := by
  have hmem : toLe 8 f.toNat ∈ features.toList.map (fun f => toLe 8 f.toNat) ↔
      f ∈ features.toList := by
    rw [List.mem_map]
    exact ⟨fun ⟨g, hg, heq⟩ => toLe_feature_inj heq ▸ hg, fun hf => ⟨f, hf, rfl⟩⟩
  rw [queryBuffer, updateFeatureIndexDb, updateFeatureIndex, Index.lookup_insertAll,
    Index.lookup_insertAll, ← hsame, queryBuffer]
  simp only [hmem]

/-- Two bases, in a database and in a hash map. -/
def twoBasesDb : Index Bytes Fp :=
  updateFeatureIndexDb (updateFeatureIndexDb ∅ ⟨7, 7, 7⟩ [1]) ⟨8, 9, 9⟩ [2]

def twoBases : Index Feature Fp :=
  updateFeatureIndex (updateFeatureIndex ∅ ⟨7, 7, 7⟩ [1]) ⟨8, 9, 9⟩ [2]

/-- A chunk with a feature of the first base and two of the second. -/
def twoToOne : ChunkInfo := ⟨[3], ⟨7, 8, 9⟩, ⟨.uniqueChunk, [], 0, 0, []⟩, .uniqueChunk⟩

/-- The database gives the vector in one order, the hash map in the other. -/
theorem base_choice_sample :
    ∃ r, FindBaseDb twoBasesDb twoToOne r ∧ FindBaseMap twoBases twoToOne r ∧
      r.stat = .similarChunk ∧ r.addr.baseFp = [2] := by
  have hsame : ∀ f, queryBuffer twoBasesDb f = twoBases.lookup f :=
    queryBuffer_updateFeatureIndexDb _ _
      (queryBuffer_updateFeatureIndexDb ∅ ∅ (fun _ => rfl) ⟨7, 7, 7⟩ [1]) ⟨8, 9, 9⟩ [2]
  have hdb : FindBaseDb twoBasesDb twoToOne _ :=
    FindBase.intro [([2], 2), ([1], 1)] [([2], 2), ([1], 1)] (by decide +kernel) (List.Perm.refl _)
      (by decide)
  have hmap : FindBaseMap twoBases twoToOne _ :=
    FindBase.intro [([1], 1), ([2], 2)] [([2], 2), ([1], 1)] (by decide +kernel) (by decide)
      (by decide)
  have heq := (base_choice_canonical hsame hdb hmap).1
  exact ⟨_, hdb, heq ▸ hmap, by decide +kernel, by decide +kernel⟩

end SimilarPolicy

end EDRStore
