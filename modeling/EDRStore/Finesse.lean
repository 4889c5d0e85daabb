/-
# `EDRStore.Finesse` — the features of a chunk

`ExtractFeature` slides the bytes of twelve sub-chunks through the caller's Rabin
context, which it shares with every other chunk of the session, and keeps the
largest fingerprint of each.  Three neighbours form a group; each group is
sorted, and the super-features hash the largest of the four groups, the middle
ones and the smallest.

The context is reset ahead of every sub-chunk, so a feature is a function of the
sub-chunk's bytes (`subChunkMax_reset`).  What is left to see is which bytes are
read, and that sorting forgets the order within a group.
-/
import EDRStore.RabinPoly
import EDRStore.Components
import EDRStore.Lib.Blocks
import Mathlib.Data.List.Sort
import Mathlib.Data.List.Perm.Basic

namespace EDRStore

/-! ## The hash -/

namespace XXHash64

def prime1 : UInt64 := 11400714785074694791
def prime2 : UInt64 := 14029467366897019727
def prime3 : UInt64 := 1609587929392839161
def prime4 : UInt64 := 9650029242287828579
def prime5 : UInt64 := 2870177450012600261

/-- The members of `XXHash64`; `buffer` holds `bufferSize` bytes. -/
structure State where
  s0 : UInt64
  s1 : UInt64
  s2 : UInt64
  s3 : UInt64
  buffer : Bytes
  totalLength : UInt64

/-- The constructor. -/
def new (seed : UInt64) : State :=
  { s0 := seed + prime1 + prime2, s1 := seed + prime2, s2 := seed, s3 := seed - prime1
    buffer := [], totalLength := 0 }

def rotateLeft (x bits : UInt64) : UInt64 := (x <<< bits) ||| (x >>> (64 - bits))

def processSingle (previous input : UInt64) : UInt64 :=
  rotateLeft (previous + input * prime2) 31 * prime1

/-- The word of `w` bytes at `off`, the lowest byte first. -/
def word (w : Nat) (data : Bytes) (off : Nat) : UInt64 := UInt64.ofNat (ofLe (slice data off w))

/-- `XXHash64::process` on the first 32 bytes. -/
def process (data : Bytes) (s : State) : State :=
  { s with
    s0 := processSingle s.s0 (word 8 data 0)
    s1 := processSingle s.s1 (word 8 data 8)
    s2 := processSingle s.s2 (word 8 data 16)
    s3 := processSingle s.s3 (word 8 data 24) }

/-- The blocks of `XXHash64::add`, at most `k` of them; the rest stays in the
buffer. -/
def absorb : Nat → Bytes → State → State
  | 0, data, s => { s with buffer := data }
  | k + 1, data, s =>
      if 32 ≤ data.length then absorb k (data.drop 32) (process data s)
      else { s with buffer := data }

/-- `XXHash64::add`. -/
def add (s : State) (input : Bytes) : State :=
  if input = [] then s
  else
    let s := { s with totalLength := s.totalLength + UInt64.ofNat input.length }
    absorb (s.buffer.length + input.length) (s.buffer ++ input) s

/-- The words left in the buffer, at most `k` of them. -/
def eatWords : Nat → Bytes → UInt64 → Bytes × UInt64
  | 0, data, result => (data, result)
  | k + 1, data, result =>
      if 8 ≤ data.length then
        eatWords k (data.drop 8)
          (rotateLeft (result ^^^ processSingle 0 (word 8 data 0)) 27 * prime1 + prime4)
      else (data, result)

/-- Half a word, where there is one. -/
def eatHalf (data : Bytes) (result : UInt64) : Bytes × UInt64 :=
  if 4 ≤ data.length then
    (data.drop 4, rotateLeft (result ^^^ word 4 data 0 * prime1) 23 * prime2 + prime3)
  else (data, result)

/-- The bytes behind it. -/
def eatBytes (data : Bytes) (result : UInt64) : UInt64 :=
  data.foldl (fun result b => rotateLeft (result ^^^ b.toUInt64 * prime5) 11 * prime1) result

/-- The four states folded into one. -/
def fold (s : State) : UInt64 :=
  let result := rotateLeft s.s0 1 + rotateLeft s.s1 7 + rotateLeft s.s2 12 + rotateLeft s.s3 18
  [s.s0, s.s1, s.s2, s.s3].foldl
    (fun result x => (result ^^^ processSingle 0 x) * prime1 + prime4) result

/-- The member function `XXHash64::hash`. -/
def digest (s : State) : UInt64 :=
  let result := if 32 ≤ s.totalLength then fold s else s.s2 + prime5
  let r := eatWords s.buffer.length s.buffer (result + s.totalLength)
  let r := eatHalf r.1 r.2
  let result := eatBytes r.1 r.2
  let result := (result ^^^ result >>> 33) * prime2
  let result := (result ^^^ result >>> 29) * prime3
  result ^^^ result >>> 32

/-- The static function `XXHash64::hash`. -/
def hash (input : Bytes) (seed : UInt64) : UInt64 := digest (add (new seed) input)

-- the digest of no bytes under seed 0
example : hash [] 0 = 0xEF46DB3751D8E999 := by decide +kernel

end XXHash64

/-! ## The features -/

/-- `FEATURE_PER_SUPER_FEATURE`. -/
def featurePerSuperFeature : Nat := 4
/-- `FEATURE_PER_CHUNK`. -/
def featurePerChunk : Nat := superFeaturePerChunk * featurePerSuperFeature

/-- `group_features` with `cur_group_id` and `cur_group_offset`. -/
structure GroupFeatures where
  groups : List (List UInt64)
  curGroupId : Nat
  curGroupOffset : Nat
deriving DecidableEq

namespace FinesseUtil

def emptyGroups : GroupFeatures :=
  { groups := List.replicate featurePerSuperFeature (List.replicate superFeaturePerChunk 0)
    curGroupId := 0
    curGroupOffset := 0 }

/-- The feature of a sub-chunk enters its group. -/
def put (g : GroupFeatures) (maxRabinFp : UInt64) : GroupFeatures :=
  let groups := g.groups.modify g.curGroupId (·.set g.curGroupOffset maxRabinFp)
  if g.curGroupOffset + 1 = superFeaturePerChunk then
    { groups := groups, curGroupId := g.curGroupId + 1, curGroupOffset := 0 }
  else { g with groups := groups, curGroupOffset := g.curGroupOffset + 1 }

/-- The positions that the inner loop of `ExtractFeature` reads in turn `i`. -/
def subChunk (size i : Nat) : List Nat :=
  let subChunkSize := size / featurePerChunk
  let lastChunkSize := subChunkSize + size % featurePerChunk
  let runningLimit := if i = featurePerChunk - 1 then lastChunkSize else subChunkSize
  List.range' (i * subChunkSize) runningLimit

variable (util : RabinFPUtil)

/-- The inner loop over the positions of a sub-chunk; `none` outside of the chunk, or
where `SlideOneByte` leaves a buffer. -/
def subChunkMax (data : Bytes) : List Nat → RabinCtx → UInt64 → Option (UInt64 × RabinCtx)
  | [], ctx, maxRabinFp => some (maxRabinFp, ctx)
  | p :: ps, ctx, maxRabinFp => do
      let curData ← data[p]?
      let r ← util.slideOneByte ctx curData
      subChunkMax data ps r.2 (if maxRabinFp < r.1 then r.1 else maxRabinFp)

/-- The outer loop over the sub-chunks. -/
def featureLoop (data : Bytes) :
    List Nat → RabinCtx → GroupFeatures → Option (GroupFeatures × RabinCtx)
  | [], ctx, g => some (g, ctx)
  | i :: is, ctx, g => do
      let r ← subChunkMax util data (subChunk data.length i) ctx 0
      featureLoop data is (util.resetCtx r.2) (put g r.1)

/-- The order of `greater<uint64_t>()`. -/
def descending (a b : UInt64) : Prop := b ≤ a

instance : DecidableRel descending := fun a b => inferInstanceAs (Decidable (b ≤ a))

/-- The super-features of the four groups. -/
def superFeatures (groups : List (List UInt64)) : List UInt64 :=
  let sorted := groups.map (List.insertionSort descending)
  (List.range superFeaturePerChunk).map fun i =>
    XXHash64.hash ((sorted.map (fun g => g.getD i 0)).flatMap fun x => toLe 8 x.toNat) 0

/-- `FinesseUtil::ExtractFeature`: `features`, and the context left. -/
def extractFeature (ctx : RabinCtx) (data : Bytes) : Option (List UInt64 × RabinCtx) := do
  let r ← featureLoop util data (List.range featurePerChunk) (util.resetCtx ctx) emptyGroups
  some (superFeatures r.1.groups, util.resetCtx r.2)

/-! ## A feature is a function of its sub-chunk -/

variable {util}

/-- A context that was just reset. -/
def fresh (util : RabinFPUtil) : RabinCtx :=
  { curPos := 2 ^ 32 - 1, circBuf := List.replicate util.windowSize 0, fp := 0 }

theorem length_fresh : (fresh util).circBuf.length = util.windowSize := List.length_replicate

theorem resetCtx_eq {ctx : RabinCtx} (h : ctx.circBuf.length = util.windowSize) :
    util.resetCtx ctx = fresh util := by
  have hbuf : memcpy ctx.circBuf 0 (List.replicate util.windowSize 0) =
      List.replicate util.windowSize 0 := by
    rw [memcpy, List.take_zero, List.nil_append,
      List.drop_of_length_le (by rw [h, List.length_replicate, Nat.zero_add]), List.append_nil]
  rw [RabinFPUtil.resetCtx, hbuf]
  rfl

/-- The bytes of a sub-chunk slid through a context, and their largest fingerprint. -/
def slideMax (util : RabinFPUtil) : RabinCtx → Bytes → UInt64 → Option (UInt64 × RabinCtx)
  | ctx, [], m => some (m, ctx)
  | ctx, b :: bs, m => do
      let r ← util.slideOneByte ctx b
      slideMax util r.2 bs (if m < r.1 then r.1 else m)

/-- The feature of a sub-chunk. -/
def feature (util : RabinFPUtil) (sub : Bytes) : Option UInt64 :=
  (slideMax util (fresh util) sub 0).map Prod.fst

theorem length_slideOneByte {ctx : RabinCtx} {b : UInt8} {r : UInt64 × RabinCtx}
    (h : util.slideOneByte ctx b = some r) : r.2.circBuf.length = ctx.circBuf.length := by
  obtain ⟨om, -, h⟩ := Option.bind_eq_some_iff.mp h
  obtain ⟨x, -, h⟩ := Option.bind_eq_some_iff.mp h
  obtain ⟨fp, -, h⟩ := Option.bind_eq_some_iff.mp h
  obtain rfl := Option.some.inj h
  exact List.length_set

theorem length_slideMax {bs : Bytes} : ∀ {ctx : RabinCtx} {m : UInt64} {r : UInt64 × RabinCtx},
    slideMax util ctx bs m = some r → r.2.circBuf.length = ctx.circBuf.length := by
  induction bs with
  | nil =>
      intro ctx m r h
      obtain rfl := Option.some.inj h
      rfl
  | cons b bs ih =>
      intro ctx m r h
      obtain ⟨r', hr', h⟩ := Option.bind_eq_some_iff.mp h
      exact (ih h).trans (length_slideOneByte hr')

/-- The positions of a sub-chunk are inside the chunk, and lead to its bytes. -/
theorem subChunkMax_eq {data : Bytes} {n : Nat} : ∀ {off : Nat} {ctx : RabinCtx} {m : UInt64},
    off + n ≤ data.length →
    subChunkMax util data (List.range' off n) ctx m = slideMax util ctx (slice data off n) m := by
  induction n with
  | zero => intro off ctx m _; rw [slice, List.take_zero]; rfl
  | succ n ih =>
      intro off ctx m h
      have hlt : off < data.length := by omega
      have hslice : slice data off (n + 1) = data[off] :: slice data (off + 1) n := by
        rw [slice, List.drop_eq_getElem_cons hlt, List.take_succ_cons]
        rfl
      rw [List.range'_succ, subChunkMax, List.getElem?_eq_getElem hlt, hslice, slideMax]
      refine congrArg (Option.bind (util.slideOneByte ctx data[off])) (funext fun r => ?_)
      exact ih (by omega)

/-- Reset ahead, a context gives the feature of the sub-chunk, and is as long as
before. -/
theorem subChunkMax_reset {data : Bytes} {off n : Nat} (h : off + n ≤ data.length) :
    (subChunkMax util data (List.range' off n) (fresh util) 0).map
      (fun r => (r.1, util.resetCtx r.2)) =
        (feature util (slice data off n)).map (fun m => (m, fresh util)) := by
  rw [subChunkMax_eq h, feature, Option.map_map]
  refine Option.map_congr fun r hr => ?_
  rw [resetCtx_eq ((length_slideMax hr).trans length_fresh)]
  rfl

/-! ### The twelve sub-chunks -/

/-- How far turn `i` runs. -/
def limit (size i : Nat) : Nat :=
  if i = featurePerChunk - 1 then size / featurePerChunk + size % featurePerChunk
  else size / featurePerChunk

theorem subChunk_eq (size i : Nat) :
    subChunk size i = List.range' (i * (size / featurePerChunk)) (limit size i) := rfl

theorem limit_le {size i : Nat} (hi : i < featurePerChunk) :
    i * (size / featurePerChunk) + limit size i ≤ size := by
  have hf : featurePerChunk = 12 := rfl
  have hdiv := Nat.div_add_mod size featurePerChunk
  rw [hf] at hi hdiv
  have hmul : i * (size / 12) ≤ 11 * (size / 12) := Nat.mul_le_mul_right _ (Nat.le_of_lt_succ hi)
  rw [limit, hf]
  split
  · omega
  · rename_i hne
    have hmul' : i * (size / 12) ≤ 10 * (size / 12) := Nat.mul_le_mul_right _ (by omega)
    omega

/-- The bytes of sub-chunk `i`. -/
def subBytes (data : Bytes) (i : Nat) : Bytes :=
  slice data (i * (data.length / featurePerChunk)) (limit data.length i)

/-- All the sub-chunks. -/
def subChunks (data : Bytes) : List Bytes := (List.range featurePerChunk).map (subBytes data)

/-- The positions read are those of the chunk, one after the other. -/
theorem subChunks_partition (size : Nat) :
    (List.range featurePerChunk).flatMap (subChunk size) = List.range size := by
  have hf : featurePerChunk = 12 := rfl
  have hfront : ∀ k, k ≤ featurePerChunk - 1 →
      (List.range k).flatMap (subChunk size) = List.range' 0 (k * (size / featurePerChunk)) := by
    intro k
    induction k with
    | zero => exact fun _ => by rw [Nat.zero_mul]; rfl
    | succ k ih =>
        intro hk
        have hlim : limit size k = size / featurePerChunk := if_neg (by omega)
        rw [List.range_succ, List.flatMap_append, ih (by omega), List.flatMap_singleton,
          subChunk_eq, hlim, Nat.succ_mul]
        have happ := @List.range'_append_1 0 (k * (size / featurePerChunk)) (size / featurePerChunk)
        rwa [Nat.zero_add] at happ
  have hlast : limit size (featurePerChunk - 1) =
      size / featurePerChunk + size % featurePerChunk := if_pos rfl
  have happ := @List.range'_append_1 0 ((featurePerChunk - 1) * (size / featurePerChunk))
    (size / featurePerChunk + size % featurePerChunk)
  have hsum : (featurePerChunk - 1) * (size / featurePerChunk) +
      (size / featurePerChunk + size % featurePerChunk) = size := by
    have hdiv := Nat.div_add_mod size featurePerChunk
    rw [hf] at hdiv ⊢
    omega
  rw [Nat.zero_add, hsum] at happ
  rw [show List.range featurePerChunk = List.range (featurePerChunk - 1 + 1) from rfl,
    List.range_succ, List.flatMap_append, hfront _ (Nat.le_refl _), List.flatMap_singleton,
    subChunk_eq, hlast, happ, List.range_eq_range']

/-- The features of some sub-chunks, where all of them have one. -/
def features (util : RabinFPUtil) : List Bytes → Option (List UInt64)
  | [] => some []
  | sub :: subs => do
      let m ← feature util sub
      let ms ← features util subs
      some (m :: ms)

theorem features_eq_some {subs : List Bytes} : ∀ {ms : List UInt64},
    features util subs = some ms ↔ List.Forall₂ (fun sub m => feature util sub = some m) subs ms := by
  induction subs with
  | nil =>
      intro ms
      rw [List.forall₂_nil_left_iff, features, Option.some.injEq, eq_comm]
  | cons sub subs ih =>
      intro ms
      rw [List.forall₂_cons_left_iff, features, Option.bind_eq_bind, Option.bind_eq_some_iff]
      simp only [Option.bind_eq_bind, Option.bind_eq_some_iff, Option.some.injEq]
      refine ⟨?_, ?_⟩
      · rintro ⟨m, hm, ms', hms, rfl⟩
        exact ⟨m, ms', hm, ih.mp hms, rfl⟩
      · rintro ⟨m, ms', hm, hms, rfl⟩
        exact ⟨m, hm, ms', ih.mpr hms, rfl⟩

/-- What turn `i` finds at its positions, from a context that was just reset. -/
def turnMax (util : RabinFPUtil) (data : Bytes) (i : Nat) : Option UInt64 :=
  (subChunkMax util data (subChunk data.length i) (fresh util) 0).map Prod.fst

theorem feature_subBytes (data : Bytes) {i : Nat} (hi : i < featurePerChunk) :
    feature util (subBytes data i) = turnMax util data i := by
  rw [turnMax, subChunk_eq, subChunkMax_eq (limit_le hi)]
  rfl

theorem features_subBytes (data : Bytes) {is : List Nat} (his : ∀ i ∈ is, i < featurePerChunk) :
    features util (is.map (subBytes data)) = is.mapM (turnMax util data) := by
  induction is with
  | nil => rfl
  | cons i is ih =>
      rw [List.map_cons, features, feature_subBytes data (his i List.mem_cons_self),
        ih fun j hj => his j (List.mem_cons_of_mem i hj), List.mapM_cons]
      rfl

theorem featureLoop_eq (data : Bytes) {is : List Nat} (his : ∀ i ∈ is, i < featurePerChunk) :
    ∀ g : GroupFeatures, featureLoop util data is (fresh util) g =
      (features util (is.map (subBytes data))).map (fun ms => (ms.foldl put g, fresh util)) := by
  induction is with
  | nil => exact fun g => rfl
  | cons i is ih =>
      intro g
      have hreset := @subChunkMax_reset util data _ _ (limit_le (his i List.mem_cons_self))
      rw [← subChunk_eq] at hreset
      rw [featureLoop, List.map_cons, features]
      change _ = Option.map _ (Option.bind (feature util (slice _ _ _)) _)
      cases hsub : subChunkMax util data (subChunk data.length i) (fresh util) 0 with
      | none =>
          rw [hsub, Option.map_none] at hreset
          have hnone := Option.map_eq_none_iff.mp hreset.symm
          rw [hnone]
          rfl
      | some r =>
          rw [hsub, Option.map_some] at hreset
          obtain ⟨m, hm, hr⟩ := Option.map_eq_some_iff.mp hreset.symm
          obtain ⟨hr₁, hr₂⟩ := Prod.mk.inj hr
          rw [hm]
          simp only [Option.bind_eq_bind, Option.bind_some, ← hr₁, ← hr₂]
          rw [ih fun j hj => his j (List.mem_cons_of_mem i hj)]
          cases features util (is.map (subBytes data)) <;> rfl

/-- The super-features are those of the sub-chunks, whatever the context held. -/
theorem extractFeature_eq {ctx : RabinCtx} (h : ctx.circBuf.length = util.windowSize)
    (data : Bytes) :
    extractFeature util ctx data =
      (features util (subChunks data)).map
        (fun ms => (superFeatures (ms.foldl put emptyGroups).groups, fresh util)) := by
  rw [extractFeature, resetCtx_eq h,
    featureLoop_eq data (fun i hi => List.mem_range.mp hi) emptyGroups, subChunks]
  cases features util ((List.range featurePerChunk).map (subBytes data)) with
  | none => rfl
  | some ms =>
      rw [Option.map_some, Option.map_some, Option.bind_eq_bind, Option.bind_some,
        resetCtx_eq length_fresh]

/-! ## Groups -/

/-- The sub-chunks of each group. -/
def groupsOf (data : Bytes) : List (List Bytes) :=
  (List.range featurePerSuperFeature).map fun g =>
    (List.range superFeaturePerChunk).map fun o => subBytes data (superFeaturePerChunk * g + o)

theorem flatten_groupsOf (data : Bytes) : (groupsOf data).flatten = subChunks data := rfl

/-- Sub-chunks of one length are the sub-chunks of what they form together. -/
theorem subChunks_flatten {subs : List Bytes} {n : Nat} (hnum : subs.length = featurePerChunk)
    (hlen : ∀ sub ∈ subs, sub.length = n) : subChunks subs.flatten = subs := by
  have hsize : subs.flatten.length = featurePerChunk * n := by
    rw [length_flatten_blocks hlen, hnum]
  have hdiv : subs.flatten.length / featurePerChunk = n := by
    rw [hsize]
    exact Nat.mul_div_cancel_left n (by decide)
  have hlimit : ∀ i, limit subs.flatten.length i = n := by
    intro i
    have hmod : subs.flatten.length % featurePerChunk = 0 := by
      rw [hsize]
      exact Nat.mul_mod_right featurePerChunk n
    rw [limit, hdiv, hmod, Nat.add_zero, ite_self]
  have hblocks := blocks_flatten hlen (List.prefix_refl subs.flatten)
  rw [hnum] at hblocks
  calc
    subChunks subs.flatten = blocks n featurePerChunk subs.flatten := by
      refine List.map_congr_left fun i _ => ?_
      rw [subBytes, hdiv, hlimit]
    _ = subs := hblocks

/-- Where the chunk divides evenly, each sub-chunk has the twelfth part of it. -/
theorem length_subBytes {data : Bytes} (hdvd : featurePerChunk ∣ data.length) {i : Nat}
    (hi : i < featurePerChunk) : (subBytes data i).length = data.length / featurePerChunk := by
  have hlimit : limit data.length i = data.length / featurePerChunk := by
    rw [limit, Nat.mod_eq_zero_of_dvd hdvd, Nat.add_zero, ite_self]
  rw [subBytes, length_slice (limit_le hi), hlimit]

theorem modify_middle {α : Type} (f : α → α) (l : List α) (x : α) (l' : List α) :
    (l ++ x :: l').modify l.length f = l ++ f x :: l' := by
  induction l with
  | nil => rfl
  | cons y l ih => rw [List.length_cons, List.cons_append, List.modify_succ_cons, ih, List.cons_append]

/-- A group fills up from the left, and the next one begins. -/
theorem foldl_put_row {done suf : List (List UInt64)} {ms : List UInt64} :
    ∀ {pre rest : List UInt64}, ms ≠ [] → rest.length = ms.length →
      pre.length + ms.length = superFeaturePerChunk →
      ms.foldl put ⟨done ++ (pre ++ rest) :: suf, done.length, pre.length⟩ =
        ⟨done ++ (pre ++ ms) :: suf, done.length + 1, 0⟩ := by
  induction ms with
  | nil => exact fun h => absurd rfl h
  | cons m ms ih =>
      intro pre rest _ hrest hsum
      obtain ⟨r, rest, rfl⟩ := List.exists_cons_of_length_eq_add_one hrest
      rw [List.length_cons, List.length_cons] at hrest
      rw [List.length_cons] at hsum
      have hset : (done ++ (pre ++ r :: rest) :: suf).modify done.length (·.set pre.length m) =
          done ++ (pre ++ m :: rest) :: suf := by
        rw [modify_middle, List.set_append_right _ _ (Nat.le_refl _), Nat.sub_self,
          List.set_cons_zero]
      rw [List.foldl_cons, put, hset]
      by_cases hlast : pre.length + 1 = superFeaturePerChunk
      · have hms : ms = [] := List.length_eq_zero_iff.mp (by omega)
        have hrest' : rest = [] := List.length_eq_zero_iff.mp (by omega)
        rw [if_pos hlast, hms, hrest']
        rfl
      · have hne : ms ≠ [] := fun h0 => hlast (by rw [h0, List.length_nil] at hsum; omega)
        have hnext := @ih (pre ++ [m]) rest hne (by omega)
          (by rw [List.length_append, List.length_singleton]; omega)
        rw [List.length_append, List.length_singleton, List.append_assoc, List.singleton_append,
          List.append_assoc, List.singleton_append] at hnext
        rw [if_neg hlast]
        exact hnext

/-- Filling the groups. -/
theorem foldl_put_groups {gms : List (List UInt64)} :
    ∀ {done : List (List UInt64)}, (∀ g ∈ gms, g.length = superFeaturePerChunk) →
      (gms.flatten.foldl put
        ⟨done ++ List.replicate gms.length (List.replicate superFeaturePerChunk 0),
          done.length, 0⟩).groups = done ++ gms := by
  induction gms with
  | nil => exact fun _ => rfl
  | cons g gms ih =>
      intro done hlen
      have hg := hlen g List.mem_cons_self
      have hne : g ≠ [] := List.ne_nil_of_length_pos (by rw [hg]; decide)
      have hrow := @foldl_put_row done
        (List.replicate gms.length (List.replicate superFeaturePerChunk 0)) g []
        (List.replicate superFeaturePerChunk 0) hne (by rw [List.length_replicate, hg])
        (by rw [List.length_nil, Nat.zero_add, hg])
      have hrest := @ih (done ++ [g]) fun g' hg' => hlen g' (List.mem_cons_of_mem g hg')
      rw [List.length_append, List.length_singleton, List.append_assoc, List.append_assoc,
        List.singleton_append, List.singleton_append] at hrest
      rw [List.nil_append, List.nil_append, List.length_nil] at hrow
      rw [List.flatten_cons, List.foldl_append, List.length_cons, List.replicate_succ, hrow]
      exact hrest

theorem groups_foldl_put {gms : List (List UInt64)} (hnum : gms.length = featurePerSuperFeature)
    (hlen : ∀ g ∈ gms, g.length = superFeaturePerChunk) :
    (gms.flatten.foldl put emptyGroups).groups = gms := by
  have h := @foldl_put_groups gms [] hlen
  rw [hnum] at h
  exact h

instance : Std.Total descending := ⟨fun a b => UInt64.le_total b a⟩
instance : IsTrans UInt64 descending := ⟨fun _ _ _ hab hbc => UInt64.le_trans hbc hab⟩
instance : Std.Antisymm descending := ⟨fun _ _ hab hba => UInt64.le_antisymm hba hab⟩

/-- Sorting forgets the order. -/
theorem sort_perm {l l' : List UInt64} (h : l.Perm l') :
    l.insertionSort descending = l'.insertionSort descending :=
  List.Perm.eq_of_pairwise' (List.pairwise_insertionSort descending l)
    (List.pairwise_insertionSort descending l')
    ((List.perm_insertionSort descending l).trans
      (h.trans (List.perm_insertionSort descending l').symm))

theorem superFeatures_perm {gms gms' : List (List UInt64)} (h : List.Forall₂ List.Perm gms gms') :
    superFeatures gms = superFeatures gms' := by
  have hsort : gms.map (List.insertionSort descending) =
      gms'.map (List.insertionSort descending) := by
    induction h with
    | nil => rfl
    | cons hg _ ih => rw [List.map_cons, List.map_cons, sort_perm hg, ih]
  rw [superFeatures, superFeatures, hsort]

/-- The features of a sequence of groups, group by group. -/
theorem forall₂_flatten {R : Bytes → UInt64 → Prop} {gs : List (List Bytes)} :
    ∀ {ms : List UInt64}, List.Forall₂ R gs.flatten ms →
      ∃ gms : List (List UInt64), gms.flatten = ms ∧ List.Forall₂ (List.Forall₂ R) gs gms := by
  induction gs with
  | nil =>
      intro ms h
      exact ⟨[], (List.forall₂_nil_left_iff.mp h).symm, List.Forall₂.nil⟩
  | cons g gs ih =>
      intro ms h
      rw [List.flatten_cons] at h
      have hlen := h.length_eq
      rw [List.length_append] at hlen
      have hpre := List.forall₂_take g.length h
      have hsuf := List.forall₂_drop g.length h
      rw [List.take_left] at hpre
      rw [List.drop_left] at hsuf
      obtain ⟨gms, hflat, hgms⟩ := ih hsuf
      exact ⟨ms.take g.length :: gms, by rw [List.flatten_cons, hflat, List.take_append_drop],
        List.Forall₂.cons hpre hgms⟩

/-- The features of permuted groups are the permuted features. -/
theorem forall₂_perm {R : Bytes → UInt64 → Prop} {gs gs' : List (List Bytes)}
    (h : List.Forall₂ List.Perm gs gs') : ∀ {gms : List (List UInt64)},
      List.Forall₂ (List.Forall₂ R) gs gms →
        ∃ gms', List.Forall₂ (List.Forall₂ R) gs' gms' ∧ List.Forall₂ List.Perm gms gms' := by
  induction h with
  | nil =>
      intro gms hgms
      rw [List.forall₂_nil_left_iff.mp hgms]
      exact ⟨[], List.Forall₂.nil, List.Forall₂.nil⟩
  | cons hg _ ih =>
      intro gms hgms
      obtain ⟨gm, rest, hgm, hrest, rfl⟩ := List.forall₂_cons_left_iff.mp hgms
      obtain ⟨gm', hgm', hperm⟩ := List.perm_comp_forall₂ hg.symm hgm
      obtain ⟨rest', hrest', hperms⟩ := ih hrest
      exact ⟨gm' :: rest', List.Forall₂.cons hgm' hrest', List.Forall₂.cons hperm.symm hperms⟩

theorem length_of_forall₂ {R : Bytes → UInt64 → Prop} {k : Nat} {gs : List (List Bytes)}
    {gms : List (List UInt64)} (h : List.Forall₂ (List.Forall₂ R) gs gms)
    (hlen : ∀ g ∈ gs, g.length = k) : ∀ gm ∈ gms, gm.length = k := by
  induction h with
  | nil => exact fun gm hgm => absurd hgm List.not_mem_nil
  | cons hg _ ih =>
      intro gm hgm
      rcases List.mem_cons.mp hgm with rfl | hgm
      · exact hg.length_eq ▸ hlen _ List.mem_cons_self
      · exact ih (fun g hg => hlen g (List.mem_cons_of_mem _ hg)) gm hgm

/-- Permuting within groups of sub-chunks keeps the super-features. -/
theorem features_perm {gs gs' : List (List Bytes)} (hnum : gs.length = featurePerSuperFeature)
    (hlen : ∀ g ∈ gs, g.length = superFeaturePerChunk) (h : List.Forall₂ List.Perm gs gs')
    {ms : List UInt64} (hms : features util gs.flatten = some ms) :
    ∃ ms', features util gs'.flatten = some ms' ∧
      superFeatures (ms.foldl put emptyGroups).groups =
        superFeatures (ms'.foldl put emptyGroups).groups := by
  obtain ⟨gms, rfl, hgms⟩ := forall₂_flatten (features_eq_some.mp hms)
  obtain ⟨gms', hgms', hperm⟩ := forall₂_perm h hgms
  have hlens := length_of_forall₂ hgms hlen
  have hlens' : ∀ gm ∈ gms', gm.length = superFeaturePerChunk := by
    refine length_of_forall₂ hgms' ?_
    clear hms hgms hgms' hnum
    induction h with
    | nil => exact hlen
    | cons hg _ ih =>
        intro g hmem
        rcases List.mem_cons.mp hmem with rfl | hmem
        · exact hg.length_eq ▸ hlen _ List.mem_cons_self
        · exact ih (fun g hg => hlen g (List.mem_cons_of_mem _ hg)) g hmem
  have hnum' : gms.length = featurePerSuperFeature := hgms.length_eq ▸ hnum
  refine ⟨gms'.flatten, features_eq_some.mpr (List.rel_flatten hgms'), ?_⟩
  rw [groups_foldl_put hnum' hlens, groups_foldl_put (hperm.length_eq ▸ hnum') hlens',
    superFeatures_perm hperm]

/-- The two sides have features, or neither has. -/
theorem map_features_perm {gs gs' : List (List Bytes)} (hnum : gs.length = featurePerSuperFeature)
    (hlen : ∀ g ∈ gs, g.length = superFeaturePerChunk) (h : List.Forall₂ List.Perm gs gs')
    (hlen' : ∀ g ∈ gs', g.length = superFeaturePerChunk) :
    (features util gs.flatten).map (fun ms => superFeatures (ms.foldl put emptyGroups).groups) =
      (features util gs'.flatten).map
        (fun ms => superFeatures (ms.foldl put emptyGroups).groups) := by
  cases hms : features util gs.flatten with
  | some ms =>
      obtain ⟨ms', hms', heq⟩ := features_perm hnum hlen h hms
      rw [hms', Option.map_some, Option.map_some, heq]
  | none =>
      cases hms' : features util gs'.flatten with
      | none => rfl
      | some ms' =>
          have hback : List.Forall₂ List.Perm gs' gs := (h.imp fun _ _ hp => hp.symm).flip
          obtain ⟨ms, hsome, -⟩ := features_perm (h.length_eq ▸ hnum) hlen' hback hms'
          exact nomatch hms.symm.trans hsome

/-! ## The chunk alone -/

/-- The sub-chunks are the chunk. -/
theorem flatten_subChunks (data : Bytes) : (subChunks data).flatten = data := by
  have hf : featurePerChunk = 12 := rfl
  have hfront : ∀ k, k ≤ featurePerChunk - 1 → ((List.range k).map (subBytes data)).flatten =
      data.take (k * (data.length / featurePerChunk)) := by
    intro k
    induction k with
    | zero => exact fun _ => by rw [Nat.zero_mul, List.take_zero]; rfl
    | succ k ih =>
        intro hk
        have hlim : limit data.length k = data.length / featurePerChunk := if_neg (by omega)
        rw [List.range_succ, List.map_append, List.flatten_append, ih (by omega), List.map_singleton,
          List.flatten_singleton, subBytes, hlim, slice, Nat.succ_mul, List.take_add]
  have hlast : subBytes data (featurePerChunk - 1) =
      data.drop ((featurePerChunk - 1) * (data.length / featurePerChunk)) := by
    have hlim : limit data.length (featurePerChunk - 1) =
        data.length / featurePerChunk + data.length % featurePerChunk := if_pos rfl
    have hdiv := Nat.div_add_mod data.length featurePerChunk
    rw [subBytes, slice, hlim]
    refine List.take_of_length_le ?_
    rw [List.length_drop, hf]
    rw [hf] at hdiv
    omega
  rw [subChunks, show List.range featurePerChunk = List.range (featurePerChunk - 1 + 1) from rfl,
    List.range_succ, List.map_append, List.flatten_append, hfront _ (Nat.le_refl _),
    List.map_singleton, List.flatten_singleton, hlast, List.take_append_drop]

/-- Sliding over a window never fails. -/
theorem slideMax_some {w : Nat} (hb : RabinFPUtil.Built w util) (hpos : 1 ≤ w) (hw : w < 2 ^ 32)
    (bs : Bytes) : ∀ {ctx : RabinCtx} {win : Bytes} (m : UInt64), win.length = w →
      RabinFPUtil.Slid w win ctx → ∃ r, slideMax util ctx bs m = some r := by
  induction bs with
  | nil => exact fun m _ _ => ⟨_, rfl⟩
  | cons b bs ih =>
      intro ctx win m hlen h
      obtain ⟨om, rest, rfl⟩ := List.exists_cons_of_length_pos (hlen ▸ hpos)
      obtain ⟨fp, ctx', hstep, -, h'⟩ := RabinFPUtil.slideOneByte_spec hb hw h b
      rw [slideMax, hstep]
      refine ih _ ?_ h'
      rw [List.length_append, List.length_singleton, ← hlen, List.length_cons]

theorem features_some {w : Nat} (hb : RabinFPUtil.Built w util) (hpos : 1 ≤ w) (hw : w < 2 ^ 32)
    (subs : List Bytes) : ∃ ms, features util subs = some ms := by
  induction subs with
  | nil => exact ⟨[], rfl⟩
  | cons sub subs ih =>
      obtain ⟨ms, hms⟩ := ih
      have hfresh : RabinFPUtil.Slid w (List.replicate w 0) (fresh util) := by
        rw [← resetCtx_eq length_fresh]
        exact RabinFPUtil.resetCtx_slid hb hpos (by rw [length_fresh, hb.windowSize])
      obtain ⟨r, hr⟩ := slideMax_some hb hpos hw sub 0 List.length_replicate hfresh
      refine ⟨r.1 :: ms, ?_⟩
      rw [features, feature, hr, hms]
      rfl

/-- What the features of a chunk depend on, for two contexts that any earlier chunks
may have left. -/
structure FeaturesOfChunk (util : RabinFPUtil) (ctx ctx' : RabinCtx) (data : Bytes) : Prop where
  /-- Three super-features are returned, for every window of at least a byte. -/
  returns : ∀ k w, 1 ≤ w → RabinFPUtil.new k w = some util →
    ∃ fs c, extractFeature util ctx data = some (fs, c) ∧ fs.length = superFeaturePerChunk
  /-- They are the same in both contexts. -/
  same : (extractFeature util ctx data).map Prod.fst = (extractFeature util ctx' data).map Prod.fst
  /-- The positions read, sub-chunk by sub-chunk, are those of the chunk, each once. -/
  partition : (List.range featurePerChunk).flatMap (subChunk data.length) = List.range data.length
  /-- They are all that is read: each turn finds its maximum at its own positions. -/
  reads : extractFeature util ctx data =
    ((List.range featurePerChunk).mapM (turnMax util data)).map fun ms =>
      (superFeatures (ms.foldl put emptyGroups).groups, fresh util)
  /-- The groups of sub-chunks are the chunk. -/
  whole : (groupsOf data).flatten.flatten = data
  /-- Where it divides evenly, another order within the groups changes nothing. -/
  symmetric : featurePerChunk ∣ data.length → ∀ gs', List.Forall₂ List.Perm (groupsOf data) gs' →
    (extractFeature util ctx' gs'.flatten.flatten).map Prod.fst =
      (extractFeature util ctx data).map Prod.fst

theorem map_fst_extractFeature {ctx : RabinCtx} (h : ctx.circBuf.length = util.windowSize)
    (data : Bytes) :
    (extractFeature util ctx data).map Prod.fst =
      (features util (subChunks data)).map
        (fun ms => superFeatures (ms.foldl put emptyGroups).groups) := by
  rw [extractFeature_eq h, Option.map_map]
  rfl

/-- The features are a function of the chunk, and symmetric in each group. -/
theorem features_of_chunk {ctx ctx' : RabinCtx} (h : ctx.circBuf.length = util.windowSize)
    (h' : ctx'.circBuf.length = util.windowSize) (data : Bytes) :
    FeaturesOfChunk util ctx ctx' data where
  returns := by
    intro k w hpos hnew
    obtain ⟨hw, hb⟩ := RabinFPUtil.built_of_new hpos hnew
    obtain ⟨ms, hms⟩ := features_some hb hpos hw (subChunks data)
    refine ⟨_, _, by rw [extractFeature_eq h, hms, Option.map_some], ?_⟩
    rw [superFeatures, List.length_map, List.length_range]
  same := by rw [map_fst_extractFeature h, map_fst_extractFeature h']
  partition := subChunks_partition data.length
  reads := by
    rw [extractFeature_eq h, subChunks, features_subBytes data fun i hi => List.mem_range.mp hi]
  whole := flatten_subChunks data
  symmetric := by
    intro hdvd gs' hperm
    let n := data.length / featurePerChunk
    have hgroups : ∀ g ∈ groupsOf data, g.length = superFeaturePerChunk ∧
        ∀ sub ∈ g, sub.length = n := by
      intro g hg
      obtain ⟨i, hi, rfl⟩ := List.mem_map.mp hg
      refine ⟨by rw [List.length_map, List.length_range], fun sub hsub => ?_⟩
      obtain ⟨o, ho, rfl⟩ := List.mem_map.mp hsub
      have hi' : i < 4 := List.mem_range.mp hi
      have ho' : o < 3 := List.mem_range.mp ho
      exact length_subBytes hdvd (show 3 * i + o < 12 by omega)
    have hgroups' : ∀ g ∈ gs', g.length = superFeaturePerChunk ∧ ∀ sub ∈ g, sub.length = n := by
      clear_value n
      generalize groupsOf data = gs at hperm hgroups
      induction hperm with
      | nil => exact hgroups
      | cons hg _ ih =>
          intro g hmem
          rcases List.mem_cons.mp hmem with rfl | hmem
          · obtain ⟨hlen, hall⟩ := hgroups _ List.mem_cons_self
            exact ⟨hg.length_eq ▸ hlen, fun sub hsub => hall sub (hg.mem_iff.mpr hsub)⟩
          · exact ih (fun g hg => hgroups g (List.mem_cons_of_mem _ hg)) g hmem
    have hnum : (groupsOf data).length = featurePerSuperFeature := by
      rw [groupsOf, List.length_map, List.length_range]
    have hsubs : subChunks gs'.flatten.flatten = gs'.flatten := by
      refine subChunks_flatten (n := n) ?_ fun sub hsub => ?_
      · rw [length_flatten_blocks (w := superFeaturePerChunk) fun g hg => (hgroups' g hg).1,
          ← hperm.length_eq, hnum]
        rfl
      · obtain ⟨g, hg, hmem⟩ := List.mem_flatten.mp hsub
        exact (hgroups' g hg).2 sub hmem
    rw [map_fst_extractFeature h, map_fst_extractFeature h', hsubs, ← flatten_groupsOf]
    exact (map_features_perm hnum (fun g hg => (hgroups g hg).1) hperm
      fun g hg => (hgroups' g hg).1).symm

theorem features_of_chunk_sample : ∃ util, RabinFPUtil.new 3 3 = some util ∧
    FeaturesOfChunk util ⟨7, [1, 2, 3], 5⟩ ⟨0, [0, 0, 9], 0⟩ (List.replicate 24 9) := by
  obtain ⟨util, hnew, hb⟩ := RabinFPUtil.new_built (show 1 ≤ 3 by decide) (by decide)
  exact ⟨util, hnew 3 (Nat.le_refl 3),
    features_of_chunk (by rw [hb.windowSize]; rfl) (by rw [hb.windowSize]; rfl) _⟩

end FinesseUtil

/-! ## As a component -/

namespace Components

/-- The components with `FinesseUtil` working in the context `ctx`. -/
def withFinesse (cfg : Components) (util : RabinFPUtil) (ctx : RabinCtx) : Components :=
  { cfg with
    extractFeature := fun data =>
      match FinesseUtil.extractFeature util ctx data with
      | some ([sf0, sf1, sf2], _) => ⟨sf0, sf1, sf2⟩
      | _ => ⟨0, 0, 0⟩ }

/-- Threads with contexts of their own extract the same features. -/
theorem withFinesse_eq (cfg : Components) {util : RabinFPUtil} {ctx ctx' : RabinCtx}
    (h : ctx.circBuf.length = util.windowSize) (h' : ctx'.circBuf.length = util.windowSize) :
    cfg.withFinesse util ctx = cfg.withFinesse util ctx' := by
  unfold withFinesse
  congr 1
  funext data
  rw [FinesseUtil.extractFeature_eq h, FinesseUtil.extractFeature_eq h']

end Components

end EDRStore
