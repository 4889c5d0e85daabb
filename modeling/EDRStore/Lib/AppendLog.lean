/-
# `EDRStore.Lib.AppendLog` — records in append-only segments

A log is a family of segments, each a list that only ever grows at its end.
An `Extent` names a stretch of one segment.  Three facts make extents usable as
addresses:

    appending gives an extent that reads back what was appended   (`Recorded.append`)
    an extent inside a segment reads the same ever after          (`Extent.read_of_grows`)
    two appends never give overlapping extents                    (`Recorded.append`)

`Recorded c l` packs them: every entry of the history `l` lies within the
segments `c`, reads back its bytes, and overlaps no other entry.
-/
import Mathlib.Logic.Function.Basic
import Mathlib.Data.List.Basic

namespace EDRStore

/-- The `len` items of `b` from `off` on. -/
def slice {α : Type} (b : List α) (off len : Nat) : List α := (b.drop off).take len

section Slice

variable {α : Type}

theorem slice_append_left (b d : List α) {off len : Nat} (h : off + len ≤ b.length) :
    slice (b ++ d) off len = slice b off len := by
  unfold slice
  rw [List.drop_append_of_le_length (by omega)]
  exact List.take_append_of_le_length (by rw [List.length_drop]; omega)

theorem slice_append_right (b d : List α) : slice (b ++ d) b.length d.length = d := by
  unfold slice
  rw [List.drop_left, List.take_length]

theorem length_slice {b : List α} {off len : Nat} (h : off + len ≤ b.length) :
    (slice b off len).length = len := by
  unfold slice
  rw [List.length_take, List.length_drop]
  omega

theorem slice_of_prefix {b c : List α} (hbc : b <+: c) {off len : Nat}
    (h : off + len ≤ b.length) : slice c off len = slice b off len := by
  obtain ⟨d, rfl⟩ := hbc
  exact slice_append_left b d h

end Slice

variable {ι α : Type}

/-- A stretch of one segment. -/
structure Extent (ι : Type) where
  seg : ι
  off : Nat
  len : Nat

namespace Extent

/-- What the extent holds. -/
def read (c : ι → List α) (e : Extent ι) : List α := slice (c e.seg) e.off e.len

/-- The extent lies inside its segment. -/
def Within (c : ι → List α) (e : Extent ι) : Prop := e.off + e.len ≤ (c e.seg).length

/-- The two extents share no position. -/
def Disjoint (e e' : Extent ι) : Prop :=
  e.seg ≠ e'.seg ∨ e.off + e.len ≤ e'.off ∨ e'.off + e'.len ≤ e.off

end Extent

/-- Every segment of `c` is a prefix of the same segment of `c'`. -/
def Grows (c c' : ι → List α) : Prop := ∀ i, c i <+: c' i

theorem Grows.refl (c : ι → List α) : Grows c c := fun _ => List.prefix_rfl

theorem Grows.trans {c c' c'' : ι → List α} (h : Grows c c') (h' : Grows c' c'') : Grows c c'' :=
  fun i => (h i).trans (h' i)

theorem Extent.within_of_grows {c c' : ι → List α} (h : Grows c c') {e : Extent ι}
    (he : e.Within c) : e.Within c' :=
  Nat.le_trans he (h e.seg).length_le

theorem Extent.read_of_grows {c c' : ι → List α} (h : Grows c c') {e : Extent ι}
    (he : e.Within c) : e.read c' = e.read c :=
  slice_of_prefix (h e.seg) he

/-- The history `l` of appends is what the segments `c` hold. -/
structure Recorded (c : ι → List α) (l : List (Extent ι × List α)) : Prop where
  within : ∀ p ∈ l, p.1.Within c
  reads : ∀ p ∈ l, p.1.read c = p.2
  disjoint : l.Pairwise (fun p q => p.1.Disjoint q.1)

theorem Recorded.nil (c : ι → List α) : Recorded c [] where
  within := fun _ h => absurd h List.not_mem_nil
  reads := fun _ h => absurd h List.not_mem_nil
  disjoint := .nil

theorem Recorded.grow {c c' : ι → List α} {l : List (Extent ι × List α)} (h : Recorded c l)
    (hc : Grows c c') : Recorded c' l where
  within := fun p hp => Extent.within_of_grows hc (h.within p hp)
  reads := fun p hp => by rw [Extent.read_of_grows hc (h.within p hp), h.reads p hp]
  disjoint := h.disjoint

variable [DecidableEq ι]

theorem grows_append (c : ι → List α) (i : ι) (d : List α) :
    Grows c (Function.update c i (c i ++ d)) := by
  intro j
  by_cases hj : j = i
  · subst hj; rw [Function.update_self]; exact List.prefix_append _ _
  · exact (Function.update_of_ne hj _ c).symm ▸ List.prefix_rfl

/-- Appending `d` to segment `i` records one more entry, at the old end. -/
theorem Recorded.append {c : ι → List α} {l : List (Extent ι × List α)} (h : Recorded c l)
    (i : ι) (d : List α) :
    Recorded (Function.update c i (c i ++ d)) (l ++ [(⟨i, (c i).length, d.length⟩, d)]) := by
  have hg := h.grow (grows_append c i d)
  refine ⟨?_, ?_, ?_⟩
  · intro p hp
    rcases List.mem_append.mp hp with hp | hp
    · exact hg.within p hp
    · cases List.mem_singleton.mp hp
      simp [Extent.Within]
  · intro p hp
    rcases List.mem_append.mp hp with hp | hp
    · exact hg.reads p hp
    · cases List.mem_singleton.mp hp
      simp only [Extent.read, Function.update_self]
      exact slice_append_right _ _
  · refine List.pairwise_append.mpr ⟨h.disjoint, List.pairwise_singleton _ _, ?_⟩
    intro p hp q hq
    cases List.mem_singleton.mp hq
    -- an older entry of the same segment ends where the new one begins
    by_cases hs : p.1.seg = i
    · have hw : p.1.off + p.1.len ≤ (c p.1.seg).length := h.within p hp
      exact Or.inr (Or.inl (by rw [hs] at hw; exact hw))
    · exact Or.inl hs

end EDRStore
