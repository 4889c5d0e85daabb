/-
# `EDRStore.Lib.Batch` — handing things over `n` at a time

A loop that collects what it is given and hands the collection over whenever the
count reaches a multiple of `n`, and whatever is left at the end.  Nothing is
lost, added or moved (`flatten_batches`), every piece but the last has `n`
members (`length_of_mem_out`), and what is pending at any moment is the
beginning of a piece handed over later (`exists_batch`).
-/
import EDRStore.Lib.Bytes
import Mathlib.Data.List.Infix

namespace EDRStore

/-- What was handed over, and what is still collected. -/
structure Batch (α : Type) where
  out : List (List α)
  pending : List α

namespace Batch

variable {α β : Type} {n : Nat} {b : Batch α}

def empty : Batch α := ⟨[], []⟩

/-- One more; the condition is on the count. -/
def push (n : Nat) (b : Batch α) (a : α) : Batch α :=
  if (b.pending ++ [a]).length % n = 0 then ⟨b.out ++ [b.pending ++ [a]], []⟩
  else ⟨b.out, b.pending ++ [a]⟩

def run (n : Nat) (b : Batch α) (l : List α) : Batch α := l.foldl (push n) b

/-- What is left is handed over, if there is anything. -/
def close (b : Batch α) : List (List α) := if b.pending = [] then b.out else b.out ++ [b.pending]

/-- The pieces of `l`. -/
def batches (n : Nat) (l : List α) : List (List α) := (run n empty l).close

@[simp] theorem run_nil (b : Batch α) : run n b [] = b := rfl

@[simp] theorem run_cons (b : Batch α) (a : α) (l : List α) :
    run n b (a :: l) = run n (b.push n a) l := rfl

theorem run_append (b : Batch α) (l l' : List α) : run n b (l ++ l') = run n (run n b l) l' :=
  List.foldl_append

/-- Too few for a piece: everything stays pending. -/
theorem run_short (l : List α) : ∀ b : Batch α, b.pending.length + l.length < n →
    run n b l = ⟨b.out, b.pending ++ l⟩ := by
  induction l with
  | nil => intro b _; rw [run_nil, List.append_nil]
  | cons a l ih =>
      intro b h
      rw [List.length_cons] at h
      have hlen : (b.pending ++ [a]).length = b.pending.length + 1 := by
        rw [List.length_append, List.length_singleton]
      have hmod : (b.pending ++ [a]).length % n ≠ 0 := by
        rw [hlen, Nat.mod_eq_of_lt (by omega)]
        exact Nat.succ_ne_zero _
      rw [run_cons, push, if_neg hmod, ih ⟨b.out, b.pending ++ [a]⟩
        (show (b.pending ++ [a]).length + l.length < n by omega), List.append_assoc]
      rfl

/-- Less than one piece is pending, and only whole pieces were handed over. -/
structure Sized (n : Nat) (b : Batch α) : Prop where
  pending : b.pending.length < n
  out : ∀ g ∈ b.out, g.length = n

theorem sized_empty (hn : 0 < n) : Sized n (empty : Batch α) where
  pending := hn
  out := fun _ hg => absurd hg List.not_mem_nil

/-- Below a whole piece, the count is a multiple of `n` exactly when it is `n`. -/
theorem mod_eq_zero_iff {k : Nat} (hk : k < n) : (k + 1) % n = 0 ↔ k + 1 = n := by
  constructor
  · intro h
    rcases Nat.lt_or_ge (k + 1) n with hlt | hge
    · rw [Nat.mod_eq_of_lt hlt] at h
      exact absurd h (Nat.succ_ne_zero k)
    · omega
  · intro h
    rw [h, Nat.mod_self]

theorem Sized.push (h : Sized n b) (a : α) : Sized n (b.push n a) := by
  have hp := h.pending
  have hiff := mod_eq_zero_iff hp
  unfold Batch.push
  rw [List.length_append, List.length_singleton]
  split
  · rename_i hmod
    refine ⟨by rw [List.length_nil]; omega, fun g hg => ?_⟩
    rcases List.mem_append.mp hg with hg | hg
    · exact h.out g hg
    · rw [List.mem_singleton.mp hg, List.length_append, List.length_singleton]
      exact hiff.mp hmod
  · rename_i hmod
    refine ⟨?_, h.out⟩
    have hne : b.pending.length + 1 ≠ n := fun he => hmod (hiff.mpr he)
    rw [List.length_append, List.length_singleton]
    omega

theorem Sized.run (l : List α) : ∀ {b : Batch α}, Sized n b → Sized n (run n b l) := by
  induction l with
  | nil => exact fun h => h
  | cons a l ih => exact fun h => ih (h.push a)

theorem mem_push_pending {a x : α} (h : x ∈ (b.push n a).pending) : x ∈ b.pending ∨ x = a := by
  unfold push at h
  split at h
  · exact absurd h List.not_mem_nil
  · rcases List.mem_append.mp h with h | h
    · exact Or.inl h
    · exact Or.inr (List.mem_singleton.mp h)

theorem push_contents (b : Batch α) (a : α) :
    (b.push n a).out.flatten ++ (b.push n a).pending = b.out.flatten ++ b.pending ++ [a] := by
  unfold push
  split
  · rw [List.flatten_append, List.flatten_singleton, List.append_nil, List.append_assoc]
  · rw [List.append_assoc]

theorem run_contents (l : List α) : ∀ b : Batch α,
    (run n b l).out.flatten ++ (run n b l).pending = b.out.flatten ++ b.pending ++ l := by
  induction l with
  | nil => intro b; rw [run_nil, List.append_nil]
  | cons a l ih =>
      intro b
      rw [run_cons, ih, push_contents, List.append_assoc]
      rfl

theorem flatten_close (b : Batch α) : b.close.flatten = b.out.flatten ++ b.pending := by
  unfold close
  split
  · rename_i h
    rw [h, List.append_nil]
  · rw [List.flatten_append, List.flatten_singleton]

/-- The pieces are the whole, in order. -/
@[simp] theorem flatten_batches (n : Nat) (l : List α) : (batches n l).flatten = l := by
  rw [batches, flatten_close, run_contents]
  rfl

theorem mem_close {g : List α} (h : g ∈ b.close) :
    g ∈ b.out ∨ (g = b.pending ∧ b.pending ≠ []) := by
  unfold close at h
  split at h
  · exact Or.inl h
  · rename_i hne
    rcases List.mem_append.mp h with h | h
    · exact Or.inl h
    · exact Or.inr ⟨List.mem_singleton.mp h, hne⟩

theorem mem_close_of_out {g : List α} (h : g ∈ b.out) : g ∈ b.close := by
  unfold close
  split
  · exact h
  · exact List.mem_append_left _ h

/-- No piece is empty or longer than `n`. -/
theorem length_of_mem_batches (hn : 0 < n) {l : List α} {g : List α} (h : g ∈ batches n l) :
    0 < g.length ∧ g.length ≤ n := by
  have hs := (sized_empty hn).run l
  rcases mem_close h with h | ⟨rfl, hne⟩
  · rw [hs.out g h]
    exact ⟨hn, Nat.le_refl n⟩
  · exact ⟨List.length_pos_iff.mpr hne, Nat.le_of_lt hs.pending⟩

theorem out_prefix (l : List α) : ∀ b : Batch α, b.out <+: (run n b l).out := by
  induction l with
  | nil => exact fun b => List.prefix_rfl
  | cons a l ih =>
      intro b
      refine List.IsPrefix.trans ?_ (ih (b.push n a))
      unfold push
      split
      · exact List.prefix_append _ _
      · exact List.prefix_rfl

/-- What is pending when one more arrives is, with it, the beginning of a piece. -/
theorem exists_batch (b : Batch α) (a : α) (l : List α) :
    ∃ g ∈ (run n b (a :: l)).close, b.pending ++ [a] <+: g := by
  induction l generalizing b a with
  | nil =>
      rw [run_cons, run_nil]
      unfold push
      split
      · exact ⟨_, mem_close_of_out (List.mem_append_right _ (List.mem_singleton.mpr rfl)),
          List.prefix_rfl⟩
      · refine ⟨b.pending ++ [a], ?_, List.prefix_rfl⟩
        unfold close
        rw [if_neg (show b.pending ++ [a] ≠ [] by simp)]
        exact List.mem_append_right _ (List.mem_singleton.mpr rfl)
  | cons a' l ih =>
      by_cases hmod : (b.pending ++ [a]).length % n = 0
      · refine ⟨b.pending ++ [a], mem_close_of_out ?_, List.prefix_rfl⟩
        have hout := out_prefix (n := n) (a' :: l) (b.push n a)
        refine hout.subset ?_
        unfold push
        rw [if_pos hmod]
        exact List.mem_append_right _ (List.mem_singleton.mpr rfl)
      · obtain ⟨g, hg, hpre⟩ := ih (b.push n a) a'
        refine ⟨g, hg, ?_⟩
        have hpend : (b.push n a).pending = b.pending ++ [a] := by unfold push; rw [if_neg hmod]
        rw [hpend] at hpre
        exact (List.prefix_append _ _).trans hpre

/-- Some piece is as long as `n` and the whole allow. -/
theorem exists_long {k : Nat} (hk : 0 < k) (hn : k ≤ n) {l : List α} (hl : k ≤ l.length) :
    ∃ g ∈ batches n l, k ≤ g.length := by
  obtain ⟨j, rfl⟩ : ∃ j, k = j + 1 := ⟨_, (Nat.succ_pred_eq_of_pos hk).symm⟩
  have hsplit : l = l.take j ++ l[j] :: l.drop (j + 1) := by
    rw [List.getElem_cons_drop, List.take_append_drop]
  have htake : (l.take j).length = j := by rw [List.length_take]; omega
  have hrun : run n empty (l.take j) = ⟨[], l.take j⟩ :=
    run_short _ _ (by
      rw [htake]
      show 0 + j < n
      omega)
  obtain ⟨g, hg, hpre⟩ := exists_batch (n := n) ⟨[], l.take j⟩ l[j] (l.drop (j + 1))
  refine ⟨g, ?_, ?_⟩
  · rw [batches, hsplit, run_append, hrun]
    exact hg
  · have hle := hpre.length_le
    rwa [List.length_append, htake, List.length_singleton] at hle

end Batch

/-- A counter in 32 bits that is reset at multiples of `batchSize` comes to one
after `batchSize` or 2^32 steps, whichever is first. -/
theorem u32_mod_eq_zero_iff {batchSize k : Nat} (hk : k < min batchSize (2 ^ 32)) :
    u32 (k + 1) % batchSize = 0 ↔ (k + 1) % min batchSize (2 ^ 32) = 0 := by
  have hb := Nat.min_le_left batchSize (2 ^ 32)
  have h32 := Nat.min_le_right batchSize (2 ^ 32)
  rw [Batch.mod_eq_zero_iff hk]
  rcases Nat.lt_or_ge (k + 1) (2 ^ 32) with hlt | hge
  · rw [u32_of_lt hlt, Batch.mod_eq_zero_iff (by omega)]
    omega
  · have hk1 : k + 1 = 2 ^ 32 := by omega
    rw [hk1]
    constructor
    · intro _
      omega
    · intro _
      exact Nat.zero_mod batchSize

end EDRStore
