/-
# `EDRStore.Lib.Blocks` — records of one width

A sequence of records of `w` items each, written one behind the other, and read
back by position.
-/
import EDRStore.Lib.AppendLog

namespace EDRStore

variable {α : Type} {w : Nat}

/-- The first `n` records of `w` items. -/
def blocks (w n : Nat) (bs : List α) : List (List α) :=
  (List.range n).map fun i => slice bs (i * w) w

@[simp] theorem length_blocks (w n : Nat) (bs : List α) : (blocks w n bs).length = n := by
  rw [blocks, List.length_map, List.length_range]

theorem blocks_succ (n : Nat) (bs : List α) :
    blocks w (n + 1) bs = slice bs 0 w :: blocks w n (bs.drop w) := by
  rw [blocks, List.range_succ_eq_map, List.map_cons, List.map_map, Nat.zero_mul]
  congr 1
  refine List.map_congr_left fun i _ => ?_
  show slice bs ((i + 1) * w) w = slice (bs.drop w) (i * w) w
  rw [slice, slice, List.drop_drop, Nat.add_mul, Nat.one_mul, Nat.add_comm]

theorem length_flatten_blocks {rs : List (List α)} (h : ∀ r ∈ rs, r.length = w) :
    rs.flatten.length = rs.length * w := by
  induction rs with
  | nil => rw [List.flatten_nil, List.length_nil, List.length_nil, Nat.zero_mul]
  | cons r rs ih =>
      rw [List.flatten_cons, List.length_append, h r List.mem_cons_self,
        ih fun x hx => h x (List.mem_cons_of_mem _ hx), List.length_cons, Nat.add_mul, Nat.one_mul,
        Nat.add_comm]

/-- Cutting between two records. -/
theorem take_flatten {rs : List (List α)} (h : ∀ r ∈ rs, r.length = w) (m : Nat) :
    rs.flatten.take (m * w) = (rs.take m).flatten ∧
      rs.flatten.drop (m * w) = (rs.drop m).flatten := by
  have hall : rs.flatten = (rs.take m).flatten ++ (rs.drop m).flatten := by
    rw [← List.flatten_append, List.take_append_drop]
  have hlen := length_flatten_blocks fun r hr => h r (List.mem_of_mem_take (i := m) hr)
  rw [List.length_take] at hlen
  rcases Nat.le_total m rs.length with hm | hm
  · rw [Nat.min_eq_left hm] at hlen
    rw [hall, ← hlen]
    exact ⟨List.take_left, List.drop_left⟩
  · have hle : rs.flatten.length ≤ m * w := by
      rw [length_flatten_blocks h]
      exact Nat.mul_le_mul_right w hm
    rw [List.take_of_length_le hm, List.drop_of_length_le hm, List.take_of_length_le hle,
      List.drop_of_length_le hle]
    exact ⟨rfl, rfl⟩

/-- Records are read back whatever lies behind them. -/
theorem blocks_flatten {rs : List (List α)} (h : ∀ r ∈ rs, r.length = w) :
    ∀ {bs : List α}, rs.flatten <+: bs → blocks w rs.length bs = rs := by
  induction rs with
  | nil => intro bs _; rfl
  | cons r rs ih =>
      rintro bs ⟨rest, rfl⟩
      have hr := h r List.mem_cons_self
      rw [List.flatten_cons, List.append_assoc, List.length_cons, blocks_succ, slice,
        List.drop_zero, ← hr, List.take_left, List.drop_left, hr]
      rw [ih (fun x hx => h x (List.mem_cons_of_mem _ hx)) (List.prefix_append _ _)]

end EDRStore
