/-
# `EDRStore.Lib.Slots` — a list in a circle of slots

Two indices into a circle of `size` slots: the list begins at `front` and the
next item goes to `tail`.  One slot always stays free, so that equal indices
mean an empty list and not a full circle.

Indices are advanced by masking, so sizes are powers of two.  `Smeared` says
what the shifts that find such a size leave in a word.
-/
import Mathlib.Data.Nat.Bitwise
import Mathlib.Data.Nat.Log
import Mathlib.Data.Nat.ModEq
import Mathlib.Logic.Function.Basic

namespace EDRStore

namespace Slots

variable {α : Type} {size front tail i j n : Nat} {data : Nat → Option α} {l : List α} {x : α}

/-! ## Slots -/

/-- Slots less than a round apart are different. -/
theorem slot_injective (hi : i < size) (hj : j < size)
    (h : (front + i) % size = (front + j) % size) : i = j := by
  have hmod : i % size = j % size := Nat.ModEq.add_left_cancel' front h
  rwa [Nat.mod_eq_of_lt hi, Nat.mod_eq_of_lt hj] at hmod

theorem succ_slot : ((front + i) % size + 1) % size = (front + (i + 1)) % size := by
  rw [Nat.mod_add_mod, Nat.add_assoc]

theorem slot_slot : ((front + i) % size + j) % size = (front + (i + j)) % size := by
  rw [Nat.mod_add_mod, Nat.add_assoc]

theorem slot_eq_self_iff (hfront : front < size) (hi : i < size) :
    (front + i) % size = front ↔ i = 0 := by
  constructor
  · intro h
    have hself : front = (front + 0) % size := (Nat.mod_eq_of_lt hfront).symm
    exact slot_injective hi (Nat.zero_lt_of_lt hi) (h.trans hself)
  · rintro rfl
    exact Nat.mod_eq_of_lt hfront

/-- The slot after the last one of a round is the first. -/
theorem succ_slot_eq_self_iff (hfront : front < size) (hi : i < size) :
    ((front + i) % size + 1) % size = front ↔ i + 1 = size := by
  rw [succ_slot]
  constructor
  · intro h
    by_contra hne
    exact absurd ((slot_eq_self_iff hfront (Nat.lt_of_le_of_ne hi hne)).mp h) (Nat.succ_ne_zero i)
  · intro h
    rw [h, Nat.add_mod_right, Nat.mod_eq_of_lt hfront]

/-- How far one slot is ahead of another, in unsigned arithmetic. -/
theorem sub_slot {word : Nat} (hword : size ∣ word) (hle : size ≤ word) (hfront : front < size)
    (hi : i < size) : (word + (front + i) % size - front) % word % size = i := by
  rw [Nat.mod_mod_of_dvd _ hword]
  obtain ⟨k, rfl⟩ := hword
  have hslot : (front + i) % size = front + i ∨ (front + i) % size + size = front + i := by
    rcases Nat.lt_or_ge (front + i) size with hlt | hge
    · exact Or.inl (Nat.mod_eq_of_lt hlt)
    · refine Or.inr ?_
      rw [Nat.mod_eq_sub_mod hge, Nat.mod_eq_of_lt (by omega)]
      omega
  rcases hslot with h | h
  · have hsub : size * k + (front + i) % size - front = i + size * k := by omega
    rw [hsub, Nat.add_mul_mod_self_left, Nat.mod_eq_of_lt hi]
  · -- the tail has come round, so that the difference borrows one round
    have hk : k = (k - 1) + 1 := by
      cases k with
      | zero => omega
      | succ k => rfl
    have hsub : size * k + (front + i) % size - front = i + size * (k - 1) := by
      have hmul : size * k = size * (k - 1) + size := by
        conv_lhs => rw [hk, Nat.mul_succ]
      omega
    rw [hsub, Nat.add_mul_mod_self_left, Nat.mod_eq_of_lt hi]

/-! ## The list between two slots -/

/-- The slots from `front` up to `tail` hold `l`. -/
structure Holds (size front tail : Nat) (data : Nat → Option α) (l : List α) : Prop where
  room : l.length < size
  front_lt : front < size
  tail_eq : tail = (front + l.length) % size
  slots : ∀ i x, l[i]? = some x → data ((front + i) % size) = some x

theorem holds_nil (h : front < size) : Holds size front front data [] where
  room := Nat.zero_lt_of_lt h
  front_lt := h
  tail_eq := (Nat.mod_eq_of_lt h).symm
  slots := fun _ _ hx => by cases hx

namespace Holds

theorem tail_lt (h : Holds size front tail data l) : tail < size := by
  rw [h.tail_eq]
  exact Nat.mod_lt _ (Nat.zero_lt_of_lt h.front_lt)

/-- What is written behind the last item disturbs none. -/
theorem write (h : Holds size front tail data l) (y : Option α) :
    Holds size front tail (Function.update data tail y) l where
  room := h.room
  front_lt := h.front_lt
  tail_eq := h.tail_eq
  slots := by
    intro i x hx
    have hi : i < l.length := (List.getElem?_eq_some_iff.mp hx).1
    rw [Function.update_of_ne, h.slots i x hx]
    rw [h.tail_eq]
    exact fun heq => absurd (slot_injective (hi.trans h.room) h.room heq) (Nat.ne_of_lt hi)

/-- It becomes an item when the tail moves past it. -/
theorem push (h : Holds size front tail data l) (hroom : l.length + 1 < size)
    (hx : data tail = some x) : Holds size front ((tail + 1) % size) data (l ++ [x]) where
  room := by rw [List.length_append]; exact hroom
  front_lt := h.front_lt
  tail_eq := by rw [h.tail_eq, succ_slot, List.length_append, List.length_singleton]
  slots := by
    intro i y hy
    rcases Nat.lt_trichotomy i l.length with hlt | rfl | hgt
    · rw [List.getElem?_append_left hlt] at hy
      exact h.slots i y hy
    · rw [List.getElem?_concat_length] at hy
      cases hy
      rw [← h.tail_eq]
      exact hx
    · rw [List.getElem?_eq_none (by rw [List.length_append]; exact hgt)] at hy
      cases hy

theorem head (h : Holds size front tail data (x :: l)) : data front = some x := by
  have hslot := h.slots 0 x rfl
  rwa [Nat.add_zero, Nat.mod_eq_of_lt h.front_lt] at hslot

/-- The first item leaves, and its slot with it. -/
theorem pop (h : Holds size front tail data (x :: l)) (y : Option α) :
    Holds size ((front + 1) % size) tail (Function.update data front y) l where
  room := Nat.lt_of_succ_lt h.room
  front_lt := Nat.mod_lt _ (Nat.zero_lt_of_lt h.front_lt)
  tail_eq := by rw [h.tail_eq, slot_slot, List.length_cons, Nat.add_comm 1]
  slots := by
    intro i z hz
    have hi : i + 1 < size :=
      (Nat.succ_lt_succ (List.getElem?_eq_some_iff.mp hz).1).trans h.room
    rw [slot_slot, Nat.add_comm 1, Function.update_of_ne, h.slots (i + 1) z hz]
    exact fun heq => absurd ((slot_eq_self_iff h.front_lt hi).mp heq) (Nat.succ_ne_zero i)

end Holds

/-! ## The next power of two -/

/-- A bit of `y` is set just when one of the `n` bits of `x` from it on is. -/
def Smeared (n x y : Nat) : Prop := ∀ i, y.testBit i = true ↔ ∃ j, j < n ∧ x.testBit (i + j) = true

variable {x y p : Nat}

theorem smeared_one : Smeared 1 x x := by
  intro i
  constructor
  · exact fun h => ⟨0, Nat.one_pos, h⟩
  · rintro ⟨j, hj, hx⟩
    rwa [Nat.lt_one_iff.mp hj] at hx

/-- Shifting by as much as was smeared smears twice as much. -/
theorem Smeared.shift (h : Smeared n x y) : Smeared (2 * n) x (y ||| y >>> n) := by
  intro i
  rw [Nat.testBit_or, Nat.testBit_shiftRight, Bool.or_eq_true, h i, h (n + i)]
  constructor
  · rintro (⟨j, hj, hx⟩ | ⟨j, hj, hx⟩)
    · exact ⟨j, by omega, hx⟩
    · exact ⟨n + j, by omega, by rwa [show i + (n + j) = n + i + j by omega]⟩
  · rintro ⟨j, hj, hx⟩
    rcases Nat.lt_or_ge j n with hlt | hge
    · exact Or.inl ⟨j, hlt, hx⟩
    · exact Or.inr ⟨j - n, by omega, by rwa [show n + i + (j - n) = i + j by omega]⟩

/-- A word smeared over its whole width is all ones up to its highest bit. -/
theorem Smeared.eq_two_pow (h : Smeared n x y) (hx : x < 2 ^ n) (hp : 2 ^ p ≤ x)
    (hlt : x < 2 ^ (p + 1)) : y = 2 ^ (p + 1) - 1 := by
  have hpn : p < n := (Nat.pow_lt_pow_iff_right Nat.one_lt_two).mp (hp.trans_lt hx)
  have htop : x.testBit p = true := by
    obtain ⟨i, hi, hbit⟩ := Nat.exists_ge_and_testBit_of_ge_two_pow hp
    rcases Nat.lt_or_ge p i with hlt' | hge
    · have hpow : 2 ^ (p + 1) ≤ 2 ^ i := Nat.pow_le_pow_right Nat.two_pos hlt'
      rw [Nat.testBit_lt_two_pow (hlt.trans_le hpow)] at hbit
      cases hbit
    · rwa [Nat.le_antisymm hge hi] at hbit
  apply Nat.eq_of_testBit_eq
  intro i
  rw [Nat.testBit_two_pow_sub_one, Bool.eq_iff_iff, decide_eq_true_iff, h i]
  constructor
  · rintro ⟨j, -, hbit⟩
    by_contra hge
    have hpow : 2 ^ (p + 1) ≤ 2 ^ (i + j) :=
      Nat.pow_le_pow_right Nat.two_pos (by omega)
    rw [Nat.testBit_lt_two_pow (hlt.trans_le hpow)] at hbit
    cases hbit
  · intro hi
    exact ⟨p - i, by omega, by rwa [show i + (p - i) = p by omega]⟩

end Slots

end EDRStore
