/-
# `EDRStore.QueueCapacity` — the blocks that the constructor makes

`ceilToPow2` rounds up by smearing the highest bit over the word.  With what it
returns the constructor has room for `size` items at any time: in one block with
a slot to spare, or in so many blocks that all but one of them hold as much.
-/
import EDRStore.QueueLayout

namespace EDRStore

namespace ReaderWriterQueue

variable {α : Type}

/-! ## The size of a block -/

/-- `ceilToPow2` between its decrement and its increment. -/
def smear (x : UInt64) : UInt64 :=
  let x := x ||| x >>> 1
  let x := x ||| x >>> 2
  let x := x ||| x >>> 4
  ([1, 2, 4] : List UInt64).foldl (fun (x i : UInt64) => x ||| x >>> (i <<< 3)) x

theorem ceilToPow2_eq (x : UInt64) : ceilToPow2 x = smear (x - 1) + 1 := rfl

/-- One shift of it, on numbers. -/
theorem smeared_shift {x y k : UInt64} {m : Nat} (hk : k.toNat % 64 = m)
    (h : Slots.Smeared m x.toNat y.toNat) :
    Slots.Smeared (2 * m) x.toNat (y ||| y >>> k).toNat := by
  rw [UInt64.toNat_or, UInt64.toNat_shiftRight, hk]
  exact h.shift

theorem smear_smeared (x : UInt64) : Slots.Smeared 64 x.toNat (smear x).toNat := by
  have h1 := smeared_shift (k := 1) rfl (Slots.smeared_one (x := x.toNat))
  have h2 := smeared_shift (k := 2) rfl h1
  have h4 := smeared_shift (k := 4) rfl h2
  have h8 := smeared_shift (k := (1 : UInt64) <<< 3) rfl h4
  have h16 := smeared_shift (k := (2 : UInt64) <<< 3) rfl h8
  exact smeared_shift (k := (4 : UInt64) <<< 3) rfl h16

/-- The least power of two that is not less than `x`. -/
theorem ceilToPow2_spec {x : UInt64} (hx : 0 < x.toNat) (hlt : x.toNat ≤ 2 ^ 63) :
    ∃ p, p ≤ 63 ∧ (ceilToPow2 x).toNat = 2 ^ p ∧ x.toNat ≤ 2 ^ p ∧ 2 ^ p < 2 * x.toNat := by
  have hsub : (x - 1).toNat = x.toNat - 1 :=
    UInt64.toNat_sub_of_le x 1 (UInt64.le_iff_toNat_le.mpr hx)
  rcases Nat.eq_zero_or_pos (x.toNat - 1) with hone | hpos
  · have hx1 : x = 1 := UInt64.toNat_inj.mp (by rw [show x.toNat = 1 by omega]; rfl)
    subst hx1
    exact ⟨0, by omega, by decide, by decide, by decide⟩
  · obtain ⟨p, hp, hlog⟩ : ∃ p, 2 ^ p ≤ x.toNat - 1 ∧ x.toNat - 1 < 2 ^ (p + 1) :=
      ⟨(x.toNat - 1).log2, Nat.log2_self_le (Nat.ne_of_gt hpos), Nat.lt_log2_self⟩
    have hp63 : p < 63 := (Nat.pow_lt_pow_iff_right Nat.one_lt_two).mp (by omega)
    have hones : (smear (x - 1)).toNat = 2 ^ (p + 1) - 1 := by
      have hsm := smear_smeared (x - 1)
      rw [hsub] at hsm
      exact hsm.eq_two_pow (by omega) hp hlog
    have hone : 1 ≤ 2 ^ (p + 1) := Nat.one_le_two_pow
    have hword : 2 ^ (p + 1) < 2 ^ 64 := Nat.pow_lt_pow_right Nat.one_lt_two (by omega)
    refine ⟨p + 1, by omega, ?_, by omega, ?_⟩
    · rw [ceilToPow2_eq, UInt64.toNat_add, hones]
      show (2 ^ (p + 1) - 1 + 1) % 2 ^ 64 = 2 ^ (p + 1)
      rw [Nat.sub_add_cancel hone, Nat.mod_eq_of_lt hword]
    · rw [Nat.pow_succ]
      omega

/-! ## The circle of blocks -/

/-- The constructor's loop leaves the blocks linked in a circle. -/
theorem linkBlocks_next (capacity : Nat) {m i : Nat} (hi : i < m) :
    (linkBlocks capacity m i : Block α) =
      { makeBlock capacity with next := if i + 1 = m then 0 else i + 1 } := by
  induction m with
  | zero => omega
  | succ m ih =>
      simp only [linkBlocks]
      rcases eq_or_ne i m with rfl | hne
      · rw [Function.update_self, if_pos rfl]
      · have hi : i < m := by omega
        rw [Function.update_of_ne hne, if_neg (by omega : ¬ m = 0), if_neg (by omega)]
        rcases eq_or_ne i (m - 1) with rfl | hne'
        · rw [Function.update_self, ih hi]
          show ({ makeBlock capacity with next := m } : Block α) = _
          rw [Nat.sub_add_cancel (by omega)]
        · rw [Function.update_of_ne hne', ih hi, if_neg (by omega)]

/-- How many items the blocks have room for at any time. -/
def room (size n : Nat) : Nat := if n = 1 then size - 1 else (n - 1) * (size - 1)

/-- The blocks that the constructor makes are of a power of two and have room for
what was asked for. -/
theorem blockLayout_spec (maxQueueSize : UInt32) :
    ∃ size n, blockLayout maxQueueSize.toUInt64 = (size, n) ∧ 0 < n ∧ (1 < n → 1 < size) ∧
      (∃ p, p ≤ 64 ∧ size = 2 ^ p) ∧ maxQueueSize.toNat ≤ room size n := by
  have hmax : maxQueueSize.toNat < 2 ^ 32 := maxQueueSize.toNat_lt
  have hadd : (maxQueueSize.toUInt64 + 1).toNat = maxQueueSize.toNat + 1 := by
    rw [UInt64.toNat_add]
    show (maxQueueSize.toNat + 1) % 2 ^ 64 = _
    exact Nat.mod_eq_of_lt (by omega)
  obtain ⟨p, hp, hceil, hle, htight⟩ :=
    ceilToPow2_spec (x := maxQueueSize.toUInt64 + 1) (by omega) (by omega)
  rw [hadd] at hle htight
  rw [blockLayout]
  simp only [hceil, maxBlockSize]
  split
  · -- so much more than a block holds that one block is to spare
    rename_i hbig
    have hn : (maxQueueSize.toNat + 512 * 2 - 3) / (512 - 1) =
        (maxQueueSize.toNat + 510) / 511 + 1 := by omega
    refine ⟨512, _, rfl, ?_, fun _ => by omega, ⟨9, by omega, rfl⟩, ?_⟩
    · show 0 < (maxQueueSize.toNat + 512 * 2 - 3) / (512 - 1)
      omega
    · show maxQueueSize.toNat ≤ room 512 ((maxQueueSize.toNat + 512 * 2 - 3) / (512 - 1))
      rw [room, if_neg (by omega), hn]
      omega
  · refine ⟨2 ^ p, 1, rfl, Nat.one_pos, fun h => absurd h (Nat.lt_irrefl 1), ⟨p, by omega, rfl⟩, ?_⟩
    rw [room, if_pos rfl]
    omega

/-- A fresh block holds nothing. -/
theorem blockOk_fresh {size next : Nat} (hsize : 0 < size) :
    BlockOk size { (makeBlock size : Block α) with next := next } 0 [] where
  sizeMask := rfl
  front_lt := hsize
  localFront_lt := hsize
  holds := by
    show Slots.Holds size ((0 + 0) % size) 0 _ []
    rw [Nat.mod_eq_of_lt hsize]
    exact Slots.holds_nil hsize
  localFront := ⟨0, (Nat.mod_eq_of_lt hsize).symm, hsize⟩
  localTail := ⟨0, Nat.le_refl 0, (Nat.mod_eq_of_lt hsize).symm⟩

theorem layout_new {size n : Nat} {maxQueueSize : UInt64}
    (h : blockLayout maxQueueSize = (size, n)) (hn : 0 < n) (hwide : 1 < n → 1 < size)
    (hpow : ∃ p, p ≤ 64 ∧ size = 2 ^ p) :
    Layout size n (new maxQueueSize : Queue α) [] [] (fun _ => []) 0 where
  pow := hpow
  wide := hwide
  front_lt := hn
  tail_eq := (Nat.mod_eq_of_lt hn).symm
  d_lt := hn
  next := by
    intro i hi
    simp only [new, h, linkBlocks_next size hi]
    split
    · rename_i heq
      rw [heq, Nat.mod_self]
    · rename_i hne
      exact (Nat.mod_eq_of_lt (by omega)).symm
  block := by
    intro i hi
    obtain ⟨p, -, rfl⟩ := hpow
    simp only [new, h, linkBlocks_next _ hi, List.length_nil, ite_self]
    exact blockOk_fresh (Nat.two_pow_pos p)
  filled := fun j hj hjd => absurd hj (by omega)
  full := fun j hj hjd => absurd hj (by omega)
  beyond := fun j _ _ => by rw [ite_self]
  ahead_lt := fun hne => absurd rfl hne

end ReaderWriterQueue

end EDRStore
