/-
# `EDRStore.Lib.Gf2` — natural numbers as polynomials over GF(2)

The bits of a number are the coefficients of a polynomial.  Exclusive or is
addition, a shift is multiplication by a power of `X`, and a number below `2 ^ k`
is a polynomial of degree below `k`.  So arithmetic on words is followed in the
quotient by a modulus (`cls`), and read back at the end: a number small enough
that lies in the class of another is its residue (`poly_eq_modByMonic`).
-/
import Mathlib.Algebra.Field.ZMod
import Mathlib.Algebra.Polynomial.Div
import Mathlib.RingTheory.Ideal.Quotient.Basic
import Mathlib.Tactic.Ring

namespace EDRStore.Gf2

open Polynomial

/-- A bit as a coefficient. -/
def bit (b : Bool) : ZMod 2 := if b then 1 else 0

theorem bit_xor (a b : Bool) : bit (a ^^ b) = bit a + bit b := by
  cases a <;> cases b <;> decide

theorem bit_injective : Function.Injective bit := by decide

/-- The polynomial whose coefficients are the bits of `n`. -/
noncomputable def poly (n : Nat) : (ZMod 2)[X] :=
  ∑ i ∈ Finset.range n, C (bit (n.testBit i)) * X ^ i

@[simp] theorem coeff_poly (n i : Nat) : (poly n).coeff i = bit (n.testBit i) := by
  rw [poly, finsetSum_coeff]
  simp only [coeff_C_mul_X_pow]
  rw [Finset.sum_ite_eq]
  split
  · rfl
  · rename_i h
    have hle : n ≤ i := Nat.not_lt.mp fun hlt => h (Finset.mem_range.mpr hlt)
    rw [Nat.testBit_lt_two_pow (Nat.lt_of_le_of_lt hle i.lt_two_pow_self)]
    rfl

/-- A number is read back from its polynomial. -/
theorem poly_injective : Function.Injective poly := by
  intro a b h
  refine Nat.eq_of_testBit_eq fun i => bit_injective ?_
  rw [← coeff_poly, ← coeff_poly, h]

@[simp] theorem poly_zero : poly 0 = 0 := rfl

theorem poly_xor (a b : Nat) : poly (a ^^^ b) = poly a + poly b := by
  ext i
  rw [coeff_add, coeff_poly, coeff_poly, coeff_poly, Nat.testBit_xor, bit_xor]

/-- The high part of a number and the `k` bits below it. -/
theorem poly_two_pow_mul_add {k b : Nat} (hb : b < 2 ^ k) (a : Nat) :
    poly (2 ^ k * a + b) = X ^ k * poly a + poly b := by
  ext i
  rw [coeff_add, coeff_X_pow_mul', coeff_poly, coeff_poly, Nat.testBit_two_pow_mul_add a hb i]
  by_cases h : i < k
  · rw [if_pos h, if_neg (Nat.not_le.mpr h), zero_add, coeff_poly]
  · have hlow : b.testBit i = false :=
      Nat.testBit_lt_two_pow (hb.trans_le (Nat.pow_le_pow_right (by decide) (Nat.not_lt.mp h)))
    rw [if_neg h, if_pos (Nat.not_lt.mp h), coeff_poly, hlow]
    exact (add_zero _).symm

theorem poly_two_pow_mul (k a : Nat) : poly (2 ^ k * a) = X ^ k * poly a := by
  have h := poly_two_pow_mul_add (Nat.two_pow_pos k) a
  rwa [poly_zero, Nat.add_zero, add_zero] at h

theorem poly_one : poly 1 = 1 := by
  ext i
  rw [coeff_poly, coeff_one]
  cases i with
  | zero => rfl
  | succ i => rw [Nat.testBit_lt_two_pow (Nat.one_lt_two_pow (Nat.succ_ne_zero i))]; rfl

theorem poly_two_pow (k : Nat) : poly (2 ^ k) = X ^ k := by
  have h := poly_two_pow_mul k 1
  rwa [Nat.mul_one, poly_one, mul_one] at h

theorem degree_poly_lt_iff {n k : Nat} : (poly n).degree < k ↔ n < 2 ^ k := by
  rw [degree_lt_iff_coeff_zero]
  refine ⟨fun h => Nat.lt_pow_two_of_testBit n fun i hi => ?_, fun h i hi => ?_⟩
  · have hc := h i hi
    rw [coeff_poly] at hc
    exact bit_injective hc
  · rw [coeff_poly, Nat.testBit_lt_two_pow (h.trans_le (Nat.pow_le_pow_right (by decide) hi))]
    rfl

/-- A number whose top bit is bit `k`. -/
structure Top (k d : Nat) : Prop where
  le : 2 ^ k ≤ d
  lt : d < 2 ^ (k + 1)

theorem Top.testBit {k d : Nat} (h : Top k d) : d.testBit k = true := by
  have hlt := h.lt
  rw [Nat.testBit_eq_decide_div_mod_eq, Nat.div_eq_of_lt_le (by rw [Nat.one_mul]; exact h.le)
    (by rw [Nat.pow_succ] at hlt; omega)]
  rfl

theorem Top.monic {k d : Nat} (h : Top k d) : (poly d).Monic := by
  refine monic_of_degree_le k (Order.lt_succ_iff.mp ?_) ?_
  · exact degree_poly_lt_iff.mpr h.lt
  · rw [coeff_poly, h.testBit]
    rfl

theorem Top.degree {k d : Nat} (h : Top k d) : (poly d).degree = k := by
  refine le_antisymm (Order.lt_succ_iff.mp (degree_poly_lt_iff.mpr h.lt)) (le_degree_of_ne_zero ?_)
  rw [coeff_poly, h.testBit]
  decide

/-- Two numbers with the same top bit: it cancels. -/
theorem xor_lt_of_top {k a b : Nat} (ha : Top k a) (hb : Top k b) : a ^^^ b < 2 ^ k := by
  refine Nat.lt_pow_two_of_testBit _ fun i hi => ?_
  rw [Nat.testBit_xor]
  rcases Nat.eq_or_lt_of_le hi with rfl | hlt
  · rw [ha.testBit, hb.testBit]
    rfl
  · have hpow : 2 ^ (k + 1) ≤ 2 ^ i := Nat.pow_le_pow_right (by decide) hlt
    rw [Nat.testBit_lt_two_pow (ha.lt.trans_le hpow), Nat.testBit_lt_two_pow (hb.lt.trans_le hpow)]
    rfl

/-! ## Modulo a polynomial -/

/-- The residue classes modulo `d`. -/
abbrev Mod (d : Nat) : Type := (ZMod 2)[X] ⧸ Ideal.span {poly d}

/-- The class of a polynomial. -/
noncomputable abbrev mk (d : Nat) : (ZMod 2)[X] →+* Mod d := Ideal.Quotient.mk _

/-- The class of a number. -/
noncomputable def cls (d n : Nat) : Mod d := mk d (poly n)

/-- The class of `X`. -/
noncomputable def var (d : Nat) : Mod d := mk d X

section Cls

variable {d : Nat}

@[simp] theorem cls_zero : cls d 0 = 0 := by rw [cls, poly_zero, map_zero]

theorem cls_one : cls d 1 = 1 := by rw [cls, poly_one, map_one]

theorem cls_xor (a b : Nat) : cls d (a ^^^ b) = cls d a + cls d b := by
  rw [cls, poly_xor, map_add]
  rfl

theorem cls_two_pow_mul_add {k b : Nat} (hb : b < 2 ^ k) (a : Nat) :
    cls d (2 ^ k * a + b) = var d ^ k * cls d a + cls d b := by
  rw [cls, poly_two_pow_mul_add hb, map_add, map_mul, map_pow]
  rfl

theorem cls_two_pow_mul (k a : Nat) : cls d (2 ^ k * a) = var d ^ k * cls d a := by
  rw [cls, poly_two_pow_mul, map_mul, map_pow]
  rfl

theorem cls_two_pow (k : Nat) : cls d (2 ^ k) = var d ^ k := by
  rw [cls, poly_two_pow, map_pow]
  rfl

/-- The modulus itself vanishes. -/
@[simp] theorem cls_self : cls d d = 0 :=
  Ideal.Quotient.eq_zero_iff_mem.mpr (Ideal.mem_span_singleton_self _)

theorem cls_add_self (a : Mod d) : a + a = 0 := by
  obtain ⟨p, rfl⟩ := Ideal.Quotient.mk_surjective a
  rw [← map_add, CharTwo.add_self_eq_zero, map_zero]

theorem mk_eq_iff {p q : (ZMod 2)[X]} : mk d p = mk d q ↔ poly d ∣ p - q := by
  rw [Ideal.Quotient.eq, Ideal.mem_span_singleton]

/-- A number below the top bit of the modulus is the residue of what lies in its
class. -/
theorem poly_eq_modByMonic {k r : Nat} (hd : Top k d) (hr : r < 2 ^ k) {p : (ZMod 2)[X]}
    (h : cls d r = mk d p) : poly r = p %ₘ poly d := by
  have hdvd : poly d ∣ poly r - p := mk_eq_iff.mp h
  have hself : poly r %ₘ poly d = poly r := by
    rw [modByMonic_eq_self_iff hd.monic, hd.degree]
    exact degree_poly_lt_iff.mpr hr
  rw [← hself]
  exact modByMonic_eq_of_dvd_sub hd.monic hdvd

/-- There is one such number in each class. -/
theorem eq_of_cls_eq {k a b : Nat} (hd : Top k d) (ha : a < 2 ^ k) (hb : b < 2 ^ k)
    (h : cls d a = cls d b) : a = b := by
  refine poly_injective ?_
  rw [poly_eq_modByMonic hd ha h, ← poly_eq_modByMonic hd hb rfl]

end Cls

end EDRStore.Gf2
