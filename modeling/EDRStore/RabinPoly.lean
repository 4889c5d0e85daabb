/-
# `EDRStore.RabinPoly` — the rolling fingerprint and what it computes

`rabin_poly.cc` multiplies and reduces polynomials over GF(2) in 64-bit words, a
product of two words being a pair of them.  From these it builds two tables: `T_`
reduces the eight bits that an appended byte pushes out at the top, `U_` holds
what a byte has grown to when it leaves the window.  Sliding a byte in looks up
both and takes three exclusive ors.

What comes out is the residue, modulo the fixed polynomial, of the last
`window_size` bytes (`rolling_fingerprint`).  The index of the constructor's loop
is a `uint32_t`, which never reaches a window size of 2^32 or more.
-/
import EDRStore.Lib.Gf2
import EDRStore.Lib.Bytes
import EDRStore.Data
import Mathlib.Data.Nat.Bitwise
import Mathlib.Tactic.LinearCombination

namespace EDRStore

open Gf2

/-! ## Words -/

/-- `x & (1 << i)`. -/
def hasBit (x : UInt64) (i : Nat) : Bool := x &&& (1 <<< UInt64.ofNat i) != 0

/-- `fls32`. -/
def fls32 (x : UInt32) : Nat :=
  if x = 0 then 0
  else
    let (x, r) := if x &&& 0xffff0000 = 0 then (x <<< 16, 32 - 16) else (x, 32)
    let (x, r) := if x &&& 0xff000000 = 0 then (x <<< 8, r - 8) else (x, r)
    let (x, r) := if x &&& 0xf0000000 = 0 then (x <<< 4, r - 4) else (x, r)
    let (x, r) := if x &&& 0xc0000000 = 0 then (x <<< 2, r - 2) else (x, r)
    if x &&& 0x80000000 = 0 then r - 1 else r

/-- `fls64`: the position of the last bit set, from one. -/
def fls64 (v : UInt64) : Nat :=
  let h := (v >>> 32).toUInt32
  if h ≠ 0 then 32 + fls32 h else fls32 v.toUInt32

/-- The first loop of `polymod`, for `i` from `n - 1` down to 0. -/
def polymodHigh (d : UInt64) : Nat → UInt64 × UInt64 → UInt64 × UInt64
  | 0, v => v
  | i + 1, v =>
      polymodHigh d i
        (if hasBit v.1 i then
          (v.1 ^^^ d >>> UInt64.ofNat (63 - i), v.2 ^^^ d <<< UInt64.ofNat (i + 1))
        else v)

/-- The second loop, for `i` from `k + n - 1` down to `k`. -/
def polymodLow (d : UInt64) (k : Nat) : Nat → UInt64 → UInt64
  | 0, nl => nl
  | n + 1, nl =>
      polymodLow d k n
        (if hasBit nl (k + n) then nl ^^^ d >>> UInt64.ofNat (63 - (k + n)) else nl)

/-- `polymod`. -/
def polymod (nh nl d : UInt64) : UInt64 :=
  let k := fls64 d - 1
  let d := d <<< UInt64.ofNat (63 - k)
  let v :=
    if nh ≠ 0 then polymodHigh d 63 (if hasBit nh 63 then nh ^^^ d else nh, nl) else (nh, nl)
  polymodLow d k (64 - k) v.2

/-- The loop of `polymult` after the bits up to `n`: `ph` and `pl`. -/
def polymultLoop (x y : UInt64) : Nat → UInt64 × UInt64
  | 0 => (0, if x &&& 1 ≠ 0 then y else 0)
  | n + 1 =>
      let v := polymultLoop x y n
      if hasBit x (n + 1) then
        (v.1 ^^^ y >>> UInt64.ofNat (64 - (n + 1)), v.2 ^^^ y <<< UInt64.ofNat (n + 1))
      else v

/-- `polymult`. -/
def polymult (x y : UInt64) : UInt64 × UInt64 := polymultLoop x y 63

/-- `polymmult`. -/
def polymmult (x y d : UInt64) : UInt64 :=
  let v := polymult x y
  polymod v.1 v.2 d

/-! ## The fingerprint -/

/-- `fp_poly_`. -/
def fpPoly : UInt64 := 0xbfe6b8a5bf378d83

/-- `RabinCtx_t`. -/
structure RabinCtx where
  curPos : Nat
  circBuf : Bytes
  fp : UInt64
deriving DecidableEq

/-- The members that the constructor of `RabinFPUtil` sets. -/
structure RabinFPUtil where
  windowSize : Nat
  shift : Nat
  t : List UInt64
  u : List UInt64

namespace RabinFPUtil

/-- `RabinFPUtil::Append8` with the table `T_`; `none` outside of it. -/
def append8 (t : List UInt64) (shift : Nat) (p : UInt64) (m : UInt8) : Option UInt64 := do
  let x ← t[(p >>> UInt64.ofNat shift).toNat]?
  some (((p <<< 8) ||| m.toUInt64) ^^^ x)

/-- `x_shift`. -/
def xShift : Nat := fls64 fpPoly - 1

/-- `T_`. -/
def tTable : List UInt64 :=
  let t1 := polymod 0 (1 <<< UInt64.ofNat xShift) fpPoly
  (List.range 256).map fun i =>
    polymmult (UInt64.ofNat i) t1 fpPoly ||| UInt64.ofNat i <<< UInt64.ofNat xShift

/-- `U_`. -/
def uTable (sizeshift : UInt64) : List UInt64 :=
  (List.range 256).map fun i => polymmult (UInt64.ofNat i) sizeshift fpPoly

/-- The loop over `sizeshift`, whose index is a `uint32_t`; `none` when `k` turns are
not enough. -/
def sizeshiftLoop (windowSize : Nat) : Nat → Nat → UInt64 → Option UInt64
  | 0, _, _ => none
  | k + 1, i, sizeshift =>
      if i < windowSize then do
        let sizeshift ← append8 tTable (xShift - 8) sizeshift 0
        sizeshiftLoop windowSize k (u32 (i + 1)) sizeshift
      else some sizeshift

/-- The constructor of `RabinFPUtil`, with `k` turns for its loop. -/
def new (k windowSize : Nat) : Option RabinFPUtil := do
  let sizeshift ← sizeshiftLoop windowSize k 1 1
  some { windowSize := windowSize, shift := xShift - 8, t := tTable, u := uTable sizeshift }

variable (util : RabinFPUtil)

/-- `RabinFPUtil::ResetCtx`; the position is the largest `uint32_t`. -/
def resetCtx (ctx : RabinCtx) : RabinCtx :=
  { curPos := 2 ^ 32 - 1
    circBuf := memcpy ctx.circBuf 0 (List.replicate util.windowSize 0)
    fp := 0 }

/-- `RabinFPUtil::SlideOneByte`; `none` outside of the buffer or a table. -/
def slideOneByte (ctx : RabinCtx) (inputByte : UInt8) : Option (UInt64 × RabinCtx) := do
  let pos := u32 (ctx.curPos + 1)
  let pos := if util.windowSize ≤ pos then 0 else pos
  let om ← ctx.circBuf[pos]?
  let x ← util.u[om.toNat]?
  let fp ← append8 util.t util.shift (ctx.fp ^^^ x) inputByte
  some (fp, { curPos := pos, circBuf := ctx.circBuf.set pos inputByte, fp := fp })

/-- The values returned for some bytes, one after the other, and the context left. -/
def slide : RabinCtx → Bytes → Option (List UInt64 × RabinCtx)
  | ctx, [] => some ([], ctx)
  | ctx, b :: bs => do
      let r ← util.slideOneByte ctx b
      let rest ← slide r.2 bs
      some (r.1 :: rest.1, rest.2)

end RabinFPUtil

/-! ## Arithmetic on words -/

theorem toNat_ofNat_of_lt {i : Nat} (h : i < 64) : (UInt64.ofNat i).toNat % 64 = i := by
  rw [UInt64.toNat_ofNat_of_lt' (show i < 2 ^ 64 by omega), Nat.mod_eq_of_lt h]

theorem toNat_shr {i : Nat} (h : i < 64) (x : UInt64) :
    (x >>> UInt64.ofNat i).toNat = x.toNat / 2 ^ i := by
  rw [UInt64.toNat_shiftRight, toNat_ofNat_of_lt h, Nat.shiftRight_eq_div_pow]

theorem toNat_shl {i : Nat} (h : i < 64) (x : UInt64) :
    (x <<< UInt64.ofNat i).toNat = x.toNat * 2 ^ i % 2 ^ 64 := by
  rw [UInt64.toNat_shiftLeft, toNat_ofNat_of_lt h, Nat.shiftLeft_eq]

theorem hasBit_iff {i : Nat} (h : i < 64) (x : UInt64) : hasBit x i = x.toNat.testBit i := by
  have hone : (1 <<< UInt64.ofNat i : UInt64).toNat = 2 ^ i := by
    rw [toNat_shl h]
    exact (congrArg (· % 2 ^ 64) (Nat.one_mul _)).trans
      (Nat.mod_eq_of_lt (Nat.pow_lt_pow_right (by decide) h))
  have hand : (x &&& 1 <<< UInt64.ofNat i).toNat = (x.toNat.testBit i).toNat * 2 ^ i := by
    rw [UInt64.toNat_and, hone, Nat.and_two_pow]
  rw [hasBit]
  cases hb : x.toNat.testBit i with
  | false =>
      rw [hb, Bool.toNat_false, Nat.zero_mul] at hand
      rw [UInt64.toNat_inj.mp (hand.trans UInt64.toNat_zero.symm)]
      rfl
  | true =>
      rw [hb, Bool.toNat_true, Nat.one_mul] at hand
      refine bne_iff_ne.mpr fun h0 => ?_
      rw [h0] at hand
      exact absurd hand (Nat.two_pow_pos i).ne

/-- Below bit `i`, or bit `i` at the top. -/
theorem lt_or_top {x i : Nat} (h : x < 2 ^ (i + 1)) :
    (x.testBit i = false ∧ x < 2 ^ i) ∨ (x.testBit i = true ∧ Top i x) := by
  rcases Nat.lt_or_ge x (2 ^ i) with hlt | hge
  · exact Or.inl ⟨Nat.testBit_lt_two_pow hlt, hlt⟩
  · exact Or.inr ⟨Top.testBit ⟨hge, h⟩, ⟨hge, h⟩⟩

/-- The bits below `i + 1` are bit `i` and those below it. -/
theorem mod_two_pow_succ (x i : Nat) :
    x % 2 ^ (i + 1) = 2 ^ i * (x.testBit i).toNat + x % 2 ^ i := by
  have hbit : (x.testBit i).toNat = x / 2 ^ i % 2 := by
    rw [Nat.testBit_eq_decide_div_mod_eq]
    rcases Nat.mod_two_eq_zero_or_one (x / 2 ^ i) with h | h <;> rw [h] <;> rfl
  rw [hbit, Nat.pow_succ, Nat.mod_mul, Nat.add_comm]

section Classes

variable {m : Nat}

/-- A shift to the left, split over two words. -/
theorem cls_shifted {i : Nat} (hi : 1 ≤ i) (h : i < 64) (y : UInt64) :
    var m ^ 64 * cls m (y >>> UInt64.ofNat (64 - i)).toNat +
      cls m (y <<< UInt64.ofNat i).toNat = var m ^ i * cls m y.toNat := by
  have hdiv : y.toNat / 2 ^ (64 - i) = y.toNat * 2 ^ i / 2 ^ 64 := by
    rw [show (2 : Nat) ^ 64 = 2 ^ (64 - i) * 2 ^ i by rw [← Nat.pow_add]; congr 1; omega,
      Nat.mul_div_mul_right _ _ (Nat.two_pow_pos i)]
  rw [toNat_shr (by omega), toNat_shl h, hdiv,
    ← cls_two_pow_mul_add (Nat.mod_lt _ (Nat.two_pow_pos 64)), Nat.div_add_mod, Nat.mul_comm,
    cls_two_pow_mul]

/-- Reducing the high word, bit by bit: each step adds a multiple of the modulus and
clears the bit. -/
theorem polymodHigh_spec {d : UInt64} (hd : Top 63 d.toNat) (hm : cls m d.toNat = 0) {n : Nat}
    (hn : n ≤ 63) : ∀ {nh nl : UInt64}, nh.toNat < 2 ^ n →
      cls m (polymodHigh d n (nh, nl)).2.toNat = var m ^ 64 * cls m nh.toNat + cls m nl.toNat := by
  induction n with
  | zero =>
      intro nh nl h
      have h0 : nh.toNat = 0 := by rw [Nat.pow_zero] at h; omega
      rw [h0, cls_zero, mul_zero, zero_add, polymodHigh]
  | succ i ih =>
      intro nh nl h
      have hi : i < 63 := hn
      rw [polymodHigh, hasBit_iff (by omega)]
      rcases lt_or_top h with ⟨hb, hlt⟩ | ⟨hb, htop⟩
      · rw [if_neg (by rw [hb]; decide)]
        exact ih (by omega) hlt
      · have hshift : Top i (d >>> UInt64.ofNat (63 - i)).toNat := by
          rw [toNat_shr (by omega)]
          refine ⟨(Nat.le_div_iff_mul_le (Nat.two_pow_pos _)).mpr ?_,
            (Nat.div_lt_iff_lt_mul (Nat.two_pow_pos _)).mpr ?_⟩
          · rw [← Nat.pow_add, show i + (63 - i) = 63 by omega]
            exact hd.le
          · rw [← Nat.pow_add, show i + 1 + (63 - i) = 63 + 1 by omega]
            exact hd.lt
        have hxor := xor_lt_of_top htop hshift
        rw [if_pos hb, ih (by omega) (by rwa [UInt64.toNat_xor]), UInt64.toNat_xor,
          UInt64.toNat_xor, cls_xor, cls_xor]
        have hsh := cls_shifted (m := m) (Nat.le_add_left 1 i) (by omega) d
        rw [show 64 - (i + 1) = 63 - i by omega, hm, mul_zero] at hsh
        calc
          _ = var m ^ 64 * cls m nh.toNat + cls m nl.toNat +
              (var m ^ 64 * cls m (d >>> UInt64.ofNat (63 - i)).toNat +
                cls m (d <<< UInt64.ofNat (i + 1)).toNat) := by ring
          _ = _ := by rw [hsh, add_zero]

/-- Reducing the low word down to the degree of the modulus. -/
theorem polymodLow_spec {d d₀ : UInt64} {k : Nat} (hd : Top k d₀.toNat)
    (hdd : d.toNat = d₀.toNat * 2 ^ (63 - k)) {n : Nat} (hn : k + n ≤ 64) :
    ∀ {nl : UInt64}, nl.toNat < 2 ^ (k + n) →
      (polymodLow d k n nl).toNat < 2 ^ k ∧
        cls d₀.toNat (polymodLow d k n nl).toNat = cls d₀.toNat nl.toNat := by
  induction n with
  | zero => exact fun h => ⟨h, rfl⟩
  | succ n ih =>
      intro nl h
      rw [polymodLow, hasBit_iff (by omega)]
      rcases lt_or_top (i := k + n) h with ⟨hb, hlt⟩ | ⟨hb, htop⟩
      · rw [if_neg (by rw [hb]; decide)]
        exact ih (by omega) hlt
      · have hval : (d >>> UInt64.ofNat (63 - (k + n))).toNat = 2 ^ n * d₀.toNat := by
          rw [toNat_shr (by omega), hdd, show 63 - k = n + (63 - (k + n)) by omega, Nat.pow_add,
            ← Nat.mul_assoc, Nat.mul_div_cancel _ (Nat.two_pow_pos _), Nat.mul_comm]
        have hshift : Top (k + n) (2 ^ n * d₀.toNat) := by
          refine ⟨?_, ?_⟩
          · rw [Nat.pow_add, Nat.mul_comm]
            exact Nat.mul_le_mul_left _ hd.le
          · rw [show k + n + 1 = n + (k + 1) by omega, Nat.pow_add]
            exact Nat.mul_lt_mul_of_pos_left hd.lt (Nat.two_pow_pos n)
        have hxor := xor_lt_of_top htop hshift
        rw [if_pos hb]
        obtain ⟨hlt, hcls⟩ := @ih (by omega) (nl ^^^ d >>> UInt64.ofNat (63 - (k + n)))
          (by rwa [UInt64.toNat_xor, hval])
        refine ⟨hlt, hcls.trans ?_⟩
        rw [UInt64.toNat_xor, cls_xor, hval, cls_two_pow_mul, cls_self, mul_zero, add_zero]

/-- `polymod` is the residue of a pair of words, for a modulus whose top bit is found
by `fls64`. -/
theorem polymod_spec {d : UInt64} {k : Nat} (hk : fls64 d = k + 1) (hd : Top k d.toNat)
    (nh nl : UInt64) :
    (polymod nh nl d).toNat < 2 ^ k ∧
      cls d.toNat (polymod nh nl d).toNat =
        var d.toNat ^ 64 * cls d.toNat nh.toNat + cls d.toNat nl.toNat := by
  have hk64 : k < 64 := by
    have h := hd.le.trans_lt d.toNat_lt
    exact (Nat.pow_lt_pow_iff_right (by decide)).mp h
  have hval : (d <<< UInt64.ofNat (63 - k)).toNat = d.toNat * 2 ^ (63 - k) := by
    rw [toNat_shl (by omega)]
    refine Nat.mod_eq_of_lt ?_
    calc
      _ < 2 ^ (k + 1) * 2 ^ (63 - k) := Nat.mul_lt_mul_of_pos_right hd.lt (Nat.two_pow_pos _)
      _ = 2 ^ 64 := by rw [← Nat.pow_add]; congr 1; omega
  have htop : Top 63 (d <<< UInt64.ofNat (63 - k)).toNat := by
    refine ⟨?_, (UInt64.toNat_lt _)⟩
    rw [hval]
    calc
      2 ^ 63 = 2 ^ k * 2 ^ (63 - k) := by rw [← Nat.pow_add]; congr 1; omega
      _ ≤ _ := Nat.mul_le_mul_right _ hd.le
  have hzero : cls d.toNat (d <<< UInt64.ofNat (63 - k)).toNat = 0 := by
    rw [hval, Nat.mul_comm, cls_two_pow_mul, cls_self, mul_zero]
  have hlow : ∀ nl' : UInt64,
      (polymodLow (d <<< UInt64.ofNat (63 - k)) k (64 - k) nl').toNat < 2 ^ k ∧
        cls d.toNat (polymodLow (d <<< UInt64.ofNat (63 - k)) k (64 - k) nl').toNat =
          cls d.toNat nl'.toNat := fun nl' =>
    polymodLow_spec hd hval (by omega) (by
      rw [show k + (64 - k) = 64 by omega]
      exact nl'.toNat_lt)
  rw [polymod, hk, Nat.add_sub_cancel]
  by_cases h0 : nh = 0
  · simp only [h0, ne_eq, not_true, if_false]
    obtain ⟨hlt, hcls⟩ := hlow nl
    refine ⟨hlt, hcls.trans ?_⟩
    rw [UInt64.toNat_zero, cls_zero, mul_zero, zero_add]
  · simp only [ne_eq, h0, not_false_eq_true, if_true]
    obtain ⟨hlt, hcls⟩ := hlow (polymodHigh (d <<< UInt64.ofNat (63 - k)) 63
      (if hasBit nh 63 then nh ^^^ d <<< UInt64.ofNat (63 - k) else nh, nl)).2
    refine ⟨hlt, hcls.trans ?_⟩
    rw [hasBit_iff (by decide)]
    -- the top bit of the high word is cleared ahead of the loop
    rcases lt_or_top nh.toNat_lt with ⟨hb, hlt⟩ | ⟨hb, hnh⟩
    · rw [if_neg (by rw [hb]; decide)]
      exact polymodHigh_spec htop hzero (Nat.le_refl 63) hlt
    · have hxor := xor_lt_of_top hnh htop
      rw [if_pos hb, polymodHigh_spec htop hzero (Nat.le_refl 63) (by rwa [UInt64.toNat_xor]),
        UInt64.toNat_xor, cls_xor, hzero, add_zero]

/-- The bits of `x` up to `n`, times `y`. -/
theorem polymultLoop_spec (x y : UInt64) {n : Nat} (hn : n < 64) :
    var m ^ 64 * cls m (polymultLoop x y n).1.toNat + cls m (polymultLoop x y n).2.toNat =
      cls m (x.toNat % 2 ^ (n + 1)) * cls m y.toNat := by
  induction n with
  | zero =>
      rw [polymultLoop, UInt64.toNat_zero, cls_zero, mul_zero, zero_add]
      -- the lowest bit decides alone
      have hand : (x &&& 1).toNat = x.toNat % 2 := by
        rw [UInt64.toNat_and]
        exact Nat.and_one_is_mod _
      show cls m (if x &&& 1 ≠ 0 then y else 0).toNat = cls m (x.toNat % 2) * cls m y.toNat
      rcases Nat.mod_two_eq_zero_or_one x.toNat with h | h
      · have hx : x &&& 1 = 0 := UInt64.toNat_inj.mp (hand.trans h)
        rw [if_neg (not_not.mpr hx), h, UInt64.toNat_zero, cls_zero, zero_mul]
      · have hx : x &&& 1 ≠ 0 := fun h0 => by
          rw [h0, h] at hand
          exact absurd hand (by decide)
        rw [if_pos hx, h, cls_one, one_mul]
  | succ n ih =>
      have ih := ih (by omega)
      rw [polymultLoop, hasBit_iff hn, mod_two_pow_succ x.toNat (n + 1),
        cls_two_pow_mul_add (Nat.mod_lt _ (Nat.two_pow_pos _)), add_mul, ← ih]
      cases hb : x.toNat.testBit (n + 1) with
      | false =>
          rw [if_neg (by decide), Bool.toNat_false, cls_zero, mul_zero, zero_mul, zero_add]
      | true =>
          have hsh := cls_shifted (m := m) (Nat.le_add_left 1 n) hn y
          rw [if_pos rfl, Bool.toNat_true, cls_one, mul_one, UInt64.toNat_xor, UInt64.toNat_xor,
            cls_xor, cls_xor, ← hsh]
          ring

theorem polymult_spec (x y : UInt64) :
    var m ^ 64 * cls m (polymult x y).1.toNat + cls m (polymult x y).2.toNat =
      cls m x.toNat * cls m y.toNat := by
  have h := polymultLoop_spec (m := m) x y (n := 63) (by decide)
  rwa [Nat.mod_eq_of_lt x.toNat_lt] at h

/-- `polymmult` is the product modulo `d`. -/
theorem polymmult_spec {d : UInt64} {k : Nat} (hk : fls64 d = k + 1) (hd : Top k d.toNat)
    (x y : UInt64) :
    (polymmult x y d).toNat < 2 ^ k ∧
      cls d.toNat (polymmult x y d).toNat = cls d.toNat x.toNat * cls d.toNat y.toNat := by
  obtain ⟨hlt, hcls⟩ := polymod_spec hk hd (polymult x y).1 (polymult x y).2
  exact ⟨hlt, hcls.trans (polymult_spec x y)⟩

end Classes

/-! ## The tables -/

namespace RabinFPUtil

/-- The modulus, as a number. -/
abbrev modulus : Nat := fpPoly.toNat

theorem top_modulus : Top 63 modulus := ⟨by decide, by decide⟩

theorem fls64_fpPoly : fls64 fpPoly = 63 + 1 := by decide

theorem toNat_ofNat_byte {j : Nat} (hj : j < 256) : (UInt64.ofNat j).toNat = j :=
  UInt64.toNat_ofNat_of_lt' (show j < 2 ^ 64 by omega)

/-- An entry of `T_` reduces the byte above the top bit; its own top bit clears the
one that is left of it there. -/
theorem tTable_spec {j : Nat} (hj : j < 256) :
    ∃ x r, tTable[j]? = some x ∧ x.toNat = 2 ^ 63 * (j % 2) + r ∧ r < 2 ^ 63 ∧
      cls modulus r = var modulus ^ 63 * cls modulus j := by
  let t1 := polymod 0 (1 <<< UInt64.ofNat xShift) fpPoly
  have ht1 : cls modulus t1.toNat = var modulus ^ 63 := by
    obtain ⟨-, h⟩ := polymod_spec fls64_fpPoly top_modulus 0 (1 <<< UInt64.ofNat xShift)
    rw [UInt64.toNat_zero, cls_zero, mul_zero, zero_add] at h
    exact h.trans (cls_two_pow 63)
  obtain ⟨hlt, hcls⟩ := polymmult_spec fls64_fpPoly top_modulus (UInt64.ofNat j) t1
  refine ⟨_, (polymmult (UInt64.ofNat j) t1 fpPoly).toNat,
    List.getElem?_map.trans (congrArg _ (List.getElem?_range hj)), ?_, hlt, ?_⟩
  · have hshl : (UInt64.ofNat j <<< UInt64.ofNat xShift).toNat = 2 ^ 63 * (j % 2) := by
      rw [show xShift = 63 from rfl, toNat_shl (by decide), toNat_ofNat_byte hj]
      omega
    rw [UInt64.toNat_or, hshl, Nat.two_pow_add_eq_or_of_lt hlt, Nat.or_comm]
  · rw [hcls, ht1, toNat_ofNat_byte hj, mul_comm]

theorem uTable_spec (sizeshift : UInt64) {j : Nat} (hj : j < 256) :
    ∃ x, (uTable sizeshift)[j]? = some x ∧ x.toNat < 2 ^ 63 ∧
      cls modulus x.toNat = cls modulus j * cls modulus sizeshift.toNat := by
  obtain ⟨hlt, hcls⟩ := polymmult_spec fls64_fpPoly top_modulus (UInt64.ofNat j) sizeshift
  refine ⟨_, List.getElem?_map.trans (congrArg _ (List.getElem?_range hj)), hlt, ?_⟩
  rw [hcls, toNat_ofNat_byte hj]

/-- The same bit at the top of both. -/
theorem xor_lt_of_same {k b a a' : Nat} (hb : b < 2) (ha : a < 2 ^ k) (ha' : a' < 2 ^ k) :
    (2 ^ k * b + a) ^^^ (2 ^ k * b + a') < 2 ^ k := by
  rcases Nat.eq_or_lt_of_le (Nat.le_of_lt_succ hb) with rfl | h0
  · rw [Nat.mul_one]
    have hsucc : 2 ^ (k + 1) = 2 ^ k + 2 ^ k := by rw [Nat.pow_succ]; omega
    exact xor_lt_of_top ⟨by omega, by omega⟩ ⟨by omega, by omega⟩
  · obtain rfl : b = 0 := by omega
    rw [Nat.mul_zero, Nat.zero_add, Nat.zero_add]
    exact Nat.xor_lt_two_pow ha ha'

/-- Appending a byte to a residue: the index is a byte, and the result is the residue
again. -/
theorem append8_spec {p : UInt64} (hp : p.toNat < 2 ^ 63) (m : UInt8) :
    (p >>> UInt64.ofNat (xShift - 8)).toNat < 256 ∧
      ∃ r, append8 tTable (xShift - 8) p m = some r ∧ r.toNat < 2 ^ 63 ∧
        cls modulus r.toNat =
          var modulus ^ 8 * cls modulus p.toNat + cls modulus m.toNat := by
  have hm : m.toNat < 2 ^ 8 := m.toNat_lt
  have hidx : (p >>> UInt64.ofNat (xShift - 8)).toNat = p.toNat / 2 ^ 55 := toNat_shr (by decide) p
  have hj : p.toNat / 2 ^ 55 < 256 := by omega
  rw [hidx]
  obtain ⟨x, r₀, hx, hval, hr₀, hcls⟩ := tTable_spec hj
  -- the shifted word without the bits that fall out of it
  have hor : ((p <<< 8) ||| m.toUInt64).toNat =
      2 ^ 63 * (p.toNat / 2 ^ 55 % 2) + (2 ^ 8 * (p.toNat % 2 ^ 55) + m.toNat) := by
    have hshl : (p <<< 8).toNat = 2 ^ 8 * (p.toNat % 2 ^ 56) := by
      rw [show (8 : UInt64) = UInt64.ofNat 8 from rfl, toNat_shl (by decide)]
      omega
    rw [UInt64.toNat_or, hshl, UInt8.toNat_toUInt64, ← Nat.two_pow_add_eq_or_of_lt hm]
    omega
  have hlow : 2 ^ 8 * (p.toNat % 2 ^ 55) + m.toNat < 2 ^ 63 := by omega
  refine ⟨hj, ((p <<< 8) ||| m.toUInt64) ^^^ x, ?_, ?_, ?_⟩
  · rw [append8, hidx, hx]
    rfl
  · rw [UInt64.toNat_xor, hor, hval]
    exact xor_lt_of_same (Nat.mod_lt _ (by decide)) hlow hr₀
  · rw [UInt64.toNat_xor, cls_xor, hor, hval, cls_two_pow_mul_add hlow, cls_two_pow_mul_add hr₀,
      cls_two_pow_mul_add hm, hcls]
    have hsplit : cls modulus p.toNat =
        var modulus ^ 55 * cls modulus (p.toNat / 2 ^ 55) + cls modulus (p.toNat % 2 ^ 55) := by
      rw [← cls_two_pow_mul_add (Nat.mod_lt _ (Nat.two_pow_pos 55)), Nat.div_add_mod]
    have htwice := cls_add_self (var modulus ^ 63 * cls modulus (p.toNat / 2 ^ 55 % 2))
    rw [hsplit]
    linear_combination htwice

/-- The loop of the constructor computes what the first byte of a window is multiplied
by. -/
theorem sizeshiftLoop_spec {w : Nat} (hw : w < 2 ^ 32) {n : Nat} :
    ∀ {i : Nat} {s : UInt64}, i + n = w → s.toNat < 2 ^ 63 →
      ∃ s', (∀ k, n < k → sizeshiftLoop w k i s = some s') ∧
        cls modulus s'.toNat = var modulus ^ (8 * n) * cls modulus s.toNat := by
  induction n with
  | zero =>
      intro i s hi hs
      refine ⟨s, fun k hk => ?_, by rw [Nat.mul_zero, pow_zero, one_mul]⟩
      obtain ⟨k, rfl⟩ := Nat.exists_eq_succ_of_ne_zero (Nat.ne_zero_of_lt hk)
      rw [sizeshiftLoop, if_neg (by omega)]
  | succ n ih =>
      intro i s hi hs
      obtain ⟨-, r, happ, hr, hcls⟩ := append8_spec hs 0
      obtain ⟨s', hrun, hcls'⟩ := ih (i := i + 1) (by omega) hr
      refine ⟨s', fun k hk => ?_, ?_⟩
      · obtain ⟨k, rfl⟩ := Nat.exists_eq_succ_of_ne_zero (Nat.ne_zero_of_lt hk)
        rw [sizeshiftLoop, if_pos (by omega), happ, u32_of_lt (by omega)]
        exact hrun k (by omega)
      · rw [hcls', hcls, UInt8.toNat_zero, cls_zero, add_zero, ← mul_assoc, ← pow_add]
        rfl

/-- What the constructor has set up for windows of `w` bytes. -/
structure Built (w : Nat) (util : RabinFPUtil) : Prop where
  windowSize : util.windowSize = w
  shift : util.shift = xShift - 8
  t : util.t = tTable
  u : ∀ j, j < 256 → ∃ x, util.u[j]? = some x ∧ x.toNat < 2 ^ 63 ∧
    cls modulus x.toNat = cls modulus j * var modulus ^ (8 * (w - 1))
  length_u : util.u.length = 256

theorem length_tTable : tTable.length = 256 := by
  rw [tTable, List.length_map, List.length_range]

theorem new_built {w : Nat} (hpos : 1 ≤ w) (hw : w < 2 ^ 32) :
    ∃ util, (∀ k, w ≤ k → new k w = some util) ∧ Built w util := by
  obtain ⟨s, hrun, hcls⟩ := sizeshiftLoop_spec hw (n := w - 1) (i := 1) (s := 1) (by omega)
    (by decide)
  rw [UInt64.toNat_one, cls_one, mul_one] at hcls
  refine ⟨{ windowSize := w, shift := xShift - 8, t := tTable, u := uTable s },
    fun k hk => ?_, rfl, rfl, rfl, fun j hj => ?_, ?_⟩
  · rw [new, hrun k (by omega)]
    rfl
  · obtain ⟨x, hx, hlt, hx'⟩ := uTable_spec s hj
    exact ⟨x, hx, hlt, by rw [hx', hcls]⟩
  · show (uTable s).length = 256
    rw [uTable, List.length_map, List.length_range]

/-! ## The window -/

/-- The number that some bytes form, the first of them at the top. -/
def bigEndian (bs : Bytes) : Nat := bs.foldl (fun n b => 2 ^ 8 * n + b.toNat) 0

/-- A window after some more bytes: as many of the latest as it has. -/
def advance (win bs : Bytes) : Bytes := (win ++ bs).drop bs.length

/-- The last `w` of some bytes, with zero bytes before the first. -/
def lastBytes (w : Nat) (bs : Bytes) : Bytes := advance (List.replicate w 0) bs

theorem cls_foldl (m : Nat) (bs : Bytes) : ∀ n : Nat,
    cls m (bs.foldl (fun n b => 2 ^ 8 * n + b.toNat) n) =
      var m ^ (8 * bs.length) * cls m n + cls m (bigEndian bs) := by
  unfold bigEndian
  induction bs with
  | nil =>
      intro n
      rw [List.length_nil, Nat.mul_zero, pow_zero, one_mul, List.foldl_nil, List.foldl_nil,
        cls_zero, add_zero]
  | cons b bs ih =>
      intro n
      rw [List.foldl_cons, List.foldl_cons, ih, ih (2 ^ 8 * 0 + b.toNat),
        cls_two_pow_mul_add b.toNat_lt, cls_two_pow_mul_add b.toNat_lt, List.length_cons,
        Nat.mul_succ, pow_add, cls_zero]
      ring

theorem cls_bigEndian_cons (m : Nat) (b : UInt8) (bs : Bytes) :
    cls m (bigEndian (b :: bs)) =
      var m ^ (8 * bs.length) * cls m b.toNat + cls m (bigEndian bs) := by
  rw [← cls_foldl, bigEndian, List.foldl_cons, Nat.mul_zero, Nat.zero_add]

theorem cls_bigEndian_concat (m : Nat) (bs : Bytes) (b : UInt8) :
    cls m (bigEndian (bs ++ [b])) = var m ^ 8 * cls m (bigEndian bs) + cls m b.toNat := by
  rw [bigEndian, List.foldl_append, List.foldl_cons, List.foldl_nil,
    cls_two_pow_mul_add b.toNat_lt]
  rfl

theorem advance_nil (win : Bytes) : advance win [] = win := List.append_nil win

theorem advance_cons (o b : UInt8) (win bs : Bytes) :
    advance (o :: win) (b :: bs) = advance (win ++ [b]) bs := by
  rw [advance, advance, List.length_cons, List.cons_append, List.drop_succ_cons, List.append_assoc,
    List.singleton_append]

/-- The position that the next byte is written to. -/
def nextPos (w : Nat) (ctx : RabinCtx) : Nat :=
  if w ≤ u32 (ctx.curPos + 1) then 0 else u32 (ctx.curPos + 1)

/-- The context holds the window `win`, from the next position on and around. -/
structure Slid (w : Nat) (win : Bytes) (ctx : RabinCtx) : Prop where
  next_lt : nextPos w ctx < w
  rotate : ctx.circBuf.drop (nextPos w ctx) ++ ctx.circBuf.take (nextPos w ctx) = win
  length : ctx.circBuf.length = w
  fp_lt : ctx.fp.toNat < 2 ^ 63
  fp_cls : cls modulus ctx.fp.toNat = cls modulus (bigEndian win)

variable {w : Nat} {util : RabinFPUtil}

theorem bigEndian_zeros (n : Nat) : bigEndian (List.replicate n 0) = 0 := by
  unfold bigEndian
  induction n with
  | zero => rfl
  | succ n ih => exact ih

theorem resetCtx_slid (hb : Built w util) (hpos : 1 ≤ w) {ctx : RabinCtx}
    (hlen : ctx.circBuf.length = w) : Slid w (List.replicate w 0) (util.resetCtx ctx) := by
  have hnext : nextPos w (util.resetCtx ctx) = 0 := by
    -- the position runs over to the first one
    have h0 : u32 (2 ^ 32 - 1 + 1) = 0 := by decide
    show (if w ≤ u32 (2 ^ 32 - 1 + 1) then 0 else u32 (2 ^ 32 - 1 + 1)) = 0
    rw [h0, ite_self]
  have hbuf : (util.resetCtx ctx).circBuf = List.replicate w 0 := by
    show memcpy ctx.circBuf 0 (List.replicate util.windowSize 0) = _
    rw [hb.windowSize, memcpy, List.take_zero, List.nil_append,
      List.drop_of_length_le (by rw [hlen, List.length_replicate]; omega), List.append_nil]
  refine ⟨by rw [hnext]; exact hpos, ?_, ?_, Nat.two_pow_pos 63, ?_⟩
  · rw [hnext, hbuf, List.drop_zero, List.take_zero, List.append_nil]
  · rw [hbuf, List.length_replicate]
  · rw [bigEndian_zeros]
    rfl

/-- The ring buffer, with the oldest byte overwritten. -/
theorem rotate_set {n : Nat} (hn : n < w) {buf rest : Bytes} {om : UInt8} (hlen : buf.length = w)
    (h : buf.drop n ++ buf.take n = om :: rest) (b : UInt8) :
    buf[n]? = some om ∧
      (buf.set n b).drop (if w ≤ n + 1 then 0 else n + 1) ++
        (buf.set n b).take (if w ≤ n + 1 then 0 else n + 1) = rest ++ [b] := by
  have hlt : n < buf.length := hlen ▸ hn
  rw [List.drop_eq_getElem_cons hlt, List.cons_append] at h
  obtain ⟨hom, hrest⟩ := List.cons.inj h
  refine ⟨(List.getElem?_eq_getElem hlt).trans (congrArg some hom), ?_⟩
  rw [List.set_eq_take_append_cons_drop, if_pos hlt, ← hrest]
  have hpre : (buf.take n).length = n := List.length_take_of_le hlt.le
  split
  · rw [List.drop_zero, List.take_zero, List.append_nil,
      List.drop_of_length_le (show buf.length ≤ n + 1 by omega), List.nil_append]
  · have hdrop : (buf.take n ++ b :: buf.drop (n + 1)).drop (n + 1) = buf.drop (n + 1) := by
      rw [List.append_cons]
      exact List.drop_left' (by rw [List.length_append, hpre, List.length_singleton])
    have htake : (buf.take n ++ b :: buf.drop (n + 1)).take (n + 1) = buf.take n ++ [b] := by
      rw [List.append_cons]
      exact List.take_left' (by rw [List.length_append, hpre, List.length_singleton])
    rw [hdrop, htake, List.append_assoc]

/-- One byte in, one byte out: the value returned is the residue of the new window. -/
theorem slideOneByte_spec (hb : Built w util) (hw : w < 2 ^ 32) {ctx : RabinCtx} {om : UInt8}
    {rest : Bytes} (h : Slid w (om :: rest) ctx) (b : UInt8) :
    ∃ fp ctx', util.slideOneByte ctx b = some (fp, ctx') ∧ ctx'.fp = fp ∧
      Slid w (rest ++ [b]) ctx' := by
  have hn := h.next_lt
  obtain ⟨hom, hrot⟩ := rotate_set hn h.length h.rotate b
  have hlen : rest.length = w - 1 := by
    have hrw := congrArg List.length h.rotate
    rw [List.length_append, List.length_drop, List.length_take, h.length, List.length_cons] at hrw
    omega
  obtain ⟨x, hx, hxlt, hxcls⟩ := hb.u om.toNat om.toNat_lt
  have hp : (ctx.fp ^^^ x).toNat < 2 ^ 63 := by
    rw [UInt64.toNat_xor]
    exact Nat.xor_lt_two_pow h.fp_lt hxlt
  obtain ⟨-, fp, happ, hfp, hcls⟩ := append8_spec hp b
  let ctx' : RabinCtx :=
    { curPos := nextPos w ctx, circBuf := ctx.circBuf.set (nextPos w ctx) b, fp := fp }
  have hnext : nextPos w ctx' = if w ≤ nextPos w ctx + 1 then 0 else nextPos w ctx + 1 := by
    show (if w ≤ u32 (nextPos w ctx + 1) then 0 else u32 (nextPos w ctx + 1)) = _
    rw [u32_of_lt (by omega)]
  refine ⟨fp, ctx', ?_, rfl, ⟨?_, ?_, ?_, hfp, ?_⟩⟩
  · have hpos : (if util.windowSize ≤ u32 (ctx.curPos + 1) then 0 else u32 (ctx.curPos + 1)) =
        nextPos w ctx := by rw [hb.windowSize, nextPos]
    rw [slideOneByte]
    simp only [hpos, hom, hx, hb.t, hb.shift, happ, Option.bind_eq_bind, Option.bind_some]
    rfl
  · rw [hnext]
    split <;> omega
  · rw [hnext]
    exact hrot
  · show (ctx.circBuf.set _ b).length = w
    rw [List.length_set, h.length]
  · show cls modulus fp.toNat = _
    -- the byte that leaves the window is taken off twice
    have htwice := cls_add_self
      (var modulus ^ 8 * (cls modulus om.toNat * var modulus ^ (8 * (w - 1))))
    rw [hcls, cls_bigEndian_concat, UInt64.toNat_xor, cls_xor, h.fp_cls, cls_bigEndian_cons, hlen,
      hxcls]
    linear_combination htwice

/-- Every value returned is the residue of the window at its turn. -/
theorem slide_spec (hb : Built w util) (hpos : 1 ≤ w) (hw : w < 2 ^ 32) (bs : Bytes) :
    ∀ {ctx : RabinCtx} {win : Bytes}, win.length = w → Slid w win ctx →
      ∃ fps ctx', util.slide ctx bs = some (fps, ctx') ∧ fps.length = bs.length ∧
        Slid w (advance win bs) ctx' ∧
        ∀ i fp, fps[i]? = some fp → fp.toNat < 2 ^ 63 ∧
          cls modulus fp.toNat = cls modulus (bigEndian (advance win (bs.take (i + 1)))) := by
  induction bs with
  | nil =>
      intro ctx win _ h
      exact ⟨[], ctx, rfl, rfl, by rwa [advance_nil], fun i fp hi => nomatch hi⟩
  | cons b bs ih =>
      intro ctx win hlen h
      obtain ⟨om, rest, rfl⟩ := List.exists_cons_of_length_pos (hlen ▸ hpos)
      obtain ⟨fp, ctx₁, hstep, hfp, h₁⟩ := slideOneByte_spec hb hw h b
      obtain ⟨fps, ctx', hrun, hnum, h', hvals⟩ := @ih ctx₁ (rest ++ [b])
        (by rw [List.length_append, List.length_singleton, ← hlen, List.length_cons]) h₁
      refine ⟨fp :: fps, ctx', ?_, ?_, ?_, ?_⟩
      · rw [slide, hstep, Option.bind_eq_bind, Option.bind_some, hrun]
        rfl
      · rw [List.length_cons, List.length_cons, hnum]
      · rw [advance_cons]
        exact h'
      · intro i fp' hi
        cases i with
        | zero =>
            obtain rfl : fp = fp' := Option.some.inj hi
            refine ⟨hfp ▸ h₁.fp_lt, ?_⟩
            rw [Nat.zero_add, List.take_succ_cons, List.take_zero, advance_cons, advance_nil, ← hfp]
            exact h₁.fp_cls
        | succ i =>
            rw [List.take_succ_cons, advance_cons]
            exact hvals i fp' hi

/-- The constructor returns, no lookup leaves its table, every value returned is the
residue of the last `w` bytes, and so it depends on these alone. -/
def Rolling (w : Nat) : Prop :=
  ∃ util : RabinFPUtil, (∀ k, w ≤ k → new k w = some util) ∧
    (util.t.length = 256 ∧ util.u.length = 256) ∧
    (∀ (ctx : RabinCtx) (bs : Bytes), ctx.circBuf.length = w →
      ∃ fps ctx', util.slide (util.resetCtx ctx) bs = some (fps, ctx') ∧
        fps.length = bs.length ∧
        ∀ i fp, fps[i]? = some fp → fp.toNat < 2 ^ 63 ∧
          poly fp.toNat = Polynomial.modByMonic
            (poly (bigEndian (lastBytes w (bs.take (i + 1))))) (poly fpPoly.toNat)) ∧
    (∀ (ctx ctx' : RabinCtx) (bs bs' : Bytes) (fps fps' : List UInt64) (c c' : RabinCtx),
      ctx.circBuf.length = w → ctx'.circBuf.length = w →
      util.slide (util.resetCtx ctx) bs = some (fps, c) →
      util.slide (util.resetCtx ctx') bs' = some (fps', c') →
      ∀ i i' fp fp', fps[i]? = some fp → fps'[i']? = some fp' →
        lastBytes w (bs.take (i + 1)) = lastBytes w (bs'.take (i' + 1)) → fp = fp')

/-- The fingerprint is the residue of the window, for every window size that a
`uint32_t` can count. -/
theorem rolling_fingerprint {w : Nat} (hpos : 1 ≤ w) (hw : w < 2 ^ 32) : Rolling w := by
  obtain ⟨util, hnew, hb⟩ := new_built hpos hw
  have hrun : ∀ (ctx : RabinCtx) (bs : Bytes), ctx.circBuf.length = w →
      ∃ fps ctx', util.slide (util.resetCtx ctx) bs = some (fps, ctx') ∧
        fps.length = bs.length ∧
        ∀ i fp, fps[i]? = some fp → fp.toNat < 2 ^ 63 ∧
          cls modulus fp.toNat = cls modulus (bigEndian (lastBytes w (bs.take (i + 1)))) := by
    intro ctx bs hlen
    obtain ⟨fps, ctx', hslide, hnum, -, hvals⟩ :=
      slide_spec hb hpos hw bs List.length_replicate (resetCtx_slid hb hpos hlen)
    exact ⟨fps, ctx', hslide, hnum, hvals⟩
  refine ⟨util, hnew, ⟨by rw [hb.t, length_tTable], hb.length_u⟩, ?_, ?_⟩
  · intro ctx bs hlen
    obtain ⟨fps, ctx', hslide, hnum, hvals⟩ := hrun ctx bs hlen
    refine ⟨fps, ctx', hslide, hnum, fun i fp hi => ?_⟩
    obtain ⟨hlt, hcls⟩ := hvals i fp hi
    exact ⟨hlt, poly_eq_modByMonic top_modulus hlt hcls⟩
  · intro ctx ctx' bs bs' fps fps' c c' hlen hlen' hslide hslide' i i' fp fp' hi hi' hlast
    obtain ⟨gps, d, hg, -, hvals⟩ := hrun ctx bs hlen
    obtain ⟨gps', d', hg', -, hvals'⟩ := hrun ctx' bs' hlen'
    obtain ⟨rfl, -⟩ := Prod.mk.inj (Option.some.inj (hg.symm.trans hslide))
    obtain ⟨rfl, -⟩ := Prod.mk.inj (Option.some.inj (hg'.symm.trans hslide'))
    obtain ⟨hlt, hcls⟩ := hvals i fp hi
    obtain ⟨hlt', hcls'⟩ := hvals' i' fp' hi'
    refine UInt64.toNat_inj.mp (eq_of_cls_eq top_modulus hlt hlt' ?_)
    rw [hcls, hlast, ← hcls']

theorem rolling_fingerprint_sample : Rolling 48 := rolling_fingerprint (by decide) (by decide)

/-- A loop whose index is never as large as the window size does not end. -/
theorem sizeshiftLoop_endless {w : Nat} (hw : 2 ^ 32 ≤ w) (k : Nat) :
    ∀ {i : Nat} {s : UInt64}, i < 2 ^ 32 → sizeshiftLoop w k i s = none := by
  induction k with
  | zero => exact fun _ => rfl
  | succ k ih =>
      intro i s hi
      rw [sizeshiftLoop, if_pos (by omega)]
      cases happ : append8 tTable (xShift - 8) s 0 with
      | none => rfl
      | some s' => exact ih (u32_lt _)

theorem new_endless {w : Nat} (hw : 2 ^ 32 ≤ w) (k : Nat) : new k w = none := by
  rw [new, sizeshiftLoop_endless hw k (by decide)]
  rfl

/-- For a window of 2^32 bytes there is no fingerprint: the constructor never
returns. -/
theorem wide_window_endless : ¬ Rolling (2 ^ 32) := by
  rintro ⟨util, hnew, -⟩
  exact absurd ((new_endless (Nat.le_refl _) _).symm.trans (hnew _ (Nat.le_refl _))) (by simp)

/-- More turns than needed change nothing. -/
theorem sizeshiftLoop_mono {w k : Nat} : ∀ {k' i : Nat} {s s' : UInt64}, k ≤ k' →
    sizeshiftLoop w k i s = some s' → sizeshiftLoop w k' i s = some s' := by
  induction k with
  | zero => exact fun _ h => nomatch h
  | succ k ih =>
      intro k' i s s' hk h
      obtain ⟨k', rfl⟩ := Nat.exists_eq_add_of_le' hk
      rw [sizeshiftLoop] at h
      rw [Nat.add_succ, sizeshiftLoop]
      split at h
      · rename_i hi
        rw [if_pos hi]
        obtain ⟨s₁, hs₁, h⟩ := Option.bind_eq_some_iff.mp h
        exact Option.bind_eq_some_iff.mpr ⟨s₁, hs₁, ih (Nat.le_add_left k k') h⟩
      · rename_i hi
        rw [if_neg hi]
        exact h

/-- What the constructor returns is built for its window. -/
theorem built_of_new {k w : Nat} {util : RabinFPUtil} (hpos : 1 ≤ w) (h : new k w = some util) :
    w < 2 ^ 32 ∧ Built w util := by
  rcases Nat.lt_or_ge w (2 ^ 32) with hw | hw
  · refine ⟨hw, ?_⟩
    obtain ⟨util', hnew, hb⟩ := new_built hpos hw
    obtain ⟨s, hs, hutil⟩ := Option.bind_eq_some_iff.mp h
    have hsame : new (max k w) w = some util :=
      Option.bind_eq_some_iff.mpr ⟨s, sizeshiftLoop_mono (Nat.le_max_left k w) hs, hutil⟩
    obtain rfl := Option.some.inj ((hnew _ (Nat.le_max_right k w)).symm.trans hsame)
    exact hb
  · exact nomatch (new_endless hw k).symm.trans h

end RabinFPUtil

end EDRStore
