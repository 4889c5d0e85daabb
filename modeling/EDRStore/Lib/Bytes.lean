/-
# `EDRStore.Lib.Bytes` — words and buffers

Little-endian words of any width, and buffers written by copying in at an
offset.  A buffer filled from its start is described by what it was filled
with, a prefix of it; what lies behind is whatever was there before.
-/
import EDRStore.Lib.AppendLog
import Mathlib.Data.Nat.ModEq

namespace EDRStore

/-- `uint32_t` arithmetic. -/
def u32 (n : Nat) : Nat := n % 2 ^ 32

theorem u32_of_lt {n : Nat} (h : n < 2 ^ 32) : u32 n = n := Nat.mod_eq_of_lt h

theorem u32_lt (n : Nat) : u32 n < 2 ^ 32 := Nat.mod_lt _ (Nat.two_pow_pos 32)

theorem u32_add_u32 (m n : Nat) : u32 (u32 m + n) = u32 (m + n) := Nat.mod_add_mod m _ n

/-! ## Words -/

/-- The `w` low bytes of `n`, the lowest first. -/
def toLe : Nat → Nat → List UInt8
  | 0, _ => []
  | w + 1, n => UInt8.ofNat n :: toLe w (n / 256)

/-- The number whose bytes are given, the lowest first. -/
def ofLe : List UInt8 → Nat
  | [] => 0
  | b :: bs => b.toNat + 256 * ofLe bs

@[simp] theorem length_toLe (w n : Nat) : (toLe w n).length = w := by
  induction w generalizing n with
  | zero => rfl
  | succ w ih => rw [toLe, List.length_cons, ih]

theorem ofLe_toLe (w n : Nat) : ofLe (toLe w n) = n % 256 ^ w := by
  induction w generalizing n with
  | zero => rw [Nat.pow_zero, Nat.mod_one]; rfl
  | succ w ih =>
      have hbyte : (UInt8.ofNat n).toNat = n % 256 := UInt8.toNat_ofNat'
      rw [toLe, ofLe, ih, hbyte, Nat.pow_succ', Nat.mod_mul]

theorem ofLe_toLe_of_lt {w n : Nat} (h : n < 256 ^ w) : ofLe (toLe w n) = n := by
  rw [ofLe_toLe, Nat.mod_eq_of_lt h]

theorem take_toLe (w n c : Nat) : (toLe w n).take c = toLe (min c w) n := by
  induction w generalizing n c with
  | zero => rw [Nat.min_zero, toLe, List.take_nil]
  | succ w ih =>
      cases c with
      | zero => rw [Nat.zero_min]; rfl
      | succ c => rw [toLe, List.take_succ_cons, ih, Nat.succ_min_succ, toLe]

theorem drop_toLe (w n j : Nat) : (toLe w n).drop j = toLe (w - j) (n / 256 ^ j) := by
  induction w generalizing n j with
  | zero => rw [Nat.zero_sub, toLe, toLe, List.drop_nil]
  | succ w ih =>
      cases j with
      | zero => rw [List.drop_zero, Nat.sub_zero, Nat.pow_zero, Nat.div_one]
      | succ j =>
          rw [toLe, List.drop_succ_cons, ih, Nat.div_div_eq_div_mul, Nat.succ_sub_succ,
            Nat.pow_succ']

theorem ofLe_append (a b : List UInt8) : ofLe (a ++ b) = ofLe a + 256 ^ a.length * ofLe b := by
  induction a with
  | nil => rw [List.nil_append, ofLe, List.length_nil, Nat.pow_zero, Nat.one_mul, Nat.zero_add]
  | cons x xs ih =>
      rw [List.cons_append, ofLe, ih, ofLe, List.length_cons, Nat.pow_succ', Nat.mul_add,
        Nat.mul_assoc, Nat.add_assoc]

/-- What is missing at the end of a word counts as zero. -/
theorem ofLe_append_zeros (b : List UInt8) (n : Nat) :
    ofLe (b ++ List.replicate n 0) = ofLe b := by
  have hzero : ofLe (List.replicate n 0) = 0 := by
    induction n with
    | zero => rfl
    | succ n ih => rw [List.replicate_succ, ofLe, ih]; rfl
  rw [ofLe_append, hzero, Nat.mul_zero, Nat.add_zero]

/-! ## Buffers -/

section Buffers

variable {α : Type} {buf src pre post : List α}

/-- `memcpy(buf + off, src, …)`. -/
def memcpy (buf : List α) (off : Nat) (src : List α) : List α :=
  buf.take off ++ src ++ buf.drop (off + src.length)

theorem length_memcpy {off : Nat} (h : off + src.length ≤ buf.length) :
    (memcpy buf off src).length = buf.length := by
  unfold memcpy
  rw [List.length_append, List.length_append, List.length_take, List.length_drop]
  omega

/-- What was written so far, and the copied bytes behind it. -/
theorem memcpy_prefix (h : pre <+: buf) (src : List α) :
    pre ++ src <+: memcpy buf pre.length src := by
  obtain ⟨rest, rfl⟩ := h
  unfold memcpy
  rw [List.take_left]
  exact List.prefix_append _ _

/-- What copying to the start of a buffer leaves of it. -/
theorem memcpy_zero_eq (buf src : List α) : memcpy buf 0 src = src ++ buf.drop src.length := by
  rw [memcpy, List.take_zero, List.nil_append, Nat.zero_add]

@[simp] theorem memcpy_zero_nil (buf : List α) : memcpy buf 0 [] = buf := by
  rw [memcpy_zero_eq, List.nil_append, List.length_nil, List.drop_zero]

theorem memcpy_whole (h : src.length = buf.length) : memcpy buf 0 src = src := by
  rw [memcpy_zero_eq, h, List.drop_length, List.append_nil]

/-- Copying to the start of a buffer. -/
theorem prefix_memcpy_zero (buf src : List α) : src <+: memcpy buf 0 src :=
  memcpy_prefix List.nil_prefix src

theorem slice_append_mid (pre src post : List α) :
    slice (pre ++ src ++ post) pre.length src.length = src := by
  unfold slice
  rw [List.append_assoc, List.drop_left, List.take_left]

/-- Reading back a piece of a prefix. -/
theorem slice_mid_of_prefix (h : pre ++ src <+: buf) :
    slice buf pre.length src.length = src := by
  obtain ⟨post, rfl⟩ := h
  exact slice_append_mid pre src post

end Buffers

end EDRStore
