import Mathlib.Data.Nat.Bitwise
import IstioVendor.Lib.Lines

/-!
# `IstioVendor.Lib.Bits`: numbers and byte strings as lists of bits

`bitsOf n v` are the lowest `n` bits of `v`, the most significant one first, and `toBits` are the
bits of a byte string. The shifts and masks of programs that pack bits become `take`, `drop` and
`append` of such lists (`bitsOf_add`, `bitsOf_or`). A list of bits determines the number and the
byte string (`bitsOf_inj`, `toBits_inj`).
-/

set_option autoImplicit false

namespace IstioVendor.Lib

/-! ### Numbers -/

/-- The lowest `n` bits, the most significant one first. -/
def bitsOf : Nat → Nat → List Bool
  | 0, _ => []
  | n + 1, v => v.testBit n :: bitsOf n v

@[simp] theorem length_bitsOf (n v : Nat) : (bitsOf n v).length = n := by
  induction n with
  | zero => rfl
  | succ n ih => rw [bitsOf, List.length_cons, ih]

theorem bitsOf_congr {n v w : Nat} (h : ∀ i < n, v.testBit i = w.testBit i) :
    bitsOf n v = bitsOf n w := by
  induction n with
  | zero => rfl
  | succ n ih =>
    rw [bitsOf, bitsOf, h n (Nat.lt_succ_self n), ih fun i hi => h i (Nat.lt_succ_of_lt hi)]

theorem testBit_of_bitsOf_eq {n v w : Nat} (h : bitsOf n v = bitsOf n w) {i : Nat} (hi : i < n) :
    v.testBit i = w.testBit i := by
  induction n with
  | zero => exact absurd hi (Nat.not_lt_zero i)
  | succ n ih =>
    obtain ⟨htop, hrest⟩ := List.cons.inj h
    rcases Nat.lt_succ_iff_lt_or_eq.mp hi with hlt | rfl
    · exact ih hrest hlt
    · exact htop

/-- The bits determine the number. -/
theorem bitsOf_inj {n v w : Nat} (hv : v < 2 ^ n) (hw : w < 2 ^ n) (h : bitsOf n v = bitsOf n w) :
    v = w := by
  refine Nat.eq_of_testBit_eq fun i => ?_
  rcases Nat.lt_or_ge i n with hi | hi
  · exact testBit_of_bitsOf_eq h hi
  · rw [Nat.testBit_lt_two_pow (hv.trans_le (Nat.pow_le_pow_right (by decide) hi)),
      Nat.testBit_lt_two_pow (hw.trans_le (Nat.pow_le_pow_right (by decide) hi))]

/-- The upper bits, and the lower ones. -/
theorem bitsOf_add (m n v : Nat) : bitsOf (m + n) v = bitsOf m (v >>> n) ++ bitsOf n v := by
  induction m with
  | zero => rw [Nat.zero_add, bitsOf, List.nil_append]
  | succ m ih =>
    rw [Nat.add_right_comm, bitsOf, ih, bitsOf, List.cons_append, Nat.testBit_shiftRight,
      Nat.add_comm n m]

theorem drop_bitsOf {m n : Nat} (h : m ≤ n) (v : Nat) : (bitsOf n v).drop m = bitsOf (n - m) v := by
  obtain ⟨k, rfl⟩ := Nat.exists_eq_add_of_le h
  rw [bitsOf_add, List.drop_left' (length_bitsOf ..), Nat.add_sub_cancel_left]

/-- What is cut off above the bits does not matter. -/
theorem bitsOf_mod {n m : Nat} (h : n ≤ m) (v : Nat) : bitsOf n (v % 2 ^ m) = bitsOf n v :=
  bitsOf_congr fun i hi => by
    rw [Nat.testBit_mod_two_pow, decide_eq_true (hi.trans_le h), Bool.true_and]

theorem bitsOf_zero (n : Nat) : bitsOf n 0 = List.replicate n false := by
  induction n with
  | zero => rfl
  | succ n ih => rw [bitsOf, ih, Nat.zero_testBit, List.replicate_succ]

theorem bitsOf_ones (n : Nat) : bitsOf n (2 ^ n - 1) = List.replicate n true := by
  have hall : ∀ m ≤ n, bitsOf m (2 ^ n - 1) = List.replicate m true := by
    intro m hm
    induction m with
    | zero => rfl
    | succ m ih =>
      rw [bitsOf, ih (by omega), Nat.testBit_two_pow_sub_one, decide_eq_true (by omega),
        List.replicate_succ]
  exact hall n le_rfl

theorem bitsOf_shiftLeft (m n v : Nat) :
    bitsOf (m + n) (v <<< n) = bitsOf m v ++ List.replicate n false := by
  have hlow : bitsOf n (v <<< n) = bitsOf n 0 := bitsOf_congr fun i hi => by
    rw [Nat.testBit_shiftLeft, decide_eq_false (by omega), Bool.false_and, Nat.zero_testBit]
  rw [bitsOf_add, Nat.shiftLeft_shiftRight, hlow, bitsOf_zero]

/-- To put bits into a place of zeros. -/
theorem bitsOf_or {m n b t : Nat} (hb : bitsOf n b = List.replicate n false) (ht : t < 2 ^ n) :
    bitsOf (m + n) (b ||| t) = bitsOf m (b >>> n) ++ bitsOf n t := by
  have hlow : bitsOf n (b ||| t) = bitsOf n t := bitsOf_congr fun i hi => by
    have hzero : b.testBit i = false := by
      rw [testBit_of_bitsOf_eq (hb.trans (bitsOf_zero n).symm) hi, Nat.zero_testBit]
    rw [Nat.testBit_or, hzero, Bool.false_or]
  rw [bitsOf_add, Nat.shiftRight_or_distrib, Nat.shiftRight_eq_zero t n ht, Nat.or_zero, hlow]

/-- The lowest `n` bits are ones when they are those of the mask. -/
theorem and_mask_eq_iff (n v : Nat) :
    v &&& (2 ^ n - 1) = 2 ^ n - 1 ↔ bitsOf n v = List.replicate n true := by
  rw [Nat.and_two_pow_sub_one_eq_mod, ← bitsOf_ones, ← bitsOf_mod (le_refl n) v]
  refine ⟨fun h => by rw [h], fun h => bitsOf_inj ?_ ?_ h⟩
  · exact Nat.mod_lt v (Nat.two_pow_pos n)
  · exact Nat.sub_one_lt (Nat.two_pow_pos n).ne'

/-- Numbers without a common bit. -/
theorem and_eq_zero_of_lt {n v w : Nat} (hv : v < 2 ^ n) (hw : w % 2 ^ n = 0) : v &&& w = 0 := by
  refine Nat.eq_of_testBit_eq fun i => ?_
  rw [Nat.testBit_and, Nat.zero_testBit]
  rcases Nat.lt_or_ge i n with hi | hi
  · have hbit : (w % 2 ^ n).testBit i = w.testBit i := by
      rw [Nat.testBit_mod_two_pow, decide_eq_true hi, Bool.true_and]
    rw [← hbit, hw, Nat.zero_testBit, Bool.and_false]
  · rw [Nat.testBit_lt_two_pow (hv.trans_le (Nat.pow_le_pow_right (by decide) hi)), Bool.false_and]

/-! ### Byte strings -/

/-- The bits of a byte string. -/
def toBits (s : Bytes) : List Bool := s.flatMap fun b => bitsOf 8 b.toNat

@[simp] theorem toBits_nil : toBits [] = [] := rfl

@[simp] theorem toBits_cons (b : UInt8) (s : Bytes) :
    toBits (b :: s) = bitsOf 8 b.toNat ++ toBits s := rfl

@[simp] theorem toBits_append (s t : Bytes) : toBits (s ++ t) = toBits s ++ toBits t :=
  List.flatMap_append

@[simp] theorem length_toBits (s : Bytes) : (toBits s).length = 8 * s.length := by
  induction s with
  | nil => rfl
  | cons b s ih => rw [toBits_cons, List.length_append, ih, length_bitsOf, List.length_cons]; omega

/-- The bits determine the bytes. -/
theorem toBits_inj {s t : Bytes} (h : toBits s = toBits t) : s = t := by
  induction s generalizing t with
  | nil =>
    have hlength := congrArg List.length h
    exact (List.length_eq_zero_iff.mp (by simpa using hlength.symm)).symm
  | cons b s ih =>
    cases t with
    | nil => exact absurd (congrArg List.length h) (by simp)
    | cons c t =>
      obtain ⟨hbyte, hrest⟩ := List.append_inj h (by simp)
      rw [ih hrest, UInt8.toNat_inj.mp (bitsOf_inj b.toNat_lt c.toNat_lt hbyte)]

end IstioVendor.Lib
