import Mathlib.Data.Int.Init
import Mathlib.Tactic.Ring

/-!
# `IstioVendor.Lib.GoInt`: signed machine integers as wrapped integers

A signed machine integer of width `w` is an integer in `[-2 ^ (w - 1), 2 ^ (w - 1))`, and
an arithmetic operation on it is the operation on integers followed by a wrap into that
range. `int64` and `int32` are the two wraps. A wrap changes nothing inside the range
(`int64_of_range`). Sums may be wrapped once at the end: the wrap of a sum
does not see the wraps of its terms (`int64_add_int64`).
-/

set_option autoImplicit false

namespace IstioVendor.Lib

/-- The value of a 64-bit signed integer after a computation with the exact result `x`. -/
def int64 (x : Int) : Int := x.bmod (2 ^ 64)

/-- The value of a 32-bit signed integer after a computation with the exact result `x`. -/
def int32 (x : Int) : Int := x.bmod (2 ^ 32)

theorem int64_of_range {x : Int} (hlo : -2 ^ 63 ≤ x) (hhi : x < 2 ^ 63) : int64 x = x :=
  Int.bmod_eq_of_le (by omega) (by omega)

/-- A result that is one turn too large. -/
theorem int64_of_wrapped {x : Int} (hlo : 2 ^ 63 ≤ x) (hhi : x < 2 ^ 64 + 2 ^ 63) :
    int64 x = x - 2 ^ 64 := by
  rw [← int64_of_range (x := x - 2 ^ 64) (by omega) (by omega)]
  exact (Int.sub_bmod_right x (2 ^ 64)).symm

/-! The bounds of a few small numbers, as fields of structures need them. -/

theorem zero_lt_int64 : (0 : Int) < 2 ^ 63 := by decide

theorem one_lt_int64 : (1 : Int) < 2 ^ 63 := by decide

theorem two_lt_int64 : (2 : Int) < 2 ^ 63 := by decide

theorem three_lt_int64 : (3 : Int) < 2 ^ 63 := by decide

variable {n : Nat}

theorem int64_of_nat (h : n < 2 ^ 63) : int64 (n : Int) = n :=
  int64_of_range (by omega) (by omega)

theorem int64_lt (x : Int) : int64 x < 2 ^ 63 := by
  have h := Int.bmod_lt (x := x) (m := 2 ^ 64) (by decide)
  unfold int64
  omega

@[simp] theorem int64_int64 (x : Int) : int64 (int64 x) = int64 x := Int.bmod_bmod

/-- The wrap of a sum does not see a wrap of its first term. -/
theorem int64_add_int64_left (x y : Int) : int64 (int64 x + y) = int64 (x + y) :=
  Int.bmod_add_bmod

/-- The wrap of a sum does not see the wraps of its terms. -/
theorem int64_add_int64 (x y : Int) : int64 (int64 x + int64 y) = int64 (x + y) := by
  rw [int64_add_int64_left, Int.add_comm, int64_add_int64_left, Int.add_comm]

/-- The wrap of a product does not see a wrap of its second factor. -/
theorem int64_mul_int64_add (b x y : Int) : int64 (b * int64 x + y) = int64 (b * x + y) := by
  have hmul : int64 (b * int64 x) = int64 (b * x) := Int.mul_bmod_bmod
  rw [← int64_add_int64_left, hmul, int64_add_int64_left]

/-- The numbers that wrap to `-1`. -/
theorem int64_eq_neg_one : int64 (n : Int) = -1 ↔ n % 2 ^ 64 = 2 ^ 64 - 1 := by
  unfold int64 Int.bmod
  dsimp only
  split <;> omega

/-- A number of less than 64 bits wraps to zero only when it is zero. -/
theorem int64_eq_zero (h : n < 2 ^ 64) : int64 (n : Int) = 0 ↔ n = 0 := by
  unfold int64 Int.bmod
  dsimp only
  split <;> omega

end IstioVendor.Lib
