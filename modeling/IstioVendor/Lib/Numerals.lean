import Mathlib.Data.Nat.Digits.Defs
import IstioVendor.Lib.GoInt
import IstioVendor.Lib.Lines

/-!
# `IstioVendor.Lib.Numerals`: numbers written in a text

A number is written as a list of digits, the most significant one first, and `positional` is
its value. A digit is a byte to which a table `value` gives a number. `leadingDigits` are the
digits at the front of a text, and `behindDigits` is what follows them.

A digit more makes a number larger (`positional_le_concat`). So a number that fits a
machine integer can be read from the left, one digit at a time, without a wrap on the way.
-/

set_option autoImplicit false

namespace IstioVendor.Lib

/-- The value of the digits, the most significant one first. -/
def positional (base : Nat) (digits : List Nat) : Nat := Nat.ofDigits base digits.reverse

@[simp] theorem positional_nil (base : Nat) : positional base [] = 0 := rfl

theorem positional_concat (base : Nat) (ds : List Nat) (d : Nat) :
    positional base (ds ++ [d]) = base * positional base ds + d := by
  rw [positional, List.reverse_append, List.reverse_singleton, List.singleton_append,
    Nat.ofDigits_cons, Nat.add_comm]
  rfl

theorem positional_singleton (base d : Nat) : positional base [d] = d := by
  simpa using positional_concat base [] d

theorem positional_le_concat {base : Nat} (hbase : 0 < base) (ds : List Nat) (d : Nat) :
    positional base ds ≤ positional base (ds ++ [d]) := by
  rw [positional_concat]
  exact (Nat.le_mul_of_pos_left _ hbase).trans (Nat.le_add_right _ _)

variable {b : UInt8} {s : Bytes}

section
variable (value : UInt8 → Option Nat)

/-- The digits at the front of the text. -/
def leadingDigits (s : Bytes) : List Nat :=
  (s.takeWhile fun b => (value b).isSome).filterMap value

/-- What follows the digits at the front. -/
def behindDigits (s : Bytes) : Bytes := s.dropWhile fun b => (value b).isSome

variable {value}

@[simp] theorem leadingDigits_nil : leadingDigits value [] = [] := rfl

@[simp] theorem behindDigits_nil : behindDigits value [] = [] := rfl

theorem leadingDigits_cons_some {d : Nat} (h : value b = some d) (s : Bytes) :
    leadingDigits value (b :: s) = d :: leadingDigits value s := by
  simp [leadingDigits, h]

theorem behindDigits_cons_some {d : Nat} (h : value b = some d) (s : Bytes) :
    behindDigits value (b :: s) = behindDigits value s := by
  simp [behindDigits, h]

theorem leadingDigits_cons_none (h : value b = none) (s : Bytes) :
    leadingDigits value (b :: s) = [] := by
  simp [leadingDigits, h]

theorem behindDigits_cons_none (h : value b = none) (s : Bytes) :
    behindDigits value (b :: s) = b :: s := by
  simp [behindDigits, h]

/-- The text behind the digits starts with no digit. -/
theorem behindDigits_eq_cons {rest : Bytes} (h : behindDigits value s = b :: rest) :
    value b = none := by
  induction s with
  | nil => exact nomatch h
  | cons a s ih =>
    cases ha : value a with
    | none =>
      rw [behindDigits_cons_none ha] at h
      exact (List.cons.inj h).1 ▸ ha
    | some d => exact ih (by rwa [behindDigits_cons_some ha] at h)

theorem length_behindDigits_lt (h : leadingDigits value s ≠ []) :
    (behindDigits value s).length < s.length := by
  cases s with
  | nil => exact absurd rfl h
  | cons b s =>
    cases hb : value b with
    | none => exact absurd (leadingDigits_cons_none hb s) h
    | some d =>
      rw [behindDigits_cons_some hb, List.length_cons]
      exact Nat.lt_succ_of_le (List.dropWhile_suffix _).length_le

/-- A text that starts with no digit is all behind the digits. -/
theorem behindDigits_of_leadingDigits (h : leadingDigits value s = []) :
    behindDigits value s = s := by
  cases s with
  | nil => rfl
  | cons b s =>
    cases hb : value b with
    | none => exact behindDigits_cons_none hb s
    | some d =>
      rw [leadingDigits_cons_some hb] at h
      exact nomatch h

end

end IstioVendor.Lib
