import Mathlib.Data.List.GetD

/-!
# `IstioVendor.Lib.Slices`: slices of shared arrays

A slice of Go is a reference to a part of an array. A copy of the slice refers to the same
elements, so that an assignment through one of them is seen through the other. `Arrays` are the
arrays of a program, and a `Slice` names one of them by its position.

`read` is what a slice shows. `storeEach` is the loop that assigns to the first elements of a slice,
and `make` adds an array. The lemmas say what the slice shows afterwards.
-/

set_option autoImplicit false

namespace IstioVendor.Lib

/-- Arrays, by their positions. -/
abbrev Arrays (α : Type) := List (List α)

/-- A part of an array. -/
structure Slice where
  array : Nat
  offset : Nat
  length : Nat

namespace Arrays

variable {α : Type}

/-- The elements of a slice. -/
def read (m : Arrays α) (s : Slice) : List α :=
  ((m.getD s.array []).drop s.offset).take s.length

/-- The slice is a part of its array. -/
def Holds (m : Arrays α) (s : Slice) : Prop :=
  s.offset + s.length ≤ (m.getD s.array []).length

/-- The assignment `s[i] = v`. -/
def store (m : Arrays α) (s : Slice) (i : Nat) (v : α) : Arrays α :=
  m.modify s.array fun a => a.set (s.offset + i) v

/-- The assignments `s[i] = f(i)` for the indices below `n`. -/
def storeEach (m : Arrays α) (s : Slice) (f : Nat → α) : Nat → Arrays α
  | 0 => m
  | n + 1 => (m.storeEach s f n).store s n (f n)

/-- `make`: a new array with `n` times `v`. -/
def make (m : Arrays α) (n : Nat) (v : α) : Arrays α × Slice :=
  (m ++ [List.replicate n v], ⟨m.length, 0, n⟩)

variable {m : Arrays α} {s : Slice}

theorem length_read (h : m.Holds s) : (m.read s).length = s.length := by
  unfold Holds at h
  rw [read, List.length_take, List.length_drop]
  omega

/-- The array behind the slice after an assignment. -/
theorem getD_store (m : Arrays α) (s : Slice) (i : Nat) (v : α) :
    (m.store s i v).getD s.array [] = (m.getD s.array []).set (s.offset + i) v := by
  unfold store
  rw [List.getD_eq_getElem?_getD, List.getElem?_modify, List.getD_eq_getElem?_getD]
  cases m[s.array]? with
  | none => rfl
  | some a => simp

theorem read_store (m : Arrays α) (s : Slice) (i : Nat) (v : α) :
    (m.store s i v).read s = (m.read s).set i v := by
  rw [read, getD_store, List.drop_set, if_neg (by omega), Nat.add_sub_cancel_left, List.take_set]
  rfl

/-- The loop replaces the first elements. -/
theorem read_storeEach (h : m.Holds s) (f : Nat → α) {n : Nat} (hn : n ≤ s.length) :
    (m.storeEach s f n).read s = (List.range n).map f ++ (m.read s).drop n := by
  induction n with
  | zero => rfl
  | succ n ih =>
    have hlen : n < (m.read s).length := by rw [length_read h]; omega
    have hset : ((m.read s).drop n).set 0 (f n) = f n :: (m.read s).drop (n + 1) := by
      rw [List.drop_eq_getElem_cons hlen, List.set_cons_zero]
    rw [storeEach, read_store, ih (by omega), List.range_succ, List.map_append,
      List.append_assoc, List.set_append_right _ _ (by simp)]
    simp [hset]

/-- The loop over the whole slice. -/
theorem read_storeEach_length (h : m.Holds s) (f : Nat → α) :
    (m.storeEach s f s.length).read s = (List.range s.length).map f := by
  rw [read_storeEach h f (Nat.le_refl _), List.drop_of_length_le (Nat.le_of_eq (length_read h)),
    List.append_nil]

theorem holds_make (m : Arrays α) (n : Nat) (v : α) : (m.make n v).1.Holds (m.make n v).2 := by
  simp [Holds, make]

end Arrays

end IstioVendor.Lib
