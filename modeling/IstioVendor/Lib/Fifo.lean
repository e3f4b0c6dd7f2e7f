import Mathlib.Data.List.Basic
import Mathlib.Order.Lattice

/-!
# `IstioVendor.Lib.Fifo`: a queue with a bound on its weight

New entries come at the end, and the oldest ones are dropped at the front until the weight of the
rest is at most the bound. `trim` is what stays. It is the longest end of the queue within the bound
(`suffix_trim`). So a queue that is an end of another one remains an end of it when both get the
same entries, as long as its bound is not the larger one (`trim_mono`).
-/

set_option autoImplicit false

namespace IstioVendor.Lib

variable {α : Type} {w : α → Nat} {xs ys : List α}

/-- The sum of the weights. -/
def weight (w : α → Nat) : List α → Nat
  | [] => 0
  | x :: xs => w x + weight w xs

@[simp] theorem weight_nil : weight w [] = 0 := rfl

@[simp] theorem weight_cons (x : α) (xs : List α) : weight w (x :: xs) = w x + weight w xs := rfl

@[simp] theorem weight_append (xs ys : List α) :
    weight w (xs ++ ys) = weight w xs + weight w ys := by
  induction xs with
  | nil => simp
  | cons x xs ih => rw [List.cons_append, weight_cons, weight_cons, ih, Nat.add_assoc]

theorem weight_congr {w' : α → Nat} (h : ∀ x ∈ xs, w x = w' x) : weight w xs = weight w' xs := by
  induction xs with
  | nil => rfl
  | cons x xs ih =>
    rw [weight_cons, weight_cons, h x List.mem_cons_self,
      ih fun y hy => h y (List.mem_cons_of_mem x hy)]

theorem weight_le_of_suffix (h : xs <:+ ys) : weight w xs ≤ weight w ys := by
  obtain ⟨t, rfl⟩ := h
  rw [weight_append]
  exact Nat.le_add_left ..

theorem length_le_weight (h : ∀ x ∈ xs, 1 ≤ w x) : xs.length ≤ weight w xs := by
  induction xs with
  | nil => exact Nat.le_refl 0
  | cons x xs ih =>
    have hx : 1 ≤ w x := h x List.mem_cons_self
    have hxs := ih fun y hy => h y (List.mem_cons_of_mem x hy)
    rw [List.length_cons, weight_cons]
    omega

/-- What stays of the queue within the bound. -/
def trim (w : α → Nat) (m : Nat) : List α → List α
  | [] => []
  | x :: xs => if m < weight w (x :: xs) then trim w m xs else x :: xs

theorem trim_suffix (m : Nat) (xs : List α) : trim w m xs <:+ xs := by
  induction xs with
  | nil => exact List.suffix_rfl
  | cons x xs ih =>
    rw [trim]
    split
    · exact ih.trans (List.suffix_cons x xs)
    · exact List.suffix_rfl

theorem weight_trim_le (m : Nat) (xs : List α) : weight w (trim w m xs) ≤ m := by
  induction xs with
  | nil => exact Nat.zero_le m
  | cons x xs ih =>
    rw [trim]
    split
    · exact ih
    · omega

/-- No longer end of the queue is within the bound. -/
theorem suffix_trim {m : Nat} (h : ys <:+ xs) (hm : weight w ys ≤ m) : ys <:+ trim w m xs := by
  induction xs with
  | nil => exact h
  | cons x xs ih =>
    rw [trim]
    split
    · rename_i hlt
      rcases List.suffix_cons_iff.mp h with rfl | hsuffix
      · exact absurd hm (not_le.mpr hlt)
      · exact ih hsuffix
    · exact h

theorem trim_mono {m m' : Nat} (h : ys <:+ xs) (hm : m ≤ m') : trim w m ys <:+ trim w m' xs :=
  suffix_trim ((trim_suffix m ys).trans h) ((weight_trim_le m ys).trans hm)

end IstioVendor.Lib
