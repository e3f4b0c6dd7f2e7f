import Mathlib.Algebra.BigOperators.Pi
import Mathlib.Algebra.Order.BigOperators.Group.Finset
import Mathlib.Data.BitVec
import Mathlib.Data.Fintype.BigOperators
import Mathlib.Data.List.Forall2
import Mathlib.Data.Multiset.Replicate

/-!
# `IstioVendor.Lib.Tally`: summaries of a multiset

Summaries of finitely many values, and how they combine.

`Extremes` is the least and the greatest value. The extremes of a sum of multisets are the
smaller and the larger one of the extremes (`Extremes.add`).

`sumOption` is the sum of the terms of a list, when each of them exists. It does not depend on
the order (`sumOption_perm`).

`Tally` is a family of 32-bit counters that count a number of things between them. Machine
addition of two families adds their numbers while the sum is below `2 ^ 31` (`Tally.add`): no
counter can be larger than the number counted, so that none of them wraps.
-/

set_option autoImplicit false

namespace IstioVendor.Lib

/-! ### Extremes -/

variable {n : Nat}

section Extremes

variable {α : Type} [LinearOrder α] {m : Multiset α}

/-- `lo` is the least and `hi` the greatest value of `m`. -/
structure Extremes (m : Multiset α) (lo hi : α) : Prop where
  lo_mem : lo ∈ m
  le : ∀ v ∈ m, lo ≤ v
  hi_mem : hi ∈ m
  ge : ∀ v ∈ m, v ≤ hi

theorem Extremes.unique {lo hi lo' hi' : α} (h : Extremes m lo hi) (h' : Extremes m lo' hi') :
    lo = lo' ∧ hi = hi' :=
  ⟨le_antisymm (h.le _ h'.lo_mem) (h'.le _ h.lo_mem),
    le_antisymm (h'.ge _ h.hi_mem) (h.ge _ h'.hi_mem)⟩

theorem Extremes.replicate (hn : n ≠ 0) (v : α) : Extremes (Multiset.replicate n v) v v where
  lo_mem := Multiset.mem_replicate.mpr ⟨hn, rfl⟩
  le := fun _ hu => (Multiset.eq_of_mem_replicate hu).ge
  hi_mem := Multiset.mem_replicate.mpr ⟨hn, rfl⟩
  ge := fun _ hu => (Multiset.eq_of_mem_replicate hu).le

/-- The extremes of a sum, when both parts have values. -/
theorem Extremes.add {m' : Multiset α} {lo hi lo' hi' : α} (h : Extremes m lo hi)
    (h' : Extremes m' lo' hi') : Extremes (m + m') (min lo lo') (max hi hi') where
  lo_mem := by
    rcases min_choice lo lo' with heq | heq <;> rw [heq, Multiset.mem_add]
    · exact .inl h.lo_mem
    · exact .inr h'.lo_mem
  le := fun v hv => by
    rcases Multiset.mem_add.mp hv with hv | hv
    · exact min_le_of_left_le (h.le v hv)
    · exact min_le_of_right_le (h'.le v hv)
  hi_mem := by
    rcases max_choice hi hi' with heq | heq <;> rw [heq, Multiset.mem_add]
    · exact .inl h.hi_mem
    · exact .inr h'.hi_mem
  ge := fun v hv => by
    rcases Multiset.mem_add.mp hv with hv | hv
    · exact le_max_of_le_left (h.ge v hv)
    · exact le_max_of_le_right (h'.ge v hv)

end Extremes

/-! ### Sums of optional terms -/

section sumOption

variable {α β M : Type} [AddCommMonoid M] {f : α → Option M}

/-- The sum of the terms, if every element of the list has one. -/
def sumOption (f : α → Option M) : List α → Option M
  | [] => some 0
  | a :: l => (f a).bind fun x => (sumOption f l).map fun y => x + y

/-- The sum does not depend on the order of the list. -/
theorem sumOption_perm {l l' : List α} (h : l.Perm l') : sumOption f l = sumOption f l' := by
  induction h with
  | nil => rfl
  | cons a _ ih => rw [sumOption, ih, sumOption]
  | swap a b l =>
    simp only [sumOption]
    cases f a <;> cases f b <;> cases sumOption f l <;> simp [add_left_comm]
  | trans _ _ ih₁ ih₂ => exact ih₁.trans ih₂

theorem sumOption_append {l l' : List α} {x y : M} (h : sumOption f l = some x)
    (h' : sumOption f l' = some y) : sumOption f (l ++ l') = some (x + y) := by
  induction l generalizing x with
  | nil =>
    obtain rfl : 0 = x := Option.some.inj h
    rw [List.nil_append, h', zero_add]
  | cons a l ih =>
    obtain ⟨z, hz, hrest⟩ := Option.bind_eq_some_iff.mp h
    obtain ⟨w, hw, rfl⟩ := Option.map_eq_some_iff.mp hrest
    rw [List.cons_append, sumOption, hz, Option.bind_some, ih hw, Option.map_some, add_assoc]

/-- The sum over a list of lists, from the sums of the lists. -/
theorem sumOption_flatten {g : β → Option M} {ls : List (List α)} {bs : List β}
    (h : List.Forall₂ (fun l b => ∃ x, sumOption f l = some x ∧ g b = some x) ls bs) :
    ∃ x, sumOption f ls.flatten = some x ∧ sumOption g bs = some x := by
  induction h with
  | nil => exact ⟨0, rfl, rfl⟩
  | cons hab _ ih =>
    obtain ⟨x, hx, hg⟩ := hab
    obtain ⟨y, hy, hgs⟩ := ih
    refine ⟨x + y, sumOption_append hx hy, ?_⟩
    rw [sumOption, hg, Option.bind_some, hgs, Option.map_some]

theorem sumOption_replicate {a : α} {x : M} (h : f a = some x) (n : Nat) :
    sumOption f (List.replicate n a) = some (n • x) := by
  induction n with
  | zero => simp [sumOption]
  | succ n ih =>
    rw [List.replicate_succ, sumOption, h, Option.bind_some, ih, Option.map_some, succ_nsmul']

end sumOption

/-- Numbers that are not negative have a sum that is not. -/
theorem sum_snd_nonneg {κ : Type} {l : List (κ × Int)} (h : ∀ e ∈ l, 0 ≤ e.2) :
    0 ≤ (l.map Prod.snd).sum :=
  List.sum_nonneg fun x hx => by
    obtain ⟨e, he, rfl⟩ := List.mem_map.mp hx
    exact h e he

/-! ### Tallies -/

section Tally

variable {ι : Type} [Fintype ι]

/-- The counters of the family `d` count `n` things between them. -/
structure Tally (d : ι → BitVec 32) (n : Nat) : Prop where
  nonneg : ∀ i, 0 ≤ (d i).toInt
  total : ∑ i, (d i).toInt = n

theorem Tally.zero : Tally (0 : ι → BitVec 32) 0 where
  nonneg := fun _ => by simp
  total := by simp

theorem Tally.le {d : ι → BitVec 32} (h : Tally d n) (i : ι) : (d i).toInt ≤ n := by
  rw [← h.total]
  exact Finset.single_le_sum (f := fun i => (d i).toInt) (fun j _ => h.nonneg j) (Finset.mem_univ i)

/-- Two families with no wrap in their sum. -/
theorem Tally.add {d e : ι → BitVec 32} {m : Nat} (hd : Tally d m) (he : Tally e n)
    (hlt : m + n < 2 ^ 31) : Tally (d + e) (m + n) := by
  have hadd : ∀ i, ((d + e) i).toInt = (d i).toInt + (e i).toInt := fun i => by
    have h1 := hd.nonneg i
    have h2 := he.nonneg i
    have h3 := hd.le i
    have h4 := he.le i
    rw [Pi.add_apply, BitVec.toInt_add]
    exact Int.bmod_eq_of_le (by omega) (by omega)
  constructor
  · intro i
    rw [hadd]
    exact add_nonneg (hd.nonneg i) (he.nonneg i)
  · simp only [hadd, Finset.sum_add_distrib, hd.total, he.total, Nat.cast_add]

/-- One counter at `n`. -/
theorem Tally.single [DecidableEq ι] (i : ι) (hlt : n < 2 ^ 31) :
    Tally (Pi.single i (BitVec.ofInt 32 n)) n := by
  have hn : (BitVec.ofInt 32 (n : Int)).toInt = n := by
    rw [BitVec.toInt_ofInt]
    exact Int.bmod_eq_of_le (by omega) (by omega)
  have hsingle : ∀ j, (Pi.single (M := fun _ => BitVec 32) i (BitVec.ofInt 32 n) j).toInt
      = if j = i then (n : Int) else 0 := fun j => by
    by_cases h : j = i
    · subst h
      rw [Pi.single_eq_same, hn, if_pos rfl]
    · rw [Pi.single_eq_of_ne h, if_neg h]
      rfl
  constructor
  · intro j
    rw [hsingle]
    split <;> omega
  · simp only [hsingle, Finset.sum_ite_eq', Finset.mem_univ, if_true]

end Tally

end IstioVendor.Lib
