import Mathlib.Data.List.GetD
import Mathlib.Order.Lattice

/-!
# `IstioVendor.Lib.Ranges`: a choice by cumulative weights

A list of weights that do not decrease cuts the values from `lo` on into half-open ranges: the range
with the number `i` ends before the weight `i`, and starts at the weight before it, or at `lo`.
`InRange` says in which range a value is, and that is behind the last one when there is none.

A search for the first weight that is not below the value finds this range exactly for the
values that are no weight (`inRange_findIdx_iff`). At a weight it finds the range that ends
there.
-/

set_option autoImplicit false

namespace IstioVendor.Lib

variable {α : Type} [LinearOrder α]

/-- The start of the range with the number `i`. -/
def rangeStart (lo : α) (ws : List α) (i : Nat) : α := if i = 0 then lo else ws.getD (i - 1) lo

/-- The number of the range in which `r` is, `none` behind the last one. -/
def InRange (lo : α) (ws : List α) (r : α) : Option Nat → Prop
  | some i => ∃ w, ws[i]? = some w ∧ rangeStart lo ws i ≤ r ∧ r < w
  | none => ∀ w ∈ ws.getLast?, w ≤ r

/-- The search with a comparison that is not strict. -/
theorem inRange_findIdx_iff {lo r : α} {ws : List α} (hlo : lo ≤ r)
    (hmono : ws.Pairwise (· ≤ ·)) :
    InRange lo ws r (ws.findIdx? fun w => decide (r ≤ w)) ↔ r ∉ ws := by
  cases hfind : ws.findIdx? fun w => decide (r ≤ w) with
  | none =>
    rw [List.findIdx?_eq_none_iff] at hfind
    refine iff_of_true (fun w hw => ?_) fun hmem => ?_
    · have hbelow := hfind w (List.mem_of_getLast? hw)
      exact (not_le.mp (of_decide_eq_false hbelow)).le
    · exact of_decide_eq_false (hfind r hmem) le_rfl
  | some i =>
    obtain ⟨hi, hle, hbefore⟩ := List.findIdx?_eq_some_iff_getElem.mp hfind
    have hle := of_decide_eq_true hle
    rcases hle.eq_or_lt with heq | hlt
    · -- The value is the weight itself, and the range ends before it.
      refine iff_of_false ?_ fun hnot => hnot (heq ▸ List.getElem_mem hi)
      rintro ⟨w, hw, -, hr⟩
      rw [List.getElem?_eq_getElem hi] at hw
      exact hr.ne (heq.trans (Option.some.inj hw))
    · have hearlier : ∀ j (hj : j < i), ws[j] < r := fun j hj =>
        not_le.mp fun h => hbefore j hj (decide_eq_true h)
      refine iff_of_true ⟨ws[i], List.getElem?_eq_getElem hi, ?_, hlt⟩ fun hmem => ?_
      · unfold rangeStart
        split_ifs with hzero
        · exact hlo
        · rw [List.getD_eq_getElem _ _ (show i - 1 < ws.length by omega)]
          exact (hearlier (i - 1) (by omega)).le
      · obtain ⟨j, hj, rfl⟩ := List.getElem_of_mem hmem
        rcases Nat.lt_trichotomy j i with hji | rfl | hij
        · exact lt_irrefl _ (hearlier j hji)
        · exact lt_irrefl _ hlt
        · exact not_lt.mpr (List.pairwise_iff_getElem.mp hmono i j hi hj hij) hlt

end IstioVendor.Lib
