import Mathlib.Data.List.Sort

/-!
# `IstioVendor.Lib.Ranks`: the smallest entries of a list

`kthSmallest xs k` is the entry at the place `k` when the list is sorted, counted from 1. The
two rules about it compare `k` with a number of entries: at least `k` entries are not above the
`k`-th smallest one (`le_countP`), and fewer than `k` are below it (`countP_lt`).
-/

set_option autoImplicit false

namespace IstioVendor.Lib

variable {α : Type} [LinearOrder α] {k : Nat}

/-- The `k`-th smallest entry. -/
def kthSmallest (xs : List α) (k : Nat) : Option α :=
  if k = 0 then none else (xs.mergeSort (· ≤ ·))[k - 1]?

theorem exists_kthSmallest (xs : List α) (hpos : 0 < k) (hle : k ≤ xs.length) :
    ∃ v, kthSmallest xs k = some v := by
  rw [kthSmallest, if_neg hpos.ne']
  have hlt : k - 1 < (xs.mergeSort (· ≤ ·)).length := by
    rw [List.length_mergeSort]
    omega
  exact ⟨_, List.getElem?_eq_getElem hlt⟩

/-- The sorted list, split at the `k`-th smallest entry. -/
theorem split_of_kthSmallest {xs : List α} {v : α} (h : kthSmallest xs k = some v) :
    ∃ pre post, (pre ++ v :: post).Perm xs ∧ pre.length + 1 = k ∧ (∀ w ∈ pre, w ≤ v) ∧
      ∀ w ∈ post, v ≤ w := by
  unfold kthSmallest at h
  split_ifs at h with hzero
  obtain ⟨hlt, rfl⟩ := List.getElem?_eq_some_iff.mp h
  have hsorted := List.pairwise_mergeSort' (· ≤ ·) xs
  have hperm := List.mergeSort_perm xs (· ≤ ·)
  generalize xs.mergeSort (· ≤ ·) = ys at hlt hsorted hperm
  have hsplit : ys.take (k - 1) ++ ys[k - 1] :: ys.drop (k - 1 + 1) = ys := by
    rw [← List.drop_eq_getElem_cons, List.take_append_drop]
  rw [← hsplit, List.pairwise_append] at hsorted
  refine ⟨ys.take (k - 1), ys.drop (k - 1 + 1), hsplit.symm ▸ hperm, ?_, ?_, ?_⟩
  · rw [List.length_take]
    omega
  · intro w hw
    exact hsorted.2.2 w hw _ List.mem_cons_self
  · intro w hw
    exact (List.pairwise_cons.mp hsorted.2.1).1 w hw

theorem mem_of_kthSmallest {xs : List α} {v : α} (h : kthSmallest xs k = some v) : v ∈ xs := by
  obtain ⟨pre, post, hperm, -⟩ := split_of_kthSmallest h
  exact hperm.subset (List.mem_append_right pre List.mem_cons_self)

section
variable {xs : List α} {k : Nat} {v : α} {P : α → Bool}

/-- At least `k` entries satisfy what holds up to the `k`-th smallest one. -/
theorem le_countP (h : kthSmallest xs k = some v) (hP : ∀ w ∈ xs, w ≤ v → P w) :
    k ≤ xs.countP P := by
  obtain ⟨pre, post, hperm, hlen, hpre, -⟩ := split_of_kthSmallest h
  have hfirst : (pre ++ [v]).countP P = (pre ++ [v]).length := by
    rw [List.countP_eq_length]
    intro w hw
    have hmem : w ∈ pre ++ v :: post := by
      rw [← List.singleton_append, ← List.append_assoc]
      exact List.mem_append_left post hw
    rcases List.mem_append.mp hw with hw | hw
    · exact hP w (hperm.subset hmem) (hpre w hw)
    · exact hP w (hperm.subset hmem) (List.mem_singleton.mp hw).le
  rw [← hperm.countP_eq, ← List.singleton_append, ← List.append_assoc, List.countP_append, hfirst,
    List.length_append, List.length_singleton]
  omega

/-- Fewer than `k` entries satisfy what holds only below the `k`-th smallest one. -/
theorem countP_lt (h : kthSmallest xs k = some v) (hP : ∀ w ∈ xs, P w → w < v) :
    xs.countP P < k := by
  obtain ⟨pre, post, hperm, hlen, -, hpost⟩ := split_of_kthSmallest h
  have hrest : (v :: post).countP P = 0 := by
    rw [List.countP_eq_zero]
    intro w hw hPw
    have hlt := hP w (hperm.subset (List.mem_append_right pre hw)) hPw
    rcases List.mem_cons.mp hw with rfl | hw
    · exact lt_irrefl _ hlt
    · exact absurd hlt (not_lt.mpr (hpost w hw))
  have hle := List.countP_le_length (p := P) (l := pre)
  rw [← hperm.countP_eq, List.countP_append, hrest]
  omega

end

end IstioVendor.Lib
