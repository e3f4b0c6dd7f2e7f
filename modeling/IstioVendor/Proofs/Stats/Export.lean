import Mathlib.Data.List.FinRange
import Mathlib.Data.List.Sort
import IstioVendor.Proofs.Stats.Buckets

/-!
# `IstioVendor.Proofs.Stats.Export`: what `Export` lists

`Export` is one loop over the buckets. It carries the boundary before the current bucket and the
number of values so far, skips the empty buckets, and corrects the end of the last entry behind
the loop. `exportData_data` is its closed form: the buckets that are not empty, in order, each
as `bucketAt` describes it. `below k` is the number of values in the first `k` buckets, and it
says which bucket is the first one and which is the last one.

`bucketAt` shows the two irregular starts. The first bucket starts at the minimum. The bucket
above the last boundary starts at this boundary, also when it is the first one.
-/

set_option autoImplicit false

namespace IstioVendor.Stats

open Lib

variable {i : Fin numBuckets} {is : List (Fin numBuckets)} {k : Nat}

namespace Histogram

/-- The number of values in the first `k` buckets. -/
def below (h : Histogram) (k : Nat) : Int :=
  (((List.finRange numBuckets).take k).map fun i => (h.hdata i).toInt).sum

/-- The buckets with values. -/
def filled (h : Histogram) : List (Fin numBuckets) :=
  (List.finRange numBuckets).filter fun i => h.hdata i ≠ 0

/-- The entry for the bucket `i` when it is not empty. -/
def bucketAt (h : Histogram) (i : Fin numBuckets) : Bucket where
  start :=
    if i.val = numValues then edge h.offset h.divider (i - 1)
    else if h.below i = 0 then h.min
    else edge h.offset h.divider (i - 1)
  stop := if h.below (i + 1) = h.below numBuckets then h.max else edge h.offset h.divider i
  percent := 100 * h.below (i + 1) / h.count
  count := (h.hdata i).toInt

/-- The entry as the loop makes it, before the last one is corrected. -/
def enteredAt (h : Histogram) (i : Fin numBuckets) : Bucket :=
  { h.bucketAt i with
      stop := if i.val = numValues then h.max else edge h.offset h.divider i }

/-! ### Numbers of values -/

theorem take_finRange_succ {n : Nat} (hk : k < n) :
    (List.finRange n).take (k + 1) = (List.finRange n).take k ++ [⟨k, hk⟩] := by
  rw [List.take_add_one, List.getElem?_eq_getElem (by simpa using hk)]
  simp

section
variable {h : Histogram} {n : Nat}

theorem below_succ (h : Histogram) (i : Fin numBuckets) :
    h.below (i + 1) = h.below i + (h.hdata i).toInt := by
  unfold below
  simp

theorem below_all (h : Histogram) : h.below numBuckets = ∑ i, (h.hdata i).toInt := by
  unfold below
  rw [List.take_of_length_le (by simp), ← List.ofFn_eq_map, List.sum_ofFn]

theorem below_numBuckets (ht : Tally h.hdata n) : h.below numBuckets = n :=
  h.below_all.trans ht.total

theorem below_mono (ht : Tally h.hdata n) {j : Nat} (hjk : j ≤ k) (hk : k ≤ numBuckets) :
    h.below j ≤ h.below k := by
  induction k, hjk using Nat.le_induction with
  | base => exact le_rfl
  | succ k _ ih =>
    have hstep := h.below_succ ⟨k, hk⟩
    have hnonneg := ht.nonneg ⟨k, hk⟩
    simp only at hstep
    omega

theorem below_nonneg (ht : Tally h.hdata n) (hk : k ≤ numBuckets) : 0 ≤ h.below k :=
  below_mono ht (Nat.zero_le k) hk

theorem below_le (ht : Tally h.hdata n) (hk : k ≤ numBuckets) : h.below k ≤ n :=
  (below_mono ht hk le_rfl).trans_eq (below_numBuckets ht)

theorem toInt_eq_zero_iff (b : BitVec 32) : b.toInt = 0 ↔ b = 0 := by
  rw [← BitVec.toInt_inj]
  simp

theorem mem_filled : i ∈ h.filled ↔ h.hdata i ≠ 0 := by
  simp [filled, List.mem_finRange]

theorem entry_pos (ht : Tally h.hdata n) (hi : h.hdata i ≠ 0) : 0 < (h.hdata i).toInt :=
  lt_of_le_of_ne (ht.nonneg i) fun h0 => hi ((toInt_eq_zero_iff _).mp h0.symm)

/-- A bucket with values comes before the end. -/
theorem below_lt_of_filled (ht : Tally h.hdata n) (hk : k ≤ i.val) (hi : h.hdata i ≠ 0) :
    h.below k < h.below numBuckets := by
  have h1 := below_mono ht hk i.isLt.le
  have h2 := below_mono ht (show i.val + 1 ≤ numBuckets from i.isLt) le_rfl
  have h3 := h.below_succ i
  have h4 := entry_pos ht hi
  omega

/-- Buckets without values add nothing. -/
theorem below_eq_of_empty {j : Nat} (hjk : j ≤ k) (hk : k ≤ numBuckets)
    (hempty : ∀ i : Fin numBuckets, j ≤ i.val → i.val < k → h.hdata i = 0) :
    h.below k = h.below j := by
  induction k, hjk using Nat.le_induction with
  | base => rfl
  | succ k hjk ih =>
    have hstep := h.below_succ ⟨k, hk⟩
    rw [hempty ⟨k, hk⟩ hjk (Nat.lt_succ_self k)] at hstep
    rw [← ih (by omega) fun i hi hik => hempty i hi (by omega)]
    simpa using hstep

/-- The first `k` buckets have no values. -/
theorem below_eq_zero_iff (ht : Tally h.hdata n) (hk : k ≤ numBuckets) :
    h.below k = 0 ↔ ∀ i : Fin numBuckets, i.val < k → h.hdata i = 0 := by
  constructor
  · intro h0 i hi
    by_contra hne
    have h1 := below_mono ht (show i.val + 1 ≤ k from hi) hk
    have h2 := below_nonneg ht i.isLt.le
    have h3 := h.below_succ i
    have h4 := entry_pos ht hne
    omega
  · intro hall
    exact below_eq_of_empty (Nat.zero_le k) hk fun i _ hi => hall i hi

/-! ### The loop -/

/-- The variables of the loop at its start. -/
def Exporting.start : Exporting where
  prev := histogramBucketValues.getD 0 0
  total := 0
  data := []

theorem boundary_getElem? {i : Nat} (hi : i < numValues) :
    histogramBucketValues[i]? = some (boundary i) := by
  rw [boundary, List.getD_eq_getElem _ _ hi]
  exact List.getElem?_eq_getElem hi

theorem exportStep_of_zero (h : Histogram) (st : Exporting) (h0 : h.hdata i = 0) :
    h.exportStep st i = { st with prev := histogramBucketValues[i.val]?.getD st.prev } := by
  rw [exportStep, if_pos h0]

/-- A bucket with values is entered as `enteredAt` says, when the loop variables are right. -/
theorem exportStep_of_ne (ht : Tally h.hdata n) (hlt : n < 2 ^ 63) {st : Exporting}
    (hprev : st.prev = boundary (i - 1)) (htotal : st.total = h.below i)
    (hdata : st.data = [] ↔ h.below i = 0) (hne : h.hdata i ≠ 0) :
    h.exportStep st i = {
      prev := histogramBucketValues[i.val]?.getD st.prev
      total := h.below (i + 1)
      data := st.data ++ [h.enteredAt i] } := by
  have htotal' : int64 (st.total + (h.hdata i).toInt) = h.below (i + 1) := by
    have h1 := below_nonneg ht (show i.val + 1 ≤ numBuckets from i.isLt)
    have h2 := below_le ht (show i.val + 1 ≤ numBuckets from i.isLt)
    rw [htotal, ← below_succ]
    exact int64_of_range (by omega) (by omega)
  have hstart : h.divider * (st.prev : Rat) + h.offset = edge h.offset h.divider (i - 1) := by
    rw [hprev, edge]
  rw [exportStep, if_neg hne]
  simp only [htotal', hstart, hdata]
  congr 2
  unfold enteredAt bucketAt
  by_cases hi : i.val = numValues
  · -- Above the last boundary there is no further one, and the start is the last boundary.
    rw [List.getElem?_eq_none (show numValues ≤ i.val from hi.ge)]
    simp [hi]
  · have hi' : i.val < numValues := lt_of_le_of_ne (Nat.lt_succ_iff.mp i.isLt) hi
    rw [boundary_getElem? hi']
    simp [hi, edge]

/-- The loop over the first `k` buckets. -/
theorem foldl_exportStep (ht : Tally h.hdata n) (hlt : n < 2 ^ 63) (hk : k ≤ numBuckets) :
    ((List.finRange numBuckets).take k).foldl h.exportStep .start = {
      prev := boundary (min k numValues - 1)
      total := h.below k
      data := (((List.finRange numBuckets).take k).filter fun i => h.hdata i ≠ 0).map
        h.enteredAt } := by
  induction k with
  | zero => rfl
  | succ k ih =>
    have hkv : k ≤ numValues := Nat.lt_succ_iff.mp hk
    rw [take_finRange_succ hk, List.foldl_append, ih (by omega), List.foldl_cons, List.foldl_nil,
      List.filter_append, List.map_append, Nat.min_eq_left hkv]
    -- `prev` is the boundary before the bucket, whether the bucket is empty or not.
    have hprev : histogramBucketValues[k]?.getD (boundary (k - 1))
        = boundary (min (k + 1) numValues - 1) := by
      rcases Nat.lt_or_eq_of_le hkv with hlt' | rfl
      · rw [boundary_getElem? hlt', Nat.min_eq_left hlt']
        rfl
      · rw [List.getElem?_eq_none (le_refl numValues), Nat.min_eq_right (Nat.le_succ _)]
        rfl
    by_cases h0 : h.hdata ⟨k, hk⟩ = 0
    · have hbelow : h.below (k + 1) = h.below k :=
        below_eq_of_empty (Nat.le_succ k) hk fun i hi hik => by
          obtain rfl : i = ⟨k, hk⟩ := Fin.ext (show i.val = k by omega)
          exact h0
      rw [exportStep_of_zero _ _ h0, List.filter_cons_of_neg (by simpa using h0), hbelow]
      simp [hprev]
    · have hfirst : ((((List.finRange numBuckets).take k).filter fun i => h.hdata i ≠ 0).map
          h.enteredAt) = [] ↔ h.below k = 0 := by
        rw [List.map_eq_nil_iff, List.filter_eq_nil_iff, below_eq_zero_iff ht (by omega)]
        constructor
        · intro hall i hi
          have := hall i (List.mem_take_iff_getElem.mpr ⟨i, by simpa using hi, by simp⟩)
          simpa using this
        · intro hall i hi
          obtain ⟨j, hj, rfl⟩ := List.mem_take_iff_getElem.mp hi
          have hjk : j < k := by omega
          simpa using hall ⟨j, by omega⟩ hjk
      rw [exportStep_of_ne ht hlt rfl rfl hfirst h0, List.filter_cons_of_pos (by simpa using h0)]
      simp [hprev]

/-! ### The list of the buckets -/

theorem foldl_exportStep_data_of_zero (h : Histogram) (hzero : ∀ i ∈ is, h.hdata i = 0)
    (st : Exporting) : (is.foldl h.exportStep st).data = st.data := by
  induction is generalizing st with
  | nil => rfl
  | cons i is ih =>
    rw [List.forall_mem_cons] at hzero
    rw [List.foldl_cons, ih hzero.2, exportStep_of_zero _ _ hzero.1]

/-- The buckets behind `lastIdx` have no values, so the loop may as well go over all. -/
theorem foldl_exported_data (ht : Tally h.hdata n) (hlt : n < 2 ^ 63) :
    (h.exported.foldl h.exportStep .start).data = h.filled.map h.enteredAt := by
  have hrest : ∀ i ∈ (List.finRange numBuckets).rtakeWhile fun i => !decide (0 < (h.hdata i).toInt),
      h.hdata i = 0 := by
    intro i hi
    by_contra hne
    have hle := List.mem_rtakeWhile_imp hi
    simp [entry_pos ht hne] at hle
  calc (h.exported.foldl h.exportStep .start).data
      = ((List.finRange numBuckets).foldl h.exportStep .start).data := by
        rw [← foldl_exportStep_data_of_zero h hrest, ← List.foldl_append, exported,
          List.rdropWhile_append_rtakeWhile]
    _ = h.filled.map h.enteredAt := by
        have hall := foldl_exportStep ht hlt (le_refl numBuckets)
        rw [List.take_of_length_le (by simp)] at hall
        rw [hall]
        rfl

theorem endLast_append (stop : Rat) (bs : List Bucket) (b : Bucket) :
    endLast stop (bs ++ [b]) = bs ++ [{ b with stop := stop }] := by
  induction bs with
  | nil => rfl
  | cons b' bs ih =>
    cases bs with
    | nil => rfl
    | cons b'' bs => exact congrArg (b' :: ·) ih

theorem filled_pairwise (h : Histogram) : h.filled.Pairwise (· < ·) :=
  (List.sortedLT_finRange numBuckets).pairwise.filter _

/-- Behind the last bucket with values there are no more. -/
theorem below_of_filled_eq_append (hfilled : h.filled = is ++ [i]) :
    h.below (i + 1) = h.below numBuckets := by
  refine (below_eq_of_empty i.isLt le_rfl fun j hij _ => ?_).symm
  by_contra hne
  have hmem : j ∈ is ++ [i] := hfilled ▸ mem_filled.mpr hne
  have hsorted := hfilled ▸ h.filled_pairwise
  rw [List.pairwise_append] at hsorted
  rcases List.mem_append.mp hmem with his | hlast
  · have hbefore : j.val < i.val := hsorted.2.2 j his i (List.mem_singleton_self i)
    omega
  · obtain rfl := List.mem_singleton.mp hlast
    omega

/-- `Export` in closed form. -/
theorem exportData_data (ht : Tally h.hdata n) (hlt : n < 2 ^ 63) :
    h.exportData.data = h.filled.map h.bucketAt := by
  change endLast h.max (h.exported.foldl h.exportStep .start).data = _
  rw [foldl_exported_data ht hlt]
  rcases List.eq_nil_or_concat h.filled with hnil | ⟨is, i, hfilled⟩
  · rw [hnil]
    rfl
  rw [List.concat_eq_append] at hfilled
  have hlast := below_of_filled_eq_append hfilled
  rw [hfilled, List.map_append, List.map_append, List.map_singleton, List.map_singleton,
    endLast_append]
  congr 1
  · -- An entry before the last one was made with its own end.
    refine List.map_congr_left fun j hj => ?_
    have hsorted := hfilled ▸ h.filled_pairwise
    have hji : j < i := (List.pairwise_append.mp hsorted).2.2 j hj i (List.mem_singleton_self i)
    have hi : h.hdata i ≠ 0 :=
      mem_filled.mp (hfilled ▸ List.mem_append_right is (List.mem_singleton_self i))
    have hbelow := below_lt_of_filled ht (show j.val + 1 ≤ i.val from hji) hi
    have hjv : j.val ≠ numValues := by
      unfold numBuckets at *
      omega
    simp [enteredAt, bucketAt, hbelow.ne, hjv]
  · simp [enteredAt, bucketAt, hlast]

end

end Histogram

end IstioVendor.Stats
