import IstioVendor.Proofs.Stats.Export
import IstioVendor.Proofs.Stats.Histories

/-!
# `IstioVendor.Proofs.Stats.Percents`: the counts and the percents of `Export`

`exportData_data` lists the buckets with values as `bucketAt` describes them, and `bucketAt` takes
the percent from `below`, the number of values in the buckets up to this one.
`sum_take_filled` says that this is the sum of the entries listed so far: the buckets that
`Export` skips add nothing. So the percents follow from the entries alone (`reports_of_tally`).

`history_reports` puts it together with the histories. The last percent is 100 because the
entries of `Hdata` add up to the count in every history, also through a merge of two scales.
-/

set_option autoImplicit false

namespace IstioVendor.Stats

open Lib

/-! ### The entries so far -/

theorem filter_le_of_pairwise {n : Nat} {is rest : List (Fin n)} {i : Fin n}
    (h : (is ++ i :: rest).Pairwise (· < ·)) :
    (is ++ i :: rest).filter (fun j => decide (j ≤ i)) = is ++ [i] := by
  obtain ⟨-, hrest, hbefore⟩ := List.pairwise_append.mp h
  have his : is.filter (fun j => decide (j ≤ i)) = is :=
    List.filter_eq_self.mpr fun j hj => decide_eq_true (hbefore j hj i List.mem_cons_self).le
  have hrest' : rest.filter (fun j => decide (j ≤ i)) = [] :=
    List.filter_eq_nil_iff.mpr fun j hj => by
      simpa using (List.pairwise_cons.mp hrest).1 j hj
  rw [List.filter_append, his, List.filter_cons_of_pos (by simp), hrest']

namespace Histogram

section
variable {h : Histogram} {n : Nat}

theorem below_succ_eq_filter (h : Histogram) (i : Fin numBuckets) :
    h.below (i + 1)
      = ((h.filled.filter fun j => decide (j ≤ i)).map fun j => (h.hdata j).toInt).sum := by
  have htake : (List.finRange numBuckets).take (i + 1)
      = (List.finRange numBuckets).filter fun j => decide (j ≤ i) := by
    have hsplit : (List.finRange numBuckets).take i ++ i :: (List.finRange numBuckets).drop (i + 1)
        = List.finRange numBuckets := by
      rw [List.append_cons, ← take_finRange_succ i.isLt, List.take_append_drop]
    have hsorted := (List.sortedLT_finRange numBuckets).pairwise
    rw [← hsplit] at hsorted
    have hfilter := filter_le_of_pairwise hsorted
    rw [hsplit] at hfilter
    rw [hfilter, take_finRange_succ i.isLt]
  rw [below, htake, ← sum_filter_ne_zero, filled, List.filter_filter, List.filter_filter]
  congr 3
  funext j
  exact Bool.and_comm _ _

/-- The entries that are listed up to the bucket `i` are all values in the buckets up to `i`. -/
theorem sum_take_filled {j : Nat} {i : Fin numBuckets} (hj : h.filled[j]? = some i) :
    ((h.filled.take (j + 1)).map fun k => (h.hdata k).toInt).sum = h.below (i + 1) := by
  have htake : h.filled.take (j + 1) = h.filled.take j ++ [i] := by
    rw [List.take_add_one, hj]
    rfl
  have hsplit : h.filled.take j ++ i :: h.filled.drop (j + 1) = h.filled := by
    rw [List.append_cons, ← htake, List.take_append_drop]
  have hsorted := h.filled_pairwise
  rw [← hsplit] at hsorted
  have hfilter := filter_le_of_pairwise hsorted
  rw [hsplit] at hfilter
  rw [below_succ_eq_filter, hfilter, htake]

/-- A bucket with values raises the number of values so far. -/
theorem below_succ_lt (ht : Tally h.hdata n) {i j : Fin numBuckets} (hij : i < j)
    (hj : h.hdata j ≠ 0) : h.below (i + 1) < h.below (j + 1) := by
  have hmono := below_mono ht (show i.val + 1 ≤ j.val from hij) j.isLt.le
  have hstep := h.below_succ j
  have hpos := entry_pos ht hj
  omega

/-! ### The report -/

/-- The sum of the counts in the first `j` entries of the export. -/
def listed (h : Histogram) (j : Nat) : Int := ((h.exportData.data.take j).map Bucket.count).sum

/-- What `Export` reports about the counts of a histogram with values. -/
structure Reports (h : Histogram) : Prop where
  buckets : h.exportData.data = h.filled.map h.bucketAt
  order : h.filled.Pairwise (· < ·)
  mem_iff : ∀ i, i ∈ h.filled ↔ 0 < (h.hdata i).toInt
  counts : h.exportData.data.map Bucket.count = h.filled.map fun i => (h.hdata i).toInt
  total : (h.exportData.data.map Bucket.count).sum = h.count
  percent : ∀ j b, h.exportData.data[j]? = some b →
    b.percent = 100 * (h.listed (j + 1) : Rat) / h.count
  increasing : (h.exportData.data.map Bucket.percent).Pairwise (· < ·)
  last : (h.exportData.data.map Bucket.percent).getLast? = some 100

theorem counts_of_buckets (hdata : h.exportData.data = h.filled.map h.bucketAt) :
    h.exportData.data.map Bucket.count = h.filled.map fun i => (h.hdata i).toInt := by
  rw [hdata, List.map_map]
  rfl

theorem percent_of_buckets (hdata : h.exportData.data = h.filled.map h.bucketAt) {j : Nat}
    {b : Bucket} (hb : h.exportData.data[j]? = some b) :
    b.percent = 100 * (h.listed (j + 1) : Rat) / h.count := by
  rw [hdata, List.getElem?_map] at hb
  obtain ⟨i, hi, rfl⟩ := Option.map_eq_some_iff.mp hb
  have hlisted : h.listed (j + 1) = h.below (i + 1) := by
    rw [listed, List.map_take, counts_of_buckets hdata, ← List.map_take, sum_take_filled hi]
  rw [hlisted]
  rfl

/-- The entries of `Hdata` that add up to the count make the report right. -/
theorem reports_of_tally (ht : Tally h.hdata n) (hlt : n < 2 ^ 63) (hcount : h.count = n)
    (hpos : 0 < h.count) : h.Reports := by
  have hdata := exportData_data ht hlt
  have hcount' : (0 : Rat) < h.count := by exact_mod_cast hpos
  have hpercent : h.exportData.data.map Bucket.percent
      = h.filled.map fun i => 100 * (h.below (i.val + 1) : Rat) / h.count := by
    rw [hdata, List.map_map]
    rfl
  refine ⟨hdata, h.filled_pairwise, fun i => ?_, counts_of_buckets hdata, ?_,
    fun j b hb => percent_of_buckets hdata hb, ?_, ?_⟩
  · rw [mem_filled]
    exact ⟨entry_pos ht, fun hi h0 => by simp [h0] at hi⟩
  · rw [sum_exportData_counts ht, hcount]
  · rw [hpercent, List.pairwise_map]
    refine h.filled_pairwise.imp_of_mem fun {i j} _ hj hij => ?_
    have hlt' : (h.below (i + 1) : Rat) < h.below (j + 1) := by
      exact_mod_cast below_succ_lt ht hij (mem_filled.mp hj)
    gcongr
  · rw [hpercent]
    rcases List.eq_nil_or_concat h.filled with hnil | ⟨is, i, hfilled⟩
    · -- Without entries the count is zero.
      have htotal := sum_exportData_counts ht
      rw [hdata, hnil, ← hcount] at htotal
      exact absurd htotal hpos.ne
    · rw [List.concat_eq_append] at hfilled
      have hall : (h.below (i + 1) : Rat) = h.count := by
        rw [below_of_filled_eq_append hfilled, below_numBuckets ht, hcount]
      rw [hfilled, List.map_append, List.map_singleton, List.getLast?_concat, hall,
        mul_div_assoc, div_self hcount'.ne', mul_one]

end

end Histogram

/-- After every history, the export of a histogram with values, fewer than `2 ^ 31`, lists the
buckets that are not empty in their order, with counts that add up to `Count`, and with
cumulative percents that end at 100. The other histograms of the history may hold more values,
up to the range of their counts. -/
theorem history_reports (ops : List Op) (hs : List Histogram) (hrun : run ops = some hs)
    (hwrap : ∀ pre, pre <+: ops → ∀ m ∈ values pre, m.card < 2 ^ 64)
    (i : Nat) (h : Histogram) (hi : hs[i]? = some h) (m : Multiset Rat)
    (hm : (values ops)[i]? = some m) (hsmall : m.card < 2 ^ 31) (hpos : 0 < h.count) :
    h.count = m.card ∧ h.Reports := by
  obtain ⟨m', hm', hfollows⟩ := forall₂_getElem? (follows_run hrun hwrap) hi
  obtain rfl : m' = m := Option.some.inj (hm'.symm.trans hm)
  have hh := hfollows.holds hsmall
  have hcount : h.count = m'.card := hfollows.count.trans (int64_of_nat (by omega))
  exact ⟨hcount, Histogram.reports_of_tally hh.tally (by omega) hcount hpos⟩

theorem history_reports_sample :
    ∃ hs h, run sampleHistory = some hs ∧ hs[3]? = some h ∧ h.count = 4 ∧ h.Reports := by
  have hwrap : ∀ pre ∈ sampleHistory.inits, ∀ m ∈ values pre, m.card < 2 ^ 64 := by decide +kernel
  obtain ⟨hs, hrun, hlen⟩ := (Option.any_eq_true _ _).mp
    (show (run sampleHistory).any (fun hs => hs[3]?.any fun h => decide (0 < h.count)) = true by
      decide +kernel)
  obtain ⟨h, hh, hpos⟩ := (Option.any_eq_true _ _).mp hlen
  obtain ⟨hcount, hreports⟩ := history_reports sampleHistory hs hrun
    (fun pre hpre => hwrap pre ((List.mem_inits _ _).mpr hpre)) 3 h hh {3, 5, 5, 3}
    (by decide +kernel) (by decide) (of_decide_eq_true hpos)
  exact ⟨hs, h, hrun, hh, hcount, hreports⟩

end IstioVendor.Stats
