import Mathlib.Algebra.Order.Floor.Semiring
import IstioVendor.Lib.Ranks
import IstioVendor.Proofs.Stats.Intervals

/-!
# `IstioVendor.Proofs.Stats.Percentiles`: what `CalcPercentile` computes

`CalcPercentile` looks for the first bucket whose percentage is not below the percentile, and
interpolates in it. `locate_between` says which bucket this is, by the numbers of values before
and up to it. The rank of the percentile lies between the same numbers, so the value of this rank
was counted in the bucket the result comes from, and the result is off by at most its width
(`calcPercentile_accurate`).
-/

set_option autoImplicit false

namespace IstioVendor.Stats

open Lib

/-! ### The search -/

/-- The percentage of the last bucket, or `pp` when there is none. -/
def lastPercent (pp : Rat) (bs : List Bucket) : Rat := (bs.getLast?.map Bucket.percent).getD pp

variable {p : Rat} {i : Fin numBuckets}

/-- The search ends at the first bucket whose percentage is not below the percentile. -/
theorem locateIn_append {pp : Rat} {pre post : List Bucket} {cur : Bucket}
    (hpre : ∀ b ∈ pre, b.percent < p) (hcur : p ≤ cur.percent) :
    locateIn p pp (pre ++ cur :: post) = .between (lastPercent pp pre) cur := by
  induction pre generalizing pp with
  | nil =>
    rw [List.nil_append, locateIn, if_pos hcur]
    rfl
  | cons b pre ih =>
    rw [List.forall_mem_cons] at hpre
    rw [List.cons_append, locateIn, if_neg (not_le.mpr hpre.1), ih hpre.2]
    congr 1
    cases pre with
    | nil => rfl
    | cons b' pre => rw [lastPercent, lastPercent, List.getLast?_cons_cons]; rfl

namespace Histogram

/-- The percentile behind which the bucket `i` starts. -/
def percentBefore (h : Histogram) (i : Fin numBuckets) : Rat :=
  if h.below i = 0 then 100 / h.count else 100 * h.below i / h.count

end Histogram

namespace Recorded

open Histogram

section
variable {offset divider : Rat} {vs : List Rat} {h : Histogram}

theorem count_pos (hr : Recorded offset divider vs h) : (0 : Rat) < h.count := by
  rw [hr.count_eq]
  exact_mod_cast hr.length_pos

/-- The percentage of the bucket before is the one behind which `i` starts. -/
theorem lastPercent_filled {pre post : List (Fin numBuckets)} (ht : Tally h.hdata vs.length)
    (hfilled : h.filled = pre ++ i :: post) :
    lastPercent (100 / h.count) (pre.map h.bucketAt) = h.percentBefore i := by
  have hsorted := hfilled ▸ h.filled_pairwise
  -- The list is sorted, so that the filled buckets below `i` are those before it.
  have hmem : ∀ j, h.hdata j ≠ 0 → j.val < i.val → j ∈ pre := by
    intro j hj hji
    have hin : j ∈ pre ++ i :: post := hfilled ▸ mem_filled.mpr hj
    rw [List.pairwise_append, List.pairwise_cons] at hsorted
    rcases List.mem_append.mp hin with hpre | hrest
    · exact hpre
    · rcases List.mem_cons.mp hrest with rfl | hpost
      · omega
      · have : i.val < j.val := hsorted.2.1.1 j hpost
        omega
  rcases List.eq_nil_or_concat pre with rfl | ⟨before, k, rfl⟩
  · have hzero : h.below i = 0 := by
      rw [Histogram.below_eq_zero_iff ht i.isLt.le]
      intro j hji
      by_contra hj
      exact absurd (hmem j hj hji) List.not_mem_nil
    rw [percentBefore, if_pos hzero]
    rfl
  · rw [List.concat_eq_append] at *
    rw [List.pairwise_append] at hsorted
    have hk : h.hdata k ≠ 0 := mem_filled.mp (hfilled ▸ by simp)
    have hki : k.val < i.val := hsorted.2.2 k (by simp) i List.mem_cons_self
    -- Nothing was counted between the last of them and `i`.
    have hbelow : h.below i = h.below (k + 1) := by
      refine below_eq_of_empty hki i.isLt.le fun j hkj hji => ?_
      by_contra hj
      have hjk := hmem j hj hji
      rcases List.mem_append.mp hjk with hbefore | hlast
      · have : j.val < k.val :=
          (List.pairwise_append.mp hsorted.1).2.2 j hbefore k (List.mem_singleton_self k)
        omega
      · obtain rfl := List.mem_singleton.mp hlast
        omega
    have hpos : h.below i ≠ 0 := by
      intro hzero
      exact hk ((Histogram.below_eq_zero_iff ht i.isLt.le).mp hzero k hki)
    rw [percentBefore, if_neg hpos, hbelow, List.map_append, List.map_singleton, lastPercent,
      List.getLast?_concat]
    rfl

section
variable (hr : Recorded offset divider vs h)
include hr

/-- A percentile between those of the minimum and of the maximum is found in one bucket with
values. -/
theorem locate_between (hlow : 100 / h.count < p) (hhigh : p < 100) :
    ∃ pre i post, h.filled = pre ++ i :: post ∧
      h.exportData.locate p = .between (h.percentBefore i) (h.bucketAt i) ∧
      h.percentBefore i < p ∧ p ≤ (h.bucketAt i).percent := by
  have hcount := hr.count_pos
  -- The percentage of the last bucket is 100, so that the search finds one.
  have hex : ∃ i ∈ h.filled, p ≤ (h.bucketAt i).percent := by
    rcases List.eq_nil_or_concat h.filled with hnil | ⟨is, i, hfilled⟩
    · exact absurd hnil hr.filled_ne_nil
    rw [List.concat_eq_append] at hfilled
    refine ⟨i, by simp [hfilled], ?_⟩
    have hpercent : (h.bucketAt i).percent = 100 := by
      change 100 * (h.below (i + 1) : Rat) / h.count = 100
      rw [below_of_filled_eq_append hfilled, below_numBuckets hr.tally, ← hr.count_eq]
      field_simp
    rw [hpercent]
    exact hhigh.le
  obtain ⟨i, hfind⟩ := Option.isSome_iff_exists.mp
    (List.find?_isSome (p := fun i => decide (p ≤ (h.bucketAt i).percent)) |>.mpr
      (by simpa using hex))
  obtain ⟨hi, pre, post, hfilled, hpre⟩ := List.find?_eq_some_iff_append.mp hfind
  simp only [decide_eq_true_eq, Bool.not_eq_true', decide_eq_false_iff_not, not_le] at hi hpre
  have hbefore := lastPercent_filled hr.tally hfilled
  refine ⟨pre, i, post, hfilled, ?_, ?_, hi⟩
  · have hdata : h.exportData.data = pre.map h.bucketAt ++ h.bucketAt i :: post.map h.bucketAt := by
      rw [hr.data_eq, hfilled, List.map_append, List.map_cons]
    rw [HistogramData.locate, if_neg hr.data_ne_nil, if_neg (not_le.mpr hhigh)]
    change (if p ≤ 100 / (h.count : Rat) then Located.min
      else locateIn p (100 / (h.count : Rat)) h.exportData.data) = _
    rw [if_neg (not_le.mpr hlow), hdata, locateIn_append (by simpa using hpre) hi, hbefore]
  · rw [← hbefore]
    rcases List.eq_nil_or_concat pre with rfl | ⟨before, k, rfl⟩
    · exact hlow
    · rw [List.concat_eq_append, List.map_append, List.map_singleton, lastPercent,
        List.getLast?_concat]
      exact hpre k (by simp)

theorem locate_max (hp : 100 ≤ p) : h.exportData.locate p = .max := by
  rw [HistogramData.locate, if_neg hr.data_ne_nil, if_pos hp]

theorem locate_min (hp : p < 100) (hlow : p ≤ 100 / h.count) : h.exportData.locate p = .min := by
  rw [HistogramData.locate, if_neg hr.data_ne_nil, if_neg (not_le.mpr hp)]
  exact if_pos hlow

theorem calcPercentile_max (hp : 100 ≤ p) : h.exportData.calcPercentile p = h.max := by
  rw [HistogramData.calcPercentile, hr.locate_max hp]
  rfl

theorem calcPercentile_min (hp : p < 100) (hlow : p ≤ 100 / h.count) :
    h.exportData.calcPercentile p = h.min := by
  rw [HistogramData.calcPercentile, hr.locate_min hp hlow]
  rfl

end

theorem calcPercentile_of_between
    (hloc : h.exportData.locate p = .between (h.percentBefore i) (h.bucketAt i)) :
    h.exportData.calcPercentile p = (h.bucketAt i).start
      + (p - h.percentBefore i) / ((h.bucketAt i).percent - h.percentBefore i)
        * ((h.bucketAt i).stop - (h.bucketAt i).start) := by
  rw [HistogramData.calcPercentile, hloc]

section
variable (hr : Recorded offset divider vs h)
include hr

/-- The percentile of the minimum is 100 only for a single value. -/
theorem length_eq_one (hle : 100 ≤ 100 / (h.count : Rat)) : vs.length = 1 := by
  have hpos := hr.length_pos
  rw [le_div_iff₀ hr.count_pos, hr.count_eq] at hle
  have hone : (vs.length : Rat) ≤ 1 := by
    push_cast at hle
    linarith
  have : vs.length ≤ 1 := by exact_mod_cast hone
  omega

theorem min_eq_max_of_one (hone : vs.length = 1) : h.min = h.max := by
  obtain ⟨v, rfl⟩ := List.length_eq_one_iff.mp hone
  rw [List.mem_singleton.mp hr.min_mem, List.mem_singleton.mp hr.max_mem]

/-! ### The rank of a percentile -/

theorem below_lt_rank (hp : h.percentBefore i < p) :
    h.below i < (max 1 ⌈p * vs.length / 100⌉₊ : Nat) := by
  by_cases hzero : h.below i = 0
  · rw [hzero]
    exact_mod_cast lt_of_lt_of_le Nat.one_pos (le_max_left _ _)
  · rw [percentBefore, if_neg hzero, div_lt_iff₀ hr.count_pos, hr.count_eq] at hp
    have hceil := Nat.le_ceil (p * vs.length / 100)
    have hlt : (h.below i : Rat) < (⌈p * vs.length / 100⌉₊ : Nat) := by
      push_cast at hp
      linarith
    have hle : (⌈p * vs.length / 100⌉₊ : Int) ≤ (max 1 ⌈p * vs.length / 100⌉₊ : Nat) := by
      exact_mod_cast le_max_right _ _
    exact lt_of_lt_of_le (by exact_mod_cast hlt) hle

theorem rank_le_below (hi : h.hdata i ≠ 0) (hp : p ≤ (h.bucketAt i).percent) :
    (max 1 ⌈p * vs.length / 100⌉₊ : Nat) ≤ h.below (i + 1) := by
  have hone : 1 ≤ h.below (i + 1) := by
    have h1 := h.below_succ i
    have h2 := entry_pos hr.tally hi
    have h3 := below_nonneg hr.tally i.isLt.le
    omega
  obtain ⟨n, hn⟩ := Int.eq_ofNat_of_zero_le (by omega : 0 ≤ h.below (i + 1))
  change p ≤ 100 * (h.below (i + 1) : Rat) / h.count at hp
  rw [le_div_iff₀ hr.count_pos, hr.count_eq, hn] at hp
  have hceil : ⌈p * vs.length / 100⌉₊ ≤ n := by
    rw [Nat.ceil_le]
    push_cast at hp
    linarith
  rw [hn]
  exact_mod_cast max_le (by omega) hceil

/-- A value whose rank is in the range of a bucket is in the bucket. -/
theorem bucket_of_rank (hd : 0 < divider) {k : Nat} {v : Rat} (hv : kthSmallest vs k = some v)
    (hlow : h.below i < k) (hhigh : k ≤ h.below (i + 1)) : bucket offset divider v = some i := by
  have hmem := mem_of_kthSmallest hv
  obtain ⟨j, hj⟩ := hr.bucketed v hmem
  rw [hr.below_eq_countP i.isLt.le] at hlow
  rw [hr.below_eq_countP (show i.val + 1 ≤ numBuckets from i.isLt)] at hhigh
  rcases lt_trichotomy j i with hji | rfl | hij
  · -- The values up to `v` are all in buckets before `i`.
    have hall := le_countP (P := fun w => (bucket offset divider w).any (·.val < i.val)) hv
      fun w hw hwv => by
        obtain ⟨jw, hjw⟩ := hr.bucketed w hw
        have hle : jw.val ≤ j.val := bucket_le_bucket hd hjw hj hwv
        simp only [hjw, Option.any_some, decide_eq_true_eq]
        omega
    omega
  · exact hj
  · -- The values in buckets up to `i` are all below `v`.
    have hfew := countP_lt (P := fun w => (bucket offset divider w).any (·.val < i.val + 1)) hv
      fun w hw hwi => by
        obtain ⟨jw, hjw⟩ := hr.bucketed w hw
        simp only [hjw, Option.any_some, decide_eq_true_eq] at hwi
        by_contra hge
        have hle : j.val ≤ jw.val := bucket_le_bucket hd hj hjw (not_lt.mp hge)
        omega
    omega

end

end

end Recorded

/-! ### Accuracy -/

/-- A point between `a` and `b`, compared with a value that is not below `a` and not above `b` by
more than `e`. -/
theorem abs_interpolate_sub_le {a b e t v : Rat} (ht0 : 0 ≤ t) (ht1 : t ≤ 1) (he : 0 ≤ e)
    (hav : a ≤ v) (hvb : v ≤ b + e) : |a + t * (b - a) - v| ≤ |b - a| + e := by
  rcases le_total a b with hab | hba
  · have h1 := mul_nonneg ht0 (sub_nonneg.mpr hab)
    have h2 := mul_le_mul_of_nonneg_right ht1 (sub_nonneg.mpr hab)
    rw [abs_of_nonneg (sub_nonneg.mpr hab), abs_le]
    constructor <;> linarith
  · have h1 := mul_nonneg ht0 (sub_nonneg.mpr hba)
    have h2 := mul_le_mul_of_nonneg_right ht1 (sub_nonneg.mpr hba)
    rw [abs_of_nonpos (sub_nonpos.mpr hba), abs_le]
    constructor <;> linarith

/-- `CalcPercentile` is exact at both ends. Between them it interpolates in the bucket that
counted the value of the rank, and is off by at most the width of the bucket and what `record`
takes off. -/
theorem calcPercentile_accurate {offset divider p : Rat} {vs : List Rat} {h : Histogram}
    (hd : 0 < divider) (hne : vs ≠ []) (hlt : vs.length < 2 ^ 31)
    (hrec : ((newHistogram offset divider).bind fun h => h.recordAll vs) = some h) :
    (p ≤ 100 / vs.length → h.exportData.calcPercentile p = h.exportData.min) ∧
    (100 ≤ p → h.exportData.calcPercentile p = h.exportData.max) ∧
    (100 / vs.length < p → p < 100 →
      ∃ (v : Rat) (j : Nat) (i : Fin numBuckets) (pp : Rat) (b : Bucket),
        kthSmallest vs (max 1 ⌈p * vs.length / 100⌉₊) = some v ∧
        h.exportData.locate p = .between pp b ∧ h.exportData.data[j]? = some b ∧
        h.filled[j]? = some i ∧ bucket offset divider v = some i ∧
        |h.exportData.calcPercentile p - v| ≤ |b.stop - b.start| + divider / 10000) := by
  have hr := recorded_of_new hne hlt hrec
  have hcount : 100 / (vs.length : Rat) = 100 / h.count := by
    rw [hr.count_eq, Int.cast_natCast]
  refine ⟨fun hlow => ?_, hr.calcPercentile_max, fun hlow hhigh => ?_⟩
  · rw [hcount] at hlow
    rcases lt_or_ge p 100 with hp | hp
    · exact hr.calcPercentile_min hp hlow
    · -- Both ends only meet when there is one value.
      rw [hr.calcPercentile_max hp]
      exact (hr.min_eq_max_of_one (hr.length_eq_one (hp.trans hlow))).symm
  · rw [hcount] at hlow
    obtain ⟨pre, i, post, hfilled, hloc, hbefore, hupto⟩ := hr.locate_between hlow hhigh
    have hj : h.filled[pre.length]? = some i := by
      rw [hfilled]
      simp
    have hi : h.hdata i ≠ 0 := Histogram.mem_filled.mp (List.mem_of_getElem? hj)
    have hrank := hr.rank_le_below hi hupto
    have hle : h.below (i + 1) ≤ vs.length := Histogram.below_le hr.tally i.isLt
    obtain ⟨v, hv⟩ := exists_kthSmallest vs (k := max 1 ⌈p * vs.length / 100⌉₊)
      (lt_of_lt_of_le Nat.one_pos (le_max_left _ _)) (by omega)
    -- The rank is above all that was counted before the bucket, and not above what is in it.
    have hbucket := hr.bucket_of_rank hd hv (hr.below_lt_rank hbefore) hrank
    have hmem := mem_of_kthSmallest hv
    refine ⟨v, pre.length, i, _, _, hv, hloc, hr.data_of_filled hj, hj, hbucket, ?_⟩
    have hwidth : 0 < (h.bucketAt i).percent - h.percentBefore i := by linarith
    rw [Recorded.calcPercentile_of_between hloc]
    refine abs_interpolate_sub_le ?_ ?_ ?_ (hr.start_le hd hmem hbucket)
      (hr.le_stop_add hd hmem hbucket)
    · exact div_nonneg (by linarith) hwidth.le
    · rw [div_le_one hwidth]
      linarith
    · exact div_nonneg hd.le (by norm_num)

/-- The median of three values. -/
theorem calcPercentile_accurate_median :
    ∃ h, ((newHistogram 0 1).bind fun h => h.recordAll [1 / 2, 3 / 2, 5 / 2]) = some h ∧
      ∃ v pp b, kthSmallest [1 / 2, 3 / 2, (5 / 2 : Rat)] (max 1 ⌈(50 * 3 / 100 : Rat)⌉₊) = some v ∧
        h.exportData.locate 50 = .between pp b ∧
        |h.exportData.calcPercentile 50 - v| ≤ |b.stop - b.start| + 1 / 10000 := by
  have hsome : ((newHistogram 0 1).bind fun h => h.recordAll [1 / 2, 3 / 2, 5 / 2]).isSome := by
    decide +kernel
  obtain ⟨h, hrec⟩ := Option.isSome_iff_exists.mp hsome
  obtain ⟨v, j, i, pp, b, hv, hloc, -, -, -, hacc⟩ :=
    (calcPercentile_accurate (p := 50) (by norm_num) (by simp) (by norm_num) hrec).2.2
      (by norm_num) (by norm_num)
  exact ⟨h, hrec, v, pp, b, hv, hloc, hacc⟩

end IstioVendor.Stats
