import IstioVendor.Proofs.Stats.Percentiles

/-!
# `IstioVendor.Proofs.Stats.PercentileOrder`: when percentiles are ordered

A larger percentile should give a larger result, between `Min` and `Max`. The interpolation keeps
to this inside an interval that starts before it ends, and from one interval to the next. Two
irregular intervals break it, both of them at the start of the list. When all values are above
the last boundary, the interval starts at this boundary, below the minimum. When the minimum is
behind the boundary at the end of its bucket, the interval ends before it starts.

`percentilesOrdered_iff` says when nothing is interpolated at these places. No division by zero
and no end of the loop without a result are seen for any values (`Recorded.locate_ne`).
-/

set_option autoImplicit false

namespace IstioVendor.Stats

open Lib

/-- Percentiles as they are meant: between `Min` and `Max` and ordered. The interpolation does not
divide by zero, and the loop is left by its `return`. -/
structure PercentilesOrdered (e : HistogramData) : Prop where
  min_le : ∀ p, e.min ≤ e.calcPercentile p
  mono : ∀ p q, p ≤ q → e.calcPercentile p ≤ e.calcPercentile q
  le_max : ∀ p, e.calcPercentile p ≤ e.max
  divisor_ne : ∀ p pp cur, e.locate p = .between pp cur → cur.percent - pp ≠ 0
  reached : ∀ p, e.locate p ≠ .notReached

/-- The first bucket can be told from the minimum. `alone`: two or more values are not all above
the last boundary. `first`: the minimum is not behind the boundary at the end of its bucket, or
nothing is interpolated before the next but one boundary. -/
structure FirstInOrder (offset divider : Rat) (vs : List Rat) : Prop where
  alone : (∀ v ∈ vs, bucket offset divider v = some overflow) → vs.length = 1
  first : ∀ v ∈ vs, (∀ w ∈ vs, v ≤ w) → ∀ i, bucket offset divider v = some i →
    (∃ w ∈ vs, bucket offset divider w ≠ some i) →
    v ≤ edge offset divider i ∨
      (vs.countP fun w => bucket offset divider w = some i) = 1 ∧
        ∀ w ∈ vs, ∀ j, bucket offset divider w = some j → j.val ≠ i.val + 1

variable {i j : Fin numBuckets}

namespace Recorded

open Histogram

section
variable {offset divider : Rat} {vs : List Rat} {h : Histogram}

/-- The three results of `CalcPercentile`. -/
inductive Calculated (h : Histogram) (p : Rat) : Prop where
  | min (lt : p < 100) (le : p ≤ 100 / h.count) (calc_eq : h.exportData.calcPercentile p = h.min)
  | max (ge : 100 ≤ p) (calc_eq : h.exportData.calcPercentile p = h.max)
  | between (i : Fin numBuckets) (filled : h.hdata i ≠ 0) (gt_min : 100 / h.count < p)
      (lt : p < 100) (gt : h.percentBefore i < p) (le : p ≤ (h.bucketAt i).percent)
      (calc_eq : h.exportData.calcPercentile p = (h.bucketAt i).start
        + (p - h.percentBefore i) / ((h.bucketAt i).percent - h.percentBefore i)
          * ((h.bucketAt i).stop - (h.bucketAt i).start))

theorem calculated (hr : Recorded offset divider vs h) (p : Rat) : Calculated h p := by
  rcases le_or_gt 100 p with hp | hp
  · exact .max hp (hr.calcPercentile_max hp)
  rcases le_or_gt p (100 / h.count) with hlow | hlow
  · exact .min hp hlow (hr.calcPercentile_min hp hlow)
  obtain ⟨pre, i, post, hfilled, hloc, hgt, hle⟩ := hr.locate_between hlow hp
  have hi : h.hdata i ≠ 0 := mem_filled.mp (hfilled ▸ by simp)
  exact .between i hi hlow hp hgt hle (calcPercentile_of_between hloc)

theorem percent_eq (h : Histogram) (i : Fin numBuckets) :
    (h.bucketAt i).percent = 100 * h.below (i + 1) / h.count := rfl

section
variable (hr : Recorded offset divider vs h)
include hr

/-- A bucket starts behind the percentage of every earlier one. -/
theorem percent_le_percentBefore (hi : h.hdata i ≠ 0) (hij : i < j) :
    (h.bucketAt i).percent ≤ h.percentBefore j := by
  have hlater : h.below j ≠ 0 := by
    intro hzero
    exact hi ((Histogram.below_eq_zero_iff hr.tally j.isLt.le).mp hzero i hij)
  have hmono : (h.below (i + 1) : Rat) ≤ h.below j := by
    exact_mod_cast below_mono hr.tally (show i.val + 1 ≤ j.val from hij) j.isLt.le
  rw [percentBefore, if_neg hlater, percent_eq]
  have := hr.count_pos
  gcongr

/-- The percentiles that are interpolated in a later bucket are larger. -/
theorem le_of_percentiles {p q : Rat} (hj : h.hdata j ≠ 0) (hp : h.percentBefore i < p)
    (hq : q ≤ (h.bucketAt j).percent) (hpq : p ≤ q) : i ≤ j := by
  by_contra hlt
  have := hr.percent_le_percentBefore hj (not_le.mp hlt)
  linarith

/-! ### When they are ordered -/

theorem percent_le (i : Fin numBuckets) : (h.bucketAt i).percent ≤ 100 := by
  have hle : (h.below (i + 1) : Rat) ≤ h.count := by
    rw [hr.count_eq]
    exact_mod_cast below_le hr.tally i.isLt
  rw [percent_eq, div_le_iff₀ hr.count_pos]
  linarith

/-- The first bucket with values has the minimum. -/
theorem bucket_min_of_first (hd : 0 < divider) (hi : h.hdata i ≠ 0) (hfirst : h.below i = 0) :
    bucket offset divider h.min = some i := by
  obtain ⟨m, hm⟩ := hr.bucketed _ hr.min_mem
  obtain ⟨v, hv, hvi⟩ := hr.filled_iff.mp hi
  have hmi : m ≤ i := bucket_le_bucket hd hm hvi (hr.min_le hv)
  have him : i ≤ m := (hr.below_eq_zero_iff i.isLt.le).mp hfirst _ hr.min_mem m hm
  rw [hm, le_antisymm hmi him]

/-- The first bucket is not interpolated in when it has one value. -/
theorem percent_of_one (hfirst : h.below i = 0)
    (hone : (vs.countP fun w => bucket offset divider w = some i) = 1) :
    (h.bucketAt i).percent = h.percentBefore i := by
  have hupto : h.below (i + 1) = 1 := by
    rw [h.below_succ, hfirst, hr.entry, hone]
    rfl
  rw [percent_eq, hupto, percentBefore, if_pos hfirst]
  norm_num

/-- An interval that is interpolated in starts before it ends. -/
theorem start_le_stop (hd : 0 < divider) (hf : FirstInOrder offset divider vs)
    (hi : h.hdata i ≠ 0) (hwide : h.percentBefore i < (h.bucketAt i).percent) :
    (h.bucketAt i).start ≤ (h.bucketAt i).stop := by
  by_cases hfirst : h.below i = 0
  swap
  · exact hr.start_le_stop_of_later hd hi hfirst
  by_cases hlast : h.below (i + 1) = h.below numBuckets
  · exact hr.start_le_stop_of_last hd hi hlast
  have hmin := hr.bucket_min_of_first hd hi hfirst
  have hother : ∃ w ∈ vs, bucket offset divider w ≠ some i := by
    obtain ⟨w, hw, j, hj, hij⟩ := hr.below_ne_all_iff.mp hlast
    exact ⟨w, hw, fun hwi => hij.ne (Option.some.inj (hwi.symm.trans hj))⟩
  have hover : i ≠ overflow := by
    rintro rfl
    exact lt_irrefl _ (hr.lt_numValues hlast)
  rcases hf.first h.min hr.min_mem (fun w hw => hr.min_le hw) i hmin hother with hle | ⟨hone, -⟩
  · rw [start_first h hover hfirst, hr.stop_earlier hlast]
    exact hle
  · exact absurd (hr.percent_of_one hfirst hone) hwide.ne'

/-- It does not start before the minimum. -/
theorem min_le_start (hd : 0 < divider) (hf : FirstInOrder offset divider vs) (hi : h.hdata i ≠ 0)
    (hwide : h.percentBefore i < (h.bucketAt i).percent) : h.min ≤ (h.bucketAt i).start := by
  by_cases hfirst : h.below i = 0
  · by_cases hover : i = overflow
    · -- All values are above the last boundary, so there is one value and nothing to interpolate.
      subst hover
      have hall : ∀ v ∈ vs, bucket offset divider v = some overflow := by
        intro v hv
        obtain ⟨j, hj⟩ := hr.bucketed v hv
        have hle := (hr.below_eq_zero_iff overflow.isLt.le).mp hfirst v hv j hj
        rw [hj, le_antisymm (Fin.le_last j) hle]
        rfl
      have hone : h.count = 1 := by
        rw [hr.count_eq, hf.alone hall]
        rfl
      have hle := hr.percent_le overflow
      rw [percentBefore, if_pos hfirst, hone] at hwide
      linarith
    · exact (start_first h hover hfirst).ge
  · obtain ⟨m, hm⟩ := hr.bucketed _ hr.min_mem
    obtain ⟨v, hv, hvi⟩ := hr.filled_iff.mp hi
    have hne : m ≠ i := by
      rintro rfl
      exact hfirst (hr.below_bucket_min hd hm)
    have hbefore : m < i := lt_of_le_of_ne (bucket_le_bucket hd hm hvi (hr.min_le hv)) hne
    have hother : ∃ w ∈ vs, bucket offset divider w ≠ some m :=
      ⟨v, hv, fun hvm => hne (Option.some.inj (hvm.symm.trans hvi))⟩
    have hlt : i.val - 1 < numValues := by
      have := i.isLt
      unfold numBuckets at this
      omega
    rw [hr.start_later hfirst]
    rcases hf.first h.min hr.min_mem (fun w hw => hr.min_le hw) m hm hother with hle | ⟨-, hnext⟩
    · exact hle.trans (edge_le_edge hd (by omega) hlt)
    · -- The next bucket is empty, and the boundary behind it is a unit away.
      have hgap : i.val ≠ m.val + 1 := hnext v hv i hvi
      have hup := upper_of_bucket hd hm (by omega)
      have hunit : edge offset divider m.val + divider ≤ edge offset divider (m.val + 1) :=
        edge_add_le_edge hd (by omega)
      have hlater : edge offset divider (m.val + 1) ≤ edge offset divider (i.val - 1) :=
        edge_le_edge hd (by omega) hlt
      linarith

/-- No interval ends behind the maximum. -/
theorem stop_le_max (hd : 0 < divider) (hi : h.hdata i ≠ 0) : (h.bucketAt i).stop ≤ h.max := by
  by_cases hlast : h.below (i + 1) = h.below numBuckets
  · exact (stop_last h hlast).le
  · obtain ⟨w, hw, j, hj, hij⟩ := hr.below_ne_all_iff.mp hlast
    have hjne := hr.filled_iff.mpr ⟨w, hw, hj⟩
    exact (hr.stop_le_start hd hi hjne hij).trans ((hr.start_le hd hw hj).trans (hr.le_max hw))

end

end

end Recorded

/-- A point between `a` and `b`. -/
theorem interpolate_mem {a b p lo hi : Rat} (hab : a ≤ b) (hlo : lo < p) (hhi : p ≤ hi) :
    a ≤ a + (p - lo) / (hi - lo) * (b - a) ∧ a + (p - lo) / (hi - lo) * (b - a) ≤ b := by
  have hwidth : 0 < hi - lo := by linarith
  have h0 : 0 ≤ (p - lo) / (hi - lo) := div_nonneg (by linarith) hwidth.le
  have h1 : (p - lo) / (hi - lo) ≤ 1 := by
    rw [div_le_one hwidth]
    linarith
  have := mul_nonneg h0 (sub_nonneg.mpr hab)
  have := mul_le_mul_of_nonneg_right h1 (sub_nonneg.mpr hab)
  constructor <;> linarith

theorem interpolate_mono {a b p q lo hi : Rat} (hab : a ≤ b) (hlo : lo < p) (hhi : p ≤ hi)
    (hpq : p ≤ q) :
    a + (p - lo) / (hi - lo) * (b - a) ≤ a + (q - lo) / (hi - lo) * (b - a) := by
  have hwidth : 0 < hi - lo := by linarith
  have hdiv : (p - lo) / (hi - lo) ≤ (q - lo) / (hi - lo) :=
    div_le_div_of_nonneg_right (by linarith) hwidth.le
  have := mul_le_mul_of_nonneg_right hdiv (sub_nonneg.mpr hab)
  linarith

namespace Recorded

open Histogram

section
variable {offset divider : Rat} {vs : List Rat} {h : Histogram}

section
variable (hr : Recorded offset divider vs h)
include hr

/-- Every percentile lies between the two extremes. -/
theorem calcPercentile_mem (hd : 0 < divider) (hf : FirstInOrder offset divider vs) (p : Rat) :
    h.min ≤ h.exportData.calcPercentile p ∧ h.exportData.calcPercentile p ≤ h.max := by
  have hle := hr.le_max hr.min_mem
  cases hr.calculated p with
  | min _ _ calc_eq => exact ⟨calc_eq.ge, calc_eq.le.trans hle⟩
  | max _ calc_eq => exact ⟨hle.trans calc_eq.ge, calc_eq.le⟩
  | between i filled _ _ gt le calc_eq =>
    have hwide := gt.trans_le le
    obtain ⟨hge, hle⟩ := interpolate_mem (hr.start_le_stop hd hf filled hwide) gt le
    rw [calc_eq]
    exact ⟨(hr.min_le_start hd hf filled hwide).trans hge, hle.trans (hr.stop_le_max hd filled)⟩

theorem calcPercentile_mono (hd : 0 < divider) (hf : FirstInOrder offset divider vs) {p q : Rat}
    (hpq : p ≤ q) : h.exportData.calcPercentile p ≤ h.exportData.calcPercentile q := by
  cases hr.calculated p with
  | min _ _ calc_eq =>
    rw [calc_eq]
    exact (hr.calcPercentile_mem hd hf q).1
  | max ge calc_eq => rw [calc_eq, hr.calcPercentile_max (ge.trans hpq)]
  | between i filled gt_min lt gt le calc_eq =>
    have hwide := gt.trans_le le
    have hi := hr.start_le_stop hd hf filled hwide
    cases hr.calculated q with
    | min _ le' => linarith
    | max _ calc_eq' =>
      rw [calc_eq']
      exact (hr.calcPercentile_mem hd hf p).2
    | between j filled' _ _ gt' le' calc_eq' =>
      have hj := hr.start_le_stop hd hf filled' (gt'.trans_le le')
      rcases (hr.le_of_percentiles filled' gt le' hpq).eq_or_lt with rfl | hij
      · rw [calc_eq, calc_eq']
        exact interpolate_mono hi gt le hpq
      · rw [calc_eq, calc_eq']
        exact (interpolate_mem hi gt le).2.trans
          ((hr.stop_le_start hd filled filled' hij).trans (interpolate_mem hj gt' le').1)

/-- What holds for all values: no division by zero, and a bucket is found. -/
theorem locate_ne (p : Rat) :
    h.exportData.locate p ≠ .notReached ∧
      ∀ pp cur, h.exportData.locate p = .between pp cur → cur.percent - pp ≠ 0 := by
  rcases le_or_gt 100 p with hp | hp
  · rw [hr.locate_max hp]
    simp
  rcases le_or_gt p (100 / h.count) with hlow | hlow
  · rw [hr.locate_min hp hlow]
    simp
  obtain ⟨pre, i, post, -, hloc, hgt, hle⟩ := hr.locate_between hlow hp
  rw [hloc]
  refine ⟨by simp, fun pp cur heq => ?_⟩
  cases heq
  linarith

/-! ### When they are not -/

theorem min_percent_le (i : Fin numBuckets) : 100 / (h.count : Rat) ≤ h.percentBefore i := by
  unfold percentBefore
  split_ifs with hzero
  · exact le_rfl
  · have hone : (1 : Rat) ≤ h.below i := by
      have := below_nonneg hr.tally i.isLt.le
      exact_mod_cast (by omega : 1 ≤ h.below i)
    have := hr.count_pos
    gcongr
    linarith

/-- The percentiles of a bucket are interpolated in it. -/
theorem calcPercentile_in {p : Rat} (hi : h.hdata i ≠ 0) (hgt : h.percentBefore i < p)
    (hle : p ≤ (h.bucketAt i).percent) (hlt : p < 100) :
    h.exportData.calcPercentile p = (h.bucketAt i).start
      + (p - h.percentBefore i) / ((h.bucketAt i).percent - h.percentBefore i)
        * ((h.bucketAt i).stop - (h.bucketAt i).start) := by
  have hlow := hr.min_percent_le i
  cases hr.calculated p with
  | min _ le => linarith
  | max ge => linarith
  | between j filled _ _ gt le calc_eq =>
    have hij := hr.le_of_percentiles filled hgt le le_rfl
    have hji := hr.le_of_percentiles hi gt hle le_rfl
    obtain rfl := le_antisymm hij hji
    exact calc_eq

/-- Interpolation in an interval that starts below `m` gives a result below `m`. -/
theorem exists_calcPercentile_lt (hi : h.hdata i ≠ 0)
    (hwide : h.percentBefore i < (h.bucketAt i).percent)
    (hle : (h.bucketAt i).start ≤ (h.bucketAt i).stop) {m : Rat} (hm : (h.bucketAt i).start < m) :
    ∃ p, h.exportData.calcPercentile p < m := by
  have hpercent := hr.percent_le i
  have hin := fun p => hr.calcPercentile_in (p := p) hi
  generalize (h.bucketAt i).start = a at hle hm hin
  generalize (h.bucketAt i).stop = b at hle hin
  generalize (h.bucketAt i).percent = hi at hwide hpercent hin
  generalize h.percentBefore i = lo at hwide hin
  -- The share `t` of the interval is small enough that `t * (b - a) < m - a`.
  obtain ⟨t, ht0, ht1, ht⟩ : ∃ t : Rat, 0 < t ∧ t < 1 ∧ t * (b - a) < m - a := by
    have hsum : 0 < m - a + (b - a) := by linarith
    have hgap : 0 < m - a := sub_pos.mpr hm
    refine ⟨(m - a) / (2 * (m - a + (b - a))), div_pos hgap (by linarith), ?_, ?_⟩
    · rw [div_lt_one (by linarith)]
      linarith
    · rw [div_mul_eq_mul_div, div_lt_iff₀ (by linarith)]
      have := mul_pos hgap hsum
      have := mul_pos hgap hgap
      linarith
  have hwidth : 0 < hi - lo := sub_pos.mpr hwide
  have hshare : (lo + t * (hi - lo) - lo) / (hi - lo) = t := by
    rw [add_sub_cancel_left, mul_div_assoc, div_self hwidth.ne', mul_one]
  have h1 := mul_pos ht0 hwidth
  have h2 := mul_lt_mul_of_pos_right ht1 hwidth
  refine ⟨lo + t * (hi - lo), ?_⟩
  rw [hin _ (by linarith) (by linarith) (by linarith), hshare]
  linarith

theorem percentBefore_lt_of_later (hi : h.hdata i ≠ 0) (hlater : h.below i ≠ 0) :
    h.percentBefore i < (h.bucketAt i).percent := by
  have hstep : (h.below i : Rat) < h.below (i + 1) := by
    have := h.below_succ i
    have := entry_pos hr.tally hi
    exact_mod_cast (by omega : h.below i < h.below (i + 1))
  have := hr.count_pos
  rw [percentBefore, if_neg hlater, percent_eq]
  gcongr

/-- The first bucket is interpolated in when it has several values. -/
theorem percentBefore_lt_of_first (hfirst : h.below i = 0) (hmany : 1 < h.below (i + 1)) :
    h.percentBefore i < (h.bucketAt i).percent := by
  have hcast : (1 : Rat) < h.below (i + 1) := by exact_mod_cast hmany
  have := hr.count_pos
  rw [percentBefore, if_pos hfirst, percent_eq]
  gcongr
  linarith

theorem length_of_all_overflow (hd : 0 < divider)
    (hmin : ∀ p, h.min ≤ h.exportData.calcPercentile p)
    (hall : ∀ v ∈ vs, bucket offset divider v = some overflow) : vs.length = 1 := by
  by_contra hne
  have hbucket := hall _ hr.min_mem
  have hfilled := hr.filled_iff.mpr ⟨_, hr.min_mem, hbucket⟩
  have hfirst := hr.below_bucket_min hd hbucket
  have hupto : h.below (overflow + 1) = vs.length := below_numBuckets hr.tally
  have hwide := hr.percentBefore_lt_of_first hfirst (by have := hr.length_pos; omega)
  have hlow := lower_of_bucket hd hbucket (by decide)
  change edge offset divider (numValues - 1) + divider / 10000 ≤ h.min at hlow
  obtain ⟨p, hp⟩ := hr.exists_calcPercentile_lt (m := h.min) hfilled hwide
    (hr.start_le_stop_of_last hd hfilled rfl) (by rw [hr.start_overflow]; linarith)
  exact absurd (hmin p) (not_le.mpr hp)

/-- The bucket of the minimum is not the last one when some value is in another bucket. -/
theorem below_ne_all_of_other (hd : 0 < divider) (hi : bucket offset divider h.min = some i)
    (hother : ∃ w ∈ vs, bucket offset divider w ≠ some i) :
    h.below (i + 1) ≠ h.below numBuckets := by
  obtain ⟨w, hw, hne⟩ := hother
  obtain ⟨j, hj⟩ := hr.bucketed w hw
  have hij : i ≤ j := bucket_le_bucket hd hi hj (hr.min_le hw)
  have hji : i ≠ j := by
    rintro rfl
    exact hne hj
  exact hr.below_ne_all_iff.mpr ⟨w, hw, j, hj, lt_of_le_of_ne hij hji⟩

/-- The percentile at the end of a bucket that is not the last one is its upper boundary. -/
theorem calcPercentile_end (hi : h.hdata i ≠ 0)
    (hwide : h.percentBefore i < (h.bucketAt i).percent)
    (hearlier : h.below (i + 1) ≠ h.below numBuckets) :
    h.exportData.calcPercentile (h.bucketAt i).percent = edge offset divider i := by
  have hlt : (h.bucketAt i).percent < 100 := by
    have hcast : (h.below (i + 1) : Rat) < h.count := by
      have hle := below_mono hr.tally (show i.val + 1 ≤ numBuckets from i.isLt) le_rfl
      rw [hr.count_eq, ← below_numBuckets hr.tally]
      exact_mod_cast lt_of_le_of_ne hle hearlier
    rw [percent_eq, div_lt_iff₀ hr.count_pos]
    linarith
  rw [hr.calcPercentile_in hi hwide le_rfl hlt, div_self (sub_pos.mpr hwide).ne',
    hr.stop_earlier hearlier]
  ring

/-- When the minimum is behind its bucket, the bucket has no other value, and the next bucket has
none. Otherwise a percentile at the end of the bucket or at the start of the next one is below
the minimum. -/
theorem first_of_edge_lt (hd : 0 < divider) (hmin : ∀ p, h.min ≤ h.exportData.calcPercentile p)
    (hi : bucket offset divider h.min = some i)
    (hother : ∃ w ∈ vs, bucket offset divider w ≠ some i)
    (hbehind : edge offset divider i < h.min) :
    (vs.countP fun w => bucket offset divider w = some i) = 1 ∧
      ∀ w ∈ vs, ∀ j, bucket offset divider w = some j → j.val ≠ i.val + 1 := by
  have hfilled := hr.filled_iff.mpr ⟨_, hr.min_mem, hi⟩
  have hfirst := hr.below_bucket_min hd hi
  have hupto : h.below (i + 1) = (vs.countP fun w => bucket offset divider w = some i : Nat) := by
    rw [h.below_succ, hfirst, hr.entry, Int.zero_add]
  have hearlier := hr.below_ne_all_of_other hd hi hother
  have hone : h.below (i + 1) = 1 := by
    by_contra hne
    have hentry := entry_pos hr.tally hfilled
    have hstep := h.below_succ i
    have hwide := hr.percentBefore_lt_of_first hfirst (by omega)
    -- With two values the bucket spans percentages, and its end is a percentile.
    have hend := hr.calcPercentile_end hfilled hwide hearlier
    exact absurd (hmin _) (not_le.mpr (hend ▸ hbehind))
  refine ⟨by exact_mod_cast hupto.symm.trans hone, fun w hw j hj hnext => ?_⟩
  have hjfilled := hr.filled_iff.mpr ⟨w, hw, hj⟩
  have hlater : h.below j ≠ 0 := by
    rw [hnext, hone]
    decide
  have hstart : (h.bucketAt j).start < h.min := by
    rw [hr.start_later hlater, hnext]
    exact hbehind
  obtain ⟨p, hp⟩ := hr.exists_calcPercentile_lt hjfilled
    (hr.percentBefore_lt_of_later hjfilled hlater) (hr.start_le_stop_of_later hd hjfilled hlater)
    hstart
  exact absurd (hmin p) (not_le.mpr hp)

theorem firstInOrder (hd : 0 < divider) (hmin : ∀ p, h.min ≤ h.exportData.calcPercentile p) :
    FirstInOrder offset divider vs where
  alone := hr.length_of_all_overflow hd hmin
  first := by
    intro v hv hall i hi hother
    obtain rfl : v = h.min := le_antisymm (hall _ hr.min_mem) (hr.min_le hv)
    rcases le_or_gt h.min (edge offset divider i) with hle | hbehind
    · exact .inl hle
    · exact .inr (hr.first_of_edge_lt hd hmin hi hother hbehind)

theorem percentilesOrdered (hd : 0 < divider) (hf : FirstInOrder offset divider vs) :
    PercentilesOrdered h.exportData where
  min_le p := (hr.calcPercentile_mem hd hf p).1
  mono := fun _ _ hpq => hr.calcPercentile_mono hd hf hpq
  le_max p := (hr.calcPercentile_mem hd hf p).2
  divisor_ne := fun p => (hr.locate_ne p).2
  reached := fun p => (hr.locate_ne p).1

end

end

end Recorded

/-- The percentiles are ordered exactly when the first bucket can be told from the minimum. -/
theorem percentilesOrdered_iff {offset divider : Rat} {vs : List Rat} {h : Histogram}
    (hd : 0 < divider) (hne : vs ≠ []) (hlt : vs.length < 2 ^ 31)
    (hrec : ((newHistogram offset divider).bind fun h => h.recordAll vs) = some h) :
    PercentilesOrdered h.exportData ↔ FirstInOrder offset divider vs := by
  have hr := recorded_of_new hne hlt hrec
  exact ⟨fun ho => hr.firstInOrder hd ho.min_le, hr.percentilesOrdered hd⟩

/-- Three values in three buckets. -/
theorem percentilesOrdered_three :
    ∃ h, ((newHistogram 0 1).bind fun h => h.recordAll [1 / 2, 3 / 2, 200000]) = some h ∧
      PercentilesOrdered h.exportData := by
  have hsome : ((newHistogram 0 1).bind fun h => h.recordAll [1 / 2, 3 / 2, 200000]).isSome := by
    decide +kernel
  have hhalf : bucket 0 1 (1 / 2) = some ⟨1, by decide⟩ := by decide +kernel
  obtain ⟨h, hrec⟩ := Option.isSome_iff_exists.mp hsome
  refine ⟨h, hrec, (percentilesOrdered_iff (by norm_num) (by simp) (by norm_num) hrec).mpr ?_⟩
  refine ⟨fun hall => absurd (hall (1 / 2) (by simp)) (by decide +kernel), ?_⟩
  intro v hv hmin i hi _
  have hle := hmin (1 / 2) (by simp)
  obtain rfl : v = 1 / 2 := by
    rcases List.mem_cons.mp hv with rfl | hv
    · rfl
    rcases List.mem_cons.mp hv with rfl | hv
    · norm_num at hle
    · rw [List.mem_singleton.mp hv] at hle
      norm_num at hle
  cases hhalf.symm.trans hi
  exact .inl (by decide +kernel)

/-- With two values above the last boundary, a percentile is below the minimum. -/
theorem percentile_below_min :
    ∃ h, ((newHistogram 0 1).bind fun h => h.recordAll [200000, 200000]) = some h ∧
      h.exportData.min = 200000 ∧ h.exportData.calcPercentile 51 = 102000 ∧
      ¬ PercentilesOrdered h.exportData := by
  have hsome : ((newHistogram 0 1).bind fun h => h.recordAll [200000, 200000]).isSome := by
    decide +kernel
  obtain ⟨h, hrec⟩ := Option.isSome_iff_exists.mp hsome
  have hvalues : (((newHistogram 0 1).bind fun h => h.recordAll [200000, 200000]).map fun h =>
      (h.exportData.min, h.exportData.calcPercentile 51)) = some (200000, 102000) := by
    decide +kernel
  rw [hrec, Option.map_some, Option.some.injEq, Prod.mk.injEq] at hvalues
  refine ⟨h, hrec, hvalues.1, hvalues.2, fun ho => ?_⟩
  have hle := ho.min_le 51
  rw [hvalues.1, hvalues.2] at hle
  norm_num at hle

end IstioVendor.Stats
