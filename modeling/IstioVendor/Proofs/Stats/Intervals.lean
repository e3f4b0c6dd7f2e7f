import IstioVendor.Proofs.Stats.Export

/-!
# `IstioVendor.Proofs.Stats.Intervals`: the exported intervals and the recorded values

`HistogramData` documents its list as sorted intervals that cover what lies between the minimum
and the maximum. `SortedCover` states this. It does not hold for all values. A value that is
above a boundary by less than what `record` takes off is counted in the bucket below the
boundary, so it lies behind the end of its interval. When all values are above the last
boundary, the first interval starts at this boundary and not at the minimum.
`sortedCover_iff` says that nothing else can go wrong.
-/

set_option autoImplicit false

namespace IstioVendor.Stats

open Lib

/-- The bucket above the last boundary. -/
def overflow : Fin numBuckets := Fin.last numValues

variable {i : Fin numBuckets} {k : Nat} {v : Rat}

namespace Recorded

open Histogram

section
variable {offset divider : Rat} {vs : List Rat} {h : Histogram}

/-! ### Numbers of values -/

section
variable (hr : Recorded offset divider vs h)
include hr

/-- The first `k` buckets have the values whose bucket is one of them. -/
theorem below_eq_countP (hk : k ≤ numBuckets) :
    h.below k = vs.countP fun v => (bucket offset divider v).any (·.val < k) := by
  induction k with
  | zero =>
    have hnone : vs.countP (fun v => (bucket offset divider v).any (·.val < 0)) = 0 := by
      simp
    rw [hnone]
    rfl
  | succ k ih =>
    have hsplit : ∀ ws : List Rat,
        ws.countP (fun v => (bucket offset divider v).any (·.val < k + 1))
          = ws.countP (fun v => (bucket offset divider v).any (·.val < k))
            + ws.countP fun v => bucket offset divider v = some ⟨k, hk⟩ := by
      intro ws
      induction ws with
      | nil => rfl
      | cons w ws ihw =>
        simp only [List.countP_cons, ihw]
        cases hb : bucket offset divider w with
        | none => simp
        | some i =>
          simp only [Option.any_some, decide_eq_true_eq, Option.some.injEq, Fin.ext_iff]
          split_ifs <;> omega
    have hstep := h.below_succ ⟨k, hk⟩
    rw [hr.entry] at hstep
    rw [hsplit, Nat.cast_add, ← ih (by omega)]
    exact hstep

theorem filled_iff : h.hdata i ≠ 0 ↔ ∃ v ∈ vs, bucket offset divider v = some i := by
  rw [ne_eq, ← toInt_eq_zero_iff, hr.entry, Nat.cast_eq_zero, List.countP_eq_zero]
  simp

/-- No bucket with values comes before `k`. -/
theorem below_eq_zero_iff (hk : k ≤ numBuckets) :
    h.below k = 0 ↔ ∀ v ∈ vs, ∀ i, bucket offset divider v = some i → k ≤ i.val := by
  rw [hr.below_eq_countP hk, Nat.cast_eq_zero, List.countP_eq_zero]
  simp [Option.any_eq_false]

/-- All buckets with values come before `k`. -/
theorem below_eq_all_iff (hk : k ≤ numBuckets) :
    h.below k = h.below numBuckets ↔
      ∀ v ∈ vs, ∀ i, bucket offset divider v = some i → i.val < k := by
  rw [below_numBuckets hr.tally, hr.below_eq_countP hk, Nat.cast_inj, List.countP_eq_length]
  constructor
  · intro hall v hv i hi
    simpa [hi] using hall v hv
  · intro hall v hv
    obtain ⟨i, hi⟩ := hr.bucketed v hv
    simpa [hi] using hall v hv i hi

/-- A bucket is not the last one with values when some value is in a later one. -/
theorem below_ne_all_iff :
    h.below (i + 1) ≠ h.below numBuckets ↔
      ∃ w ∈ vs, ∃ j, bucket offset divider w = some j ∧ i < j := by
  rw [ne_eq, hr.below_eq_all_iff i.isLt]
  push Not
  rfl

/-! ### The ends of an interval -/

theorem min_mem : h.min ∈ vs := hr.extremes.lo_mem

theorem min_le (hv : v ∈ vs) : h.min ≤ v :=
  hr.extremes.le v hv

theorem max_mem : h.max ∈ vs := hr.extremes.hi_mem

theorem le_max (hv : v ∈ vs) : v ≤ h.max :=
  hr.extremes.ge v hv

theorem start_overflow : (h.bucketAt overflow).start = edge offset divider (numValues - 1) := by
  have hval : overflow.val = numValues := rfl
  rw [← hr.offset_eq, ← hr.divider_eq, bucketAt]
  simp [hval]

end

theorem start_first (h : Histogram) (hi : i ≠ overflow) (hfirst : h.below i = 0) :
    (h.bucketAt i).start = h.min := by
  have hval : i.val ≠ numValues := fun hv => hi (Fin.ext hv)
  rw [bucketAt]
  simp [hval, hfirst]

theorem start_later (hr : Recorded offset divider vs h) (hlater : h.below i ≠ 0) :
    (h.bucketAt i).start = edge offset divider (i - 1) := by
  rw [← hr.offset_eq, ← hr.divider_eq, bucketAt]
  simp [hlater]

theorem stop_last (h : Histogram) (hlast : h.below (i + 1) = h.below numBuckets) :
    (h.bucketAt i).stop = h.max :=
  if_pos hlast

theorem stop_earlier (hr : Recorded offset divider vs h)
    (hearlier : h.below (i + 1) ≠ h.below numBuckets) :
    (h.bucketAt i).stop = edge offset divider i := by
  rw [← hr.offset_eq, ← hr.divider_eq]
  exact if_neg hearlier

theorem pos_of_below_ne (hlater : h.below i ≠ 0) : 0 < i.val := by
  by_contra hzero
  exact hlater (by rw [show i.val = 0 by omega]; rfl)

section
variable (hr : Recorded offset divider vs h)
include hr

/-- A bucket with a later one is not above the last boundary. -/
theorem lt_numValues (hearlier : h.below (i + 1) ≠ h.below numBuckets) : i.val < numValues := by
  obtain ⟨v, -, j, -, hij⟩ := hr.below_ne_all_iff.mp hearlier
  unfold numBuckets at *
  omega

/-- No value is before the start of its interval. -/
theorem start_le (hd : 0 < divider) (hv : v ∈ vs) (hi : bucket offset divider v = some i) :
    (h.bucketAt i).start ≤ v := by
  have hlow : 0 < i.val → edge offset divider (i - 1) ≤ v := by
    intro hpos
    have := lower_of_bucket hd hi hpos
    linarith
  by_cases hover : i = overflow
  · subst hover
    rw [hr.start_overflow]
    exact hlow (by decide)
  · by_cases hfirst : h.below i = 0
    · rw [start_first h hover hfirst]
      exact hr.min_le hv
    · rw [hr.start_later hfirst]
      exact hlow (pos_of_below_ne hfirst)

/-- A value is behind the end of its interval by very little. -/
theorem le_stop_add (hd : 0 < divider) (hv : v ∈ vs) (hi : bucket offset divider v = some i) :
    v ≤ (h.bucketAt i).stop + divider / 10000 := by
  by_cases hlast : h.below (i + 1) = h.below numBuckets
  · rw [stop_last h hlast]
    have := hr.le_max hv
    linarith
  · rw [hr.stop_earlier hlast]
    exact upper_of_bucket hd hi (hr.lt_numValues hlast)

/-- An interval ends before a later one starts. -/
theorem stop_le_start (hd : 0 < divider) {j : Fin numBuckets} (hi : h.hdata i ≠ 0)
    (hj : h.hdata j ≠ 0) (hij : i < j) : (h.bucketAt i).stop ≤ (h.bucketAt j).start := by
  have hlater : h.below j ≠ 0 := by
    intro hzero
    exact hi ((Histogram.below_eq_zero_iff hr.tally j.isLt.le).mp hzero i hij)
  have hearlier := (below_lt_of_filled hr.tally (show i.val + 1 ≤ j.val from hij) hj).ne
  rw [hr.stop_earlier hearlier, hr.start_later hlater]
  refine edge_le_edge hd (by omega) ?_
  unfold numBuckets at *
  omega

/-- The last interval starts before it ends. -/
theorem start_le_stop_of_last (hd : 0 < divider) (hi : h.hdata i ≠ 0)
    (hlast : h.below (i + 1) = h.below numBuckets) :
    (h.bucketAt i).start ≤ (h.bucketAt i).stop := by
  obtain ⟨v, hv, hvi⟩ := hr.filled_iff.mp hi
  rw [stop_last h hlast]
  exact (hr.start_le hd hv hvi).trans (hr.le_max hv)

/-- So does every interval behind the first one. -/
theorem start_le_stop_of_later (hd : 0 < divider) (hi : h.hdata i ≠ 0) (hlater : h.below i ≠ 0) :
    (h.bucketAt i).start ≤ (h.bucketAt i).stop := by
  by_cases hlast : h.below (i + 1) = h.below numBuckets
  · exact hr.start_le_stop_of_last hd hi hlast
  · rw [hr.start_later hlater, hr.stop_earlier hlast]
    exact edge_le_edge hd (Nat.sub_le _ _) (hr.lt_numValues hlast)

end

end

end Recorded

/-! ### The cover -/

/-- The list of `Export` as it is documented: sorted intervals that cover what lies between
`Min` and `Max`, with every recorded value in the interval that counts it. The entry `j` of the
list is for the bucket `j` of those that are not empty. -/
structure SortedCover (offset divider : Rat) (vs : List Rat) (h : Histogram) : Prop where
  ne_nil : h.exportData.data ≠ []
  first : ∀ b, h.exportData.data.head? = some b → b.start = h.exportData.min
  last : ∀ b, h.exportData.data.getLast? = some b → b.stop = h.exportData.max
  ordered : ∀ b ∈ h.exportData.data, b.start ≤ b.stop
  separated : h.exportData.data.IsChain fun b b' => b.stop ≤ b'.start
  contains : ∀ v ∈ vs, ∀ (j : Nat) (i : Fin numBuckets) (b : Bucket), h.filled[j]? = some i →
    bucket offset divider v = some i → h.exportData.data[j]? = some b →
    b.start ≤ v ∧ v ≤ b.stop

/-- Some value is not above the last boundary, and no value is behind the boundary at the end of
its bucket when there are values in later buckets. -/
structure WithinEdges (offset divider : Rat) (vs : List Rat) : Prop where
  not_overflow : ∃ v ∈ vs, bucket offset divider v ≠ some overflow
  le_edge : ∀ v ∈ vs, ∀ w ∈ vs, ∀ i j, bucket offset divider v = some i →
    bucket offset divider w = some j → i < j → v ≤ edge offset divider i

namespace Recorded

open Histogram

section
variable {offset divider : Rat} {vs : List Rat} {h : Histogram}

section
variable (hr : Recorded offset divider vs h)
include hr

theorem data_eq : h.exportData.data = h.filled.map h.bucketAt :=
  exportData_data hr.tally (hr.length_lt.trans (by decide))

theorem filled_ne_nil : h.filled ≠ [] := by
  obtain ⟨i, hi⟩ := hr.bucketed _ hr.min_mem
  have hmem := mem_filled.mpr (hr.filled_iff.mpr ⟨_, hr.min_mem, hi⟩)
  exact List.ne_nil_of_mem hmem

theorem data_ne_nil : h.exportData.data ≠ [] := by
  rw [hr.data_eq]
  exact fun hnil => hr.filled_ne_nil (List.map_eq_nil_iff.mp hnil)

/-- The first bucket with values is the one of the minimum. -/
theorem below_bucket_min (hd : 0 < divider) (hi : bucket offset divider h.min = some i) :
    h.below i = 0 := by
  rw [hr.below_eq_zero_iff i.isLt.le]
  intro v hv j hj
  exact bucket_le_bucket hd hi hj (hr.min_le hv)

theorem head_filled (hd : 0 < divider) (hi : bucket offset divider h.min = some i) :
    h.filled.head? = some i := by
  have hmem := mem_filled.mpr (hr.filled_iff.mpr ⟨_, hr.min_mem, hi⟩)
  cases hfilled : h.filled with
  | nil => exact absurd hfilled hr.filled_ne_nil
  | cons j js =>
    rw [hfilled] at hmem
    rcases List.mem_cons.mp hmem with rfl | hlater
    · rfl
    · have hji : j < i := (List.pairwise_cons.mp (hfilled ▸ h.filled_pairwise)).1 i hlater
      have hj : h.hdata j ≠ 0 := mem_filled.mp (hfilled ▸ List.mem_cons_self)
      have hzero := hr.below_bucket_min hd hi
      exact absurd ((Histogram.below_eq_zero_iff hr.tally i.isLt.le).mp hzero j hji) hj

/-- The last interval ends at the maximum. -/
theorem stop_of_getLast {b : Bucket} (hb : h.exportData.data.getLast? = some b) :
    b.stop = h.max := by
  rcases List.eq_nil_or_concat h.filled with hnil | ⟨is, i, hfilled⟩
  · exact absurd hnil hr.filled_ne_nil
  rw [List.concat_eq_append] at hfilled
  rw [hr.data_eq, hfilled, List.map_append, List.map_singleton, List.getLast?_concat] at hb
  cases hb
  exact stop_last h (below_of_filled_eq_append hfilled)

theorem separated (hd : 0 < divider) :
    h.exportData.data.Pairwise fun b b' => b.stop ≤ b'.start := by
  rw [hr.data_eq, List.pairwise_map]
  refine h.filled_pairwise.imp_of_mem fun hi hj hij => ?_
  exact hr.stop_le_start hd (mem_filled.mp hi) (mem_filled.mp hj) hij

/-- The entry that counts a value. -/
theorem data_of_filled {j : Nat} (hj : h.filled[j]? = some i) :
    h.exportData.data[j]? = some (h.bucketAt i) := by
  rw [hr.data_eq, List.getElem?_map, hj]
  rfl

theorem sortedCover (hd : 0 < divider) (hw : WithinEdges offset divider vs) :
    SortedCover offset divider vs h := by
  -- A value that is not in the last bucket is not behind the end of its interval.
  have hstop : ∀ v ∈ vs, ∀ i, bucket offset divider v = some i → v ≤ (h.bucketAt i).stop := by
    intro v hv i hi
    by_cases hlast : h.below (i + 1) = h.below numBuckets
    · rw [stop_last h hlast]
      exact hr.le_max hv
    · rw [hr.stop_earlier hlast]
      obtain ⟨w, hwm, j, hj, hlt⟩ := hr.below_ne_all_iff.mp hlast
      exact hw.le_edge v hv w hwm i j hi hj hlt
  exact {
    ne_nil := hr.data_ne_nil
    first := by
      intro b hb
      obtain ⟨i, hi⟩ := hr.bucketed _ hr.min_mem
      rw [hr.data_eq, List.head?_map, hr.head_filled hd hi] at hb
      cases hb
      have hover : i ≠ overflow := by
        rintro rfl
        obtain ⟨v, hv, hne⟩ := hw.not_overflow
        obtain ⟨j, hj⟩ := hr.bucketed v hv
        have hle := bucket_le_bucket hd hi hj (hr.min_le hv)
        exact hne (hj.trans (congrArg some (le_antisymm (Fin.le_last j) hle)))
      exact start_first h hover (hr.below_bucket_min hd hi)
    last := fun b hb => hr.stop_of_getLast hb
    ordered := by
      intro b hb
      rw [hr.data_eq] at hb
      obtain ⟨i, hi, rfl⟩ := List.mem_map.mp hb
      obtain ⟨v, hv, hvi⟩ := hr.filled_iff.mp (mem_filled.mp hi)
      exact (hr.start_le hd hv hvi).trans (hstop v hv i hvi)
    separated := (hr.separated hd).isChain
    contains := by
      intro v hv j i b hj hi hb
      rw [hr.data_of_filled hj] at hb
      cases hb
      exact ⟨hr.start_le hd hv hi, hstop v hv i hi⟩ }

theorem withinEdges (hd : 0 < divider) (hc : SortedCover offset divider vs h) :
    WithinEdges offset divider vs where
  not_overflow := by
    refine ⟨h.min, hr.min_mem, fun hi => ?_⟩
    have hhead : h.exportData.data.head? = some (h.bucketAt overflow) := by
      rw [hr.data_eq, List.head?_map, hr.head_filled hd hi]
      rfl
    -- The first interval would start at the last boundary, and the minimum is above it.
    have hstart : edge offset divider (numValues - 1) = h.min := by
      rw [← hr.start_overflow]
      exact hc.first _ hhead
    have hlow := lower_of_bucket hd hi (by decide)
    change edge offset divider (numValues - 1) + divider / 10000 ≤ h.min at hlow
    linarith
  le_edge := by
    intro v hv w hw i j hi hj hij
    have hfilled : i ∈ h.filled := mem_filled.mpr (hr.filled_iff.mpr ⟨v, hv, hi⟩)
    obtain ⟨n, hn⟩ := List.mem_iff_getElem?.mp hfilled
    have hstop := (hc.contains v hv n i _ hn hi (hr.data_of_filled hn)).2
    have hearlier := hr.below_ne_all_iff.mpr ⟨w, hw, j, hj, hij⟩
    rwa [hr.stop_earlier hearlier] at hstop

end

end

end Recorded

/-- The exported list is what its documentation says exactly when some value is not above the
last boundary, and no value that has values in later buckets is behind the end of its own. -/
theorem sortedCover_iff {offset divider : Rat} {vs : List Rat} {h : Histogram} (hd : 0 < divider)
    (hne : vs ≠ []) (hlt : vs.length < 2 ^ 31)
    (hrec : ((newHistogram offset divider).bind fun h => h.recordAll vs) = some h) :
    SortedCover offset divider vs h ↔ WithinEdges offset divider vs := by
  have hr := recorded_of_new hne hlt hrec
  exact ⟨hr.withinEdges hd, hr.sortedCover hd⟩

/-- Two values in two buckets. -/
theorem sortedCover_two :
    ∃ h, ((newHistogram 0 1).bind fun h => h.recordAll [1 / 2, 5]) = some h ∧
      SortedCover 0 1 [1 / 2, 5] h := by
  have hsome : ((newHistogram 0 1).bind fun h => h.recordAll [1 / 2, 5]).isSome := by
    decide +kernel
  have hhalf : bucket 0 1 (1 / 2) = some ⟨1, by decide⟩ := by decide +kernel
  have hfive : bucket 0 1 5 = some ⟨5, by decide⟩ := by decide +kernel
  obtain ⟨h, hrec⟩ := Option.isSome_iff_exists.mp hsome
  refine ⟨h, hrec, (sortedCover_iff (by norm_num) (by simp) (by norm_num) hrec).mpr ?_⟩
  refine ⟨⟨1 / 2, by simp, by decide +kernel⟩, fun v hv w hw i j hi _ _ => ?_⟩
  rcases List.mem_cons.mp hv with rfl | hv
  · cases hhalf.symm.trans hi
    decide +kernel
  · obtain rfl := List.mem_singleton.mp hv
    cases hfive.symm.trans hi
    decide +kernel

/-- A value just above a boundary: its interval ends before it starts. -/
theorem start_behind_stop :
    ∃ h, ((newHistogram 0 1).bind fun h => h.recordAll [100005 / 100000, 5]) = some h ∧
      (∃ b ∈ h.exportData.data, b.stop = 1 ∧ b.start = 100005 / 100000) ∧
      ¬ SortedCover 0 1 [100005 / 100000, 5] h := by
  have hsome : ((newHistogram 0 1).bind fun h => h.recordAll [100005 / 100000, 5]).isSome := by
    decide +kernel
  obtain ⟨h, hrec⟩ := Option.isSome_iff_exists.mp hsome
  have hbounds : (((newHistogram 0 1).bind fun h => h.recordAll [100005 / 100000, 5]).map fun h =>
      decide (∃ b ∈ h.exportData.data, b.stop = 1 ∧ b.start = 100005 / 100000)) = some true := by
    decide +kernel
  rw [hrec, Option.map_some, Option.some.injEq, decide_eq_true_eq] at hbounds
  refine ⟨h, hrec, hbounds, fun hc => ?_⟩
  obtain ⟨b, hb, hstop, hstart⟩ := hbounds
  have hle := hc.ordered b hb
  rw [hstop, hstart] at hle
  norm_num at hle

end IstioVendor.Stats
