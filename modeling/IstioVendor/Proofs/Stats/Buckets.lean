import Mathlib.Data.List.GetD
import Mathlib.Data.Rat.Floor
import Mathlib.Tactic.Linarith
import IstioVendor.Proofs.Stats.Sharding

/-!
# `IstioVendor.Proofs.Stats.Buckets`: which values a bucket counts

`record` scales a value, takes a little off, and looks for the bucket, in a table for small
values and by a search for the others. `inBucket_of_bucket` says what the result means: the
scaled value lies between two neighbouring boundaries. So a larger value never goes to an
earlier bucket (`bucket_le_bucket`).

The little that is taken off is `1 / 10000` of a scaled unit. A value that is above a boundary by
less than that is counted in the bucket below the boundary, and so a bucket reaches a little
beyond its upper boundary (`InBucket`).

`toInt_hdata` reads an entry of `Hdata` back: it is the number of the recorded values that go to
its bucket.
-/

set_option autoImplicit false

namespace IstioVendor.Stats

open Lib

/-! ### The boundaries -/

/-- The boundary with the number `i`. -/
def boundary (i : Nat) : Int := histogramBucketValues.getD i 0

variable {i j : Nat} {vs : List Rat}

theorem boundary_lt (h : i < j) (hj : j < numValues) : boundary i < boundary j := by
  have key : ∀ j < 56, ∀ i < j, boundary i < boundary j := by decide +kernel
  exact key j hj i h

theorem boundary_le (h : i ≤ j) (hj : j < numValues) : boundary i ≤ boundary j := by
  rcases Nat.lt_or_eq_of_le h with hlt | rfl
  · exact (boundary_lt hlt hj).le
  · exact le_rfl

theorem boundary_zero : boundary 0 = 0 := rfl

theorem boundary_last : boundary (numValues - 1) = 100000 := rfl

/-- A boundary at most `maxArrayValue` has a later one. -/
theorem lt_of_boundary_lt (hi : i < numValues) (h : boundary i < maxArrayValue) :
    i + 1 < numValues := by
  by_contra hge
  obtain rfl : i = numValues - 1 := by omega
  exact absurd h (by decide)

/-! ### The search -/

/-- `n` lies between the boundaries around the bucket `i`. -/
structure Between (n : Int) (i : Nat) : Prop where
  pos : 0 < i
  lt : i < numValues
  le : boundary (i - 1) ≤ n
  gt : n < boundary i

/-- An entry of the table. The loop invariant is that `i` has reached the boundary before `idx`
and has not passed the one at `idx`. -/
theorem between_fillVal2Bucket {n idx k : Nat} (hidx : idx < numValues)
    (hle : (i : Int) ≤ boundary idx) (hge : 0 < idx → boundary (idx - 1) ≤ i)
    (hend : i + n ≤ maxArrayValue) (h : (fillVal2Bucket n i idx)[k]? = some j) :
    Between (i + k : Nat) j := by
  induction n generalizing i idx k with
  | zero => simp [fillVal2Bucket] at h
  | succ n ih =>
    -- One step of the loop goes over at most one boundary, since they increase.
    have hentry : Between i (if boundary idx ≤ i then idx + 1 else idx) := by
      split_ifs with hreached
      · have hnext := lt_of_boundary_lt hidx (by omega)
        have hstep := boundary_lt (Nat.lt_succ_self idx) hnext
        exact ⟨Nat.succ_pos idx, hnext, hreached, by rw [Nat.succ_eq_add_one] at hstep; omega⟩
      · have hpos : 0 < idx := by
          by_contra hzero
          obtain rfl : idx = 0 := by omega
          rw [boundary_zero] at hreached
          omega
        exact ⟨hpos, hidx, hge hpos, by omega⟩
    have hfill : fillVal2Bucket (n + 1) i idx
        = (if boundary idx ≤ i then idx + 1 else idx)
          :: fillVal2Bucket n (i + 1) (if boundary idx ≤ i then idx + 1 else idx) := rfl
    generalize (if boundary idx ≤ i then idx + 1 else idx) = idx' at hentry hfill
    rw [hfill] at h
    cases k with
    | zero =>
      obtain rfl : idx' = j := by simpa using h
      exact hentry
    | succ k =>
      have hrest := ih hentry.lt (by have := hentry.gt; push_cast; omega)
        (fun _ => by have := hentry.le; push_cast; omega) (by omega) h
      rwa [show i + 1 + k = i + (k + 1) by omega] at hrest

/-- The search finds the first boundary above the number. -/
theorem between_searchIdx {n : Int} (hpos : 0 < i) (hle : boundary (i - 1) ≤ n)
    (h : searchIdx n (histogramBucketValues.drop i) i = some j) : Between n j := by
  by_cases hi : i < numValues
  · -- Induction from the end of the list, on what is left of it.
    obtain ⟨m, hm⟩ : ∃ m, numValues - i = m := ⟨_, rfl⟩
    induction m generalizing i with
    | zero => omega
    | succ m ih =>
      have hdrop : histogramBucketValues.drop i
          = boundary i :: histogramBucketValues.drop (i + 1) := by
        rw [List.drop_eq_getElem_cons hi, boundary, List.getD_eq_getElem _ _ hi]
      rw [hdrop, searchIdx] at h
      split_ifs at h with hlt
      · obtain rfl : i = j := Option.some.inj h
        exact ⟨hpos, hi, hle, hlt⟩
      · by_cases hnext : i + 1 < numValues
        · exact ih (Nat.succ_pos i) (by simpa using hlt) h hnext (by omega)
        · rw [List.drop_of_length_le (Nat.not_lt.mp hnext)] at h
          exact absurd h (by simp [searchIdx])
  · rw [List.drop_of_length_le (Nat.not_lt.mp hi)] at h
    exact absurd h (by simp [searchIdx])

theorem between_lookUpIdx {n : Int} (hpos : 0 ≤ n) (hlt : n < 2 ^ 31) (h : lookUpIdx n = some j) :
    Between n j := by
  have hn : int32 n = n := Int.bmod_eq_of_le (by omega) (by omega)
  unfold lookUpIdx at h
  simp only [hn] at h
  split_ifs at h with hsmall
  · obtain ⟨k, rfl⟩ := Int.eq_ofNat_of_zero_le hpos
    have hentry : Between (0 + k : Nat) j := between_fillVal2Bucket (by decide) (by decide)
      (fun h0 => absurd h0 (by decide)) (by decide) h
    simpa using hentry
  · have hbefore : boundary (maxArrayValueIndex - 1) ≤ maxArrayValue := by decide +kernel
    exact between_searchIdx (by decide +kernel) (by omega) h

/-! ### The bucket of a value -/

/-- The value as `record` compares it with the boundaries. -/
def scaledVal (offset divider v : Rat) : Rat := (v - offset) / divider - 1 / 10000

/-- The scaled values of the bucket `i`. -/
inductive InBucket (s : Rat) : Nat → Prop where
  | first (le : s ≤ 0) : InBucket s 0
  | inner {i : Nat} (pos : 0 < i) (lt : i < numValues) (s_pos : 0 < s)
      (le : (boundary (i - 1) : Rat) ≤ s) (gt : s < boundary i) : InBucket s i
  | last (gt : (boundary (numValues - 1) : Rat) < s) : InBucket s numValues

/-- For a number that is not negative, the conversion to an integer is the floor. -/
theorem truncate_eq_floor {x : Rat} (hx : 0 ≤ x) : truncate x = ⌊x⌋ := by
  have hnum : 0 ≤ x.num := Rat.num_nonneg.mpr hx
  rw [truncate, Rat.floor_def', Int.tdiv_eq_ediv_of_nonneg hnum]

/-- The integer that `record` looks up is below the scaled value by less than one. -/
theorem truncate_of_pos {s : Rat} (hs : 0 < s) :
    0 ≤ truncate s ∧ (truncate s : Rat) ≤ s ∧ s < truncate s + 1 := by
  rw [truncate_eq_floor hs.le]
  exact ⟨Int.floor_nonneg.mpr hs.le, Int.floor_le s, Int.lt_floor_add_one s⟩

theorem inBucket_of_bucketIdx {offset divider v : Rat} (h : bucketIdx offset divider v = some i) :
    InBucket (scaledVal offset divider v) i := by
  change (if scaledVal offset divider v ≤ firstValue then some 0
    else if lastValue < scaledVal offset divider v then some (numBuckets - 1)
    else lookUpIdx (truncate (scaledVal offset divider v))) = some i at h
  generalize scaledVal offset divider v = s at h
  split_ifs at h with hfirst hlast
  · obtain rfl : 0 = i := Option.some.inj h
    exact .first hfirst
  · obtain rfl : numValues = i := Option.some.inj h
    exact .last hlast
  · have hpos : 0 < s := not_le.mp hfirst
    obtain ⟨htrunc, hle, hgt⟩ := truncate_of_pos hpos
    have hsmall : s ≤ 100000 := not_lt.mp hlast
    have hint : truncate s ≤ 100000 := by exact_mod_cast hle.trans hsmall
    have hbetween := between_lookUpIdx htrunc (by omega) h
    refine .inner hbetween.pos hbetween.lt hpos ?_ ?_
    · exact le_trans (by exact_mod_cast hbetween.le) hle
    · exact hgt.trans_le (by exact_mod_cast hbetween.gt)

namespace InBucket

variable {s t : Rat} {i j : Nat}

theorem le_numValues (h : InBucket s i) : i ≤ numValues := by
  cases h with
  | first => exact Nat.zero_le _
  | inner _ lt => exact lt.le
  | last => exact le_rfl

theorem lower (h : InBucket s i) (hi : 0 < i) : 0 < s ∧ (boundary (i - 1) : Rat) ≤ s := by
  cases h with
  | first => exact absurd hi (lt_irrefl 0)
  | inner _ _ s_pos le => exact ⟨s_pos, le⟩
  | last gt => exact ⟨lt_trans (by rw [boundary_last]; norm_num) gt, gt.le⟩

theorem upper (h : InBucket s i) (hi : i < numValues) : s ≤ boundary i := by
  cases h with
  | first le => simpa [boundary_zero] using le
  | inner _ _ _ _ gt => exact gt.le
  | last => exact absurd hi (lt_irrefl _)

/-- A larger value does not go to an earlier bucket. -/
theorem mono (hs : InBucket s i) (ht : InBucket t j) (hst : s ≤ t) : i ≤ j := by
  by_contra hlt
  obtain ⟨hpos, hlow⟩ := hs.lower (by omega)
  have hle := hs.le_numValues
  have hbound : boundary j ≤ boundary (i - 1) := boundary_le (by omega) (by omega)
  cases ht with
  | first le => exact absurd (hpos.trans_le hst) (not_lt.mpr le)
  | inner _ _ _ _ gt =>
    have hcast : (boundary j : Rat) ≤ boundary (i - 1) := by exact_mod_cast hbound
    linarith
  | last => omega

end InBucket

section
variable {offset divider v w : Rat} {i j : Fin numBuckets}

theorem inBucket_of_bucket (h : bucket offset divider v = some i) :
    InBucket (scaledVal offset divider v) i := by
  obtain ⟨idx, hidx, hi⟩ := Option.bind_eq_some_iff.mp h
  split_ifs at hi with hlt
  cases hi
  exact inBucket_of_bucketIdx hidx

/-- The boundary `i` at a scale. -/
def edge (offset divider : Rat) (i : Nat) : Rat := divider * boundary i + offset

theorem edge_le_edge (hd : 0 < divider) {i j : Nat} (h : i ≤ j) (hj : j < numValues) :
    edge offset divider i ≤ edge offset divider j := by
  have hcast : (boundary i : Rat) ≤ boundary j := by exact_mod_cast boundary_le h hj
  have := mul_le_mul_of_nonneg_left hcast hd.le
  unfold edge
  linarith

/-- Neighbouring boundaries are at least a unit apart. -/
theorem edge_add_le_edge (hd : 0 < divider) {i : Nat} (hi : i + 1 < numValues) :
    edge offset divider i + divider ≤ edge offset divider (i + 1) := by
  have hcast : (boundary i : Rat) + 1 ≤ boundary (i + 1) := by
    exact_mod_cast boundary_lt (Nat.lt_succ_self i) hi
  have := mul_le_mul_of_nonneg_left hcast hd.le
  unfold edge
  linarith

/-- The value from its scaled value. -/
theorem eq_of_scaledVal (offset v : Rat) (hd : 0 < divider) :
    v = divider * scaledVal offset divider v + offset + divider / 10000 := by
  unfold scaledVal
  field_simp
  ring

/-- A value is above the lower boundary of its bucket, by what `record` takes off. -/
theorem lower_of_bucket (hd : 0 < divider) (h : bucket offset divider v = some i)
    (hi : 0 < i.val) : edge offset divider (i - 1) + divider / 10000 ≤ v := by
  have hlow := ((inBucket_of_bucket h).lower hi).2
  have := mul_le_mul_of_nonneg_left hlow hd.le
  have hv := eq_of_scaledVal offset v hd
  unfold edge
  linarith

/-- A value is at most that little above the upper boundary of its bucket. -/
theorem upper_of_bucket (hd : 0 < divider) (h : bucket offset divider v = some i)
    (hi : i.val < numValues) : v ≤ edge offset divider i + divider / 10000 := by
  have hup := (inBucket_of_bucket h).upper hi
  have := mul_le_mul_of_nonneg_left hup hd.le
  have hv := eq_of_scaledVal offset v hd
  unfold edge
  linarith

theorem bucket_le_bucket (hd : 0 < divider) (hv : bucket offset divider v = some i)
    (hw : bucket offset divider w = some j) (hle : v ≤ w) : i ≤ j := by
  have hscaled : scaledVal offset divider v ≤ scaledVal offset divider w := by
    have := div_le_div_of_nonneg_right (sub_le_sub_right hle offset) hd.le
    unfold scaledVal
    linarith
  exact (inBucket_of_bucket hv).mono (inBucket_of_bucket hw) hscaled

end

/-! ### The entries of `Hdata` -/

/-- What the values add to an entry, up to a wrap. -/
theorem apply_spread {offset divider : Rat} {d : Fin numBuckets → BitVec 32}
    (hd : Histogram.spread offset divider (vs.map fun v => (v, 1)) = some d) (i : Fin numBuckets) :
    d i = BitVec.ofNat 32 (vs.countP fun v => bucket offset divider v = some i) := by
  induction vs generalizing d with
  | nil =>
    obtain rfl : 0 = d := Option.some.inj hd
    rfl
  | cons v vs ih =>
    obtain ⟨x, hx, hrest⟩ := Option.bind_eq_some_iff.mp hd
    obtain ⟨j, hj, rfl⟩ := Option.map_eq_some_iff.mp hx
    obtain ⟨d', hd', rfl⟩ := Option.map_eq_some_iff.mp hrest
    rw [Pi.add_apply, ih hd', List.countP_cons, hj]
    by_cases hij : j = i
    · subst hij
      simp only [Pi.single_eq_same, decide_true, if_true]
      rw [Nat.add_comm, BitVec.ofNat_add]
      rfl
    · rw [Pi.single_eq_of_ne (Ne.symm hij)]
      simp [hij]

section
variable {offset divider : Rat} {hd : divider ≠ 0} {vs : List Rat} {h : Histogram}

/-- An entry is the number of the values in its bucket. -/
theorem toInt_hdata (hlt : vs.length < 2 ^ 31)
    (hrec : (Histogram.blank offset divider hd).recordAll vs = some h) (i : Fin numBuckets) :
    (h.hdata i).toInt = vs.countP fun v => bucket offset divider v = some i := by
  have hle := List.countP_le_length (p := fun v => bucket offset divider v = some i) (l := vs)
  rw [apply_spread (Histogram.spread_of_recordAll hrec).2.1, BitVec.toInt_ofNat']
  exact Int.bmod_eq_of_le (by omega) (by omega)

/-- Every recorded value has a bucket. -/
theorem exists_bucket (hrec : (Histogram.blank offset divider hd).recordAll vs = some h) {v : Rat}
    (hv : v ∈ vs) : ∃ i, bucket offset divider v = some i := by
  have hspread := (Histogram.spread_of_recordAll hrec).2.1
  generalize h.hdata = d at hspread
  clear hrec
  induction vs generalizing d with
  | nil => exact absurd hv List.not_mem_nil
  | cons u vs ih =>
    obtain ⟨x, hx, hrest⟩ := Option.bind_eq_some_iff.mp hspread
    obtain ⟨j, hj, -⟩ := Option.map_eq_some_iff.mp hx
    obtain ⟨d', hd', -⟩ := Option.map_eq_some_iff.mp hrest
    rcases List.mem_cons.mp hv with rfl | hv
    · exact ⟨j, hj⟩
    · exact ih hv d' hd'

end

/-- What a histogram of the given scale holds after the values were recorded, when they are
fewer than `2 ^ 31` and there is at least one. -/
structure Recorded (offset divider : Rat) (vs : List Rat) (h : Histogram) : Prop where
  offset_eq : h.offset = offset
  divider_eq : h.divider = divider
  length_pos : 0 < vs.length
  length_lt : vs.length < 2 ^ 31
  count_eq : h.count = vs.length
  extremes : Extremes (vs : Multiset Rat) h.min h.max
  tally : Tally h.hdata vs.length
  entry : ∀ i, (h.hdata i).toInt = vs.countP fun v => bucket offset divider v = some i
  bucketed : ∀ v ∈ vs, ∃ i, bucket offset divider v = some i

theorem recorded_of_recordAll {offset divider : Rat} {hd : divider ≠ 0} {h : Histogram}
    (hne : vs ≠ []) (hlt : vs.length < 2 ^ 31)
    (hrec : (Histogram.blank offset divider hd).recordAll vs = some h) :
    Recorded offset divider vs h := by
  have hexact := Histogram.exact_of_recordAll (hlt.trans (by decide)) hrec
  have hreset := (Histogram.spread_of_recordAll hrec).1
  exact {
    offset_eq := congrArg Histogram.offset hreset
    divider_eq := congrArg Histogram.divider hreset
    length_pos := List.length_pos_iff.mpr hne
    length_lt := hlt
    count_eq := by
      rw [hexact.count, Multiset.coe_card]
      exact int64_of_nat (hlt.trans (by decide))
    extremes := hexact.extremes (by simpa using hne)
    tally :=
      Histogram.tally_spread (by simp) (by simp [Function.comp_def]) hlt
        (Histogram.spread_of_recordAll hrec).2.1
    entry := toInt_hdata hlt hrec
    bucketed := fun v hv => exists_bucket hrec hv }

theorem recorded_of_new {offset divider : Rat} {h : Histogram} (hne : vs ≠ [])
    (hlt : vs.length < 2 ^ 31)
    (hrec : ((newHistogram offset divider).bind fun h => h.recordAll vs) = some h) :
    Recorded offset divider vs h := by
  obtain ⟨blank, hblank, hrec⟩ := Option.bind_eq_some_iff.mp hrec
  unfold newHistogram at hblank
  split_ifs at hblank
  cases hblank
  exact recorded_of_recordAll hne hlt hrec

end IstioVendor.Stats
