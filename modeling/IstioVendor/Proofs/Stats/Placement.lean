import IstioVendor.Proofs.Stats.Buckets

/-!
# `IstioVendor.Proofs.Stats.Placement`: every value has a bucket, except one

`inBucket_of_bucket` says what an index of `record` means. This module says when there is one.
The table `val2Bucket` and the search of `lookUpIdx` are two ways to find the first boundary above
a number, and they agree (`lookUpIdx_eq_searchIdx`). Both need a boundary above the number, and
there is none above `100000`. `record` sends the values above `100000` to the last bucket before
it searches, but not `100000` itself. So a scaled value of exactly `100000` ends the process,
and no other does (`record_places_iff`).
-/

set_option autoImplicit false

namespace IstioVendor.Stats

open Lib

/-! ### The two searches -/

variable {n : Int}

/-- A number lies between one pair of boundaries only. -/
theorem Between.unique {i j : Nat} (hi : Between n i) (hj : Between n j) : i = j := by
  rcases Nat.lt_trichotomy i j with h | h | h
  · have hle := boundary_le (i := i) (j := j - 1) (by omega) (by have := hj.lt; omega)
    exact absurd (hi.gt.trans_le (hle.trans hj.le)) (lt_irrefl n)
  · exact h
  · have hle := boundary_le (i := j) (j := i - 1) (by omega) (by have := hi.lt; omega)
    exact absurd (hj.gt.trans_le (hle.trans hi.le)) (lt_irrefl n)

theorem searchIdx_eq_none {bs : List Int} {i : Nat} :
    searchIdx n bs i = none ↔ ∀ b ∈ bs, b ≤ n := by
  induction bs generalizing i with
  | nil => simp [searchIdx]
  | cons b bs ih =>
    rw [searchIdx, List.forall_mem_cons, ← ih (i := i + 1), ← not_lt]
    split_ifs with h
    · simp [h]
    · simp [h]

/-- The boundaries that the search of `lookUpIdx` goes through are all at most `n` when the last
one is. -/
theorem searchIdx_drop_eq_none {i : Nat} (hi : i < numValues) :
    searchIdx n (histogramBucketValues.drop i) i = none ↔ 100000 ≤ n := by
  rw [searchIdx_eq_none]
  constructor
  · intro h
    refine h 100000 (List.mem_iff_getElem?.mpr ⟨numValues - 1 - i, ?_⟩)
    rw [List.getElem?_drop, show i + (numValues - 1 - i) = numValues - 1 by omega]
    rfl
  · intro h b hb
    have hall : ∀ b ∈ histogramBucketValues, b ≤ 100000 := by decide
    exact (hall b (List.mem_of_mem_drop hb)).trans h

theorem length_fillVal2Bucket (n i idx : Nat) : (fillVal2Bucket n i idx).length = n := by
  induction n generalizing i idx with
  | zero => rfl
  | succ n ih => rw [fillVal2Bucket, List.length_cons, ih]

theorem lookUpIdx_eq_none (hpos : 0 ≤ n) (hlt : n < 2 ^ 31) : lookUpIdx n = none ↔ 100000 ≤ n := by
  have hn : int32 n = n := Int.bmod_eq_of_le (by omega) (by omega)
  unfold lookUpIdx
  simp only [hn]
  by_cases hsmall : n < maxArrayValue
  · rw [if_pos hsmall, if_pos hpos, List.getElem?_eq_none_iff, val2Bucket, length_fillVal2Bucket]
    rw [show maxArrayValue = 1000 from rfl] at hsmall ⊢
    omega
  · rw [if_neg hsmall]
    exact searchIdx_drop_eq_none (by decide +kernel)

/-- The search through all boundaries, which the table replaces for small numbers. -/
theorem between_searchIdx_all {j : Nat} (hpos : 0 ≤ n)
    (h : searchIdx n histogramBucketValues 0 = some j) : Between n j := by
  have hfirst : searchIdx n histogramBucketValues 0
      = if n < 0 then some 0 else searchIdx n (histogramBucketValues.drop 1) 1 := rfl
  rw [hfirst, if_neg (not_lt.mpr hpos)] at h
  exact between_searchIdx Nat.one_pos (by rwa [Nat.sub_self, boundary_zero]) h

/-- The table and the search from `maxArrayValueIndex` on find what a search through all
boundaries finds. -/
theorem lookUpIdx_eq_searchIdx (hpos : 0 ≤ n) (hlt : n < 2 ^ 31) :
    lookUpIdx n = searchIdx n histogramBucketValues 0 := by
  have hall : searchIdx n histogramBucketValues 0 = none ↔ 100000 ≤ n :=
    searchIdx_drop_eq_none (i := 0) (by decide)
  by_cases hn : 100000 ≤ n
  · rw [(lookUpIdx_eq_none hpos hlt).mpr hn, hall.mpr hn]
  · obtain ⟨i, hi⟩ := Option.ne_none_iff_exists'.mp (mt (lookUpIdx_eq_none hpos hlt).mp hn)
    obtain ⟨j, hj⟩ := Option.ne_none_iff_exists'.mp (mt hall.mp hn)
    rw [hi, hj, (between_lookUpIdx hpos hlt hi).unique (between_searchIdx_all hpos hj)]

/-! ### The bucket of a value -/

/-- `record` finds no bucket for the scaled value `100000`, and only for it. -/
theorem bucketIdx_eq_none {offset divider v : Rat} :
    bucketIdx offset divider v = none ↔ scaledVal offset divider v = 100000 := by
  change (if scaledVal offset divider v ≤ firstValue then some 0
    else if lastValue < scaledVal offset divider v then some (numBuckets - 1)
    else lookUpIdx (truncate (scaledVal offset divider v))) = none ↔ _
  generalize scaledVal offset divider v = s
  have hfirst : firstValue = 0 := rfl
  have hlast : lastValue = 100000 := rfl
  rw [hfirst, hlast]
  split_ifs with hle hgt
  · exact iff_of_false not_false (by rintro rfl; exact absurd hle (by norm_num))
  · exact iff_of_false not_false hgt.ne'
  · have hpos : 0 < s := not_le.mp hle
    obtain ⟨htrunc, hbelow, habove⟩ := truncate_of_pos hpos
    have hsmall : s ≤ 100000 := not_lt.mp hgt
    have hint : truncate s ≤ 100000 := by exact_mod_cast hbelow.trans hsmall
    rw [lookUpIdx_eq_none htrunc (by omega)]
    constructor
    · intro h
      have hcast : (100000 : Rat) ≤ truncate s := by exact_mod_cast h
      exact le_antisymm hsmall (hcast.trans hbelow)
    · intro h
      have hcast : (100000 : Rat) < truncate s + 1 := by rwa [h] at habove ⊢
      have hnext : (100000 : Int) < truncate s + 1 := by exact_mod_cast hcast
      omega

theorem bucket_eq_none {offset divider v : Rat} :
    bucket offset divider v = none ↔ scaledVal offset divider v = 100000 := by
  rw [← bucketIdx_eq_none, bucket]
  cases hidx : bucketIdx offset divider v with
  | none => simp
  | some i =>
    have hle := (inBucket_of_bucketIdx hidx).le_numValues
    have hlt : i < numBuckets := Nat.lt_succ_of_le hle
    simp [hlt]

/-- A new histogram exists for every divider but zero. `Record` comes back from it for every value
but the one on the last boundary. -/
theorem newHistogram_records_iff {offset divider v : Rat} :
    ((newHistogram offset divider).bind fun h => h.recordOne v).isSome = true ↔
      divider ≠ 0 ∧ scaledVal offset divider v ≠ 100000 := by
  unfold newHistogram
  by_cases hdivider : divider = 0
  · simp [hdivider]
  · rw [dif_neg hdivider, Option.bind_some]
    show ((bucket offset divider v).map _).isSome = true ↔ _
    rw [Option.isSome_map, Option.isSome_iff_ne_none, Ne, bucket_eq_none]
    exact ⟨fun h => ⟨hdivider, h⟩, fun h => h.2⟩

/-- `record` adds the count to the entry `idx` and to nothing else, and `idx` is the bucket
that the boundaries around the scaled value ask for. -/
structure Placed (h : Histogram) (v : Rat) (count : Int) (idx : Fin numBuckets) : Prop where
  adds : ∃ h', h.record v count = some h' ∧
    h'.hdata idx = h.hdata idx + BitVec.ofInt 32 count ∧
    (∀ j, j ≠ idx → h'.hdata j = h.hdata j) ∧
    h'.toCounter = h.toCounter ∧ h'.offset = h.offset ∧ h'.divider = h.divider
  first : idx.val = 0 ↔ (v - h.offset) / h.divider - 1 / 10000 ≤ 0
  last : idx.val = numBuckets - 1 ↔ 100000 < (v - h.offset) / h.divider - 1 / 10000
  inner : 0 < (v - h.offset) / h.divider - 1 / 10000 →
    (v - h.offset) / h.divider - 1 / 10000 ≤ 100000 →
    (histogramBucketValues.getD (idx - 1) 0 : Rat) ≤ (v - h.offset) / h.divider - 1 / 10000 ∧
    (v - h.offset) / h.divider - 1 / 10000 ≤ (histogramBucketValues.getD idx 0 : Rat)

namespace InBucket

variable {s : Rat} {i : Nat}

theorem eq_zero_iff (h : InBucket s i) : i = 0 ↔ s ≤ 0 := by
  constructor
  · rintro rfl
    simpa [boundary_zero] using h.upper (by decide)
  · intro hs
    by_contra hi
    exact absurd (h.lower (Nat.pos_of_ne_zero hi)).1 (not_lt.mpr hs)

theorem eq_last_iff (h : InBucket s i) : i = numValues ↔ 100000 < s := by
  have hlast : (boundary (numValues - 1) : Rat) = 100000 := by rw [boundary_last]; norm_num
  cases h with
  | first le => exact iff_of_false (by decide) (by linarith)
  | inner _ lt _ _ gt =>
    have hle : (boundary i : Rat) ≤ boundary (numValues - 1) := by
      exact_mod_cast boundary_le (by omega) (by decide)
    exact iff_of_false lt.ne (by linarith)
  | last gt => exact iff_of_true rfl (by rwa [hlast] at gt)

end InBucket

theorem placed_of_bucket {h : Histogram} {v : Rat} {count : Int} {idx : Fin numBuckets}
    (hidx : bucket h.offset h.divider v = some idx) : Placed h v count idx where
  adds := by
    have hrec : h.record v count = some
        { h with hdata := Function.update h.hdata idx (h.hdata idx + BitVec.ofInt 32 count) } := by
      rw [Histogram.record, hidx, Option.map_some]
    refine ⟨_, hrec, Function.update_self .., fun j hj => ?_, rfl, rfl, rfl⟩
    exact Function.update_of_ne hj ..
  first := (inBucket_of_bucket hidx).eq_zero_iff
  last := (inBucket_of_bucket hidx).eq_last_iff
  inner := fun hpos hle => by
    have hin := inBucket_of_bucket hidx
    have hzero : idx.val ≠ 0 := fun h0 => absurd (hin.eq_zero_iff.mp h0) (not_le.mpr hpos)
    have hlast : idx.val ≠ numValues := fun h1 => absurd (hin.eq_last_iff.mp h1) (not_lt.mpr hle)
    have hbound := hin.le_numValues
    exact ⟨(hin.lower (Nat.pos_of_ne_zero hzero)).2, hin.upper (by omega)⟩

/-- `record` places every value in the bucket between its boundaries, unless the scaled value is
the last boundary. And the table and the search of `lookUpIdx` agree with one search through all
boundaries. -/
theorem record_places_iff (h : Histogram) (v : Rat) (count : Int) :
    ((∃ idx, Placed h v count idx) ↔ (v - h.offset) / h.divider - 1 / 10000 ≠ 100000) ∧
    ∀ n : Int, 0 ≤ n → n < 2 ^ 31 → lookUpIdx n = searchIdx n histogramBucketValues 0 := by
  refine ⟨⟨?_, ?_⟩, fun n => lookUpIdx_eq_searchIdx⟩
  · rintro ⟨idx, hplaced⟩ hscaled
    obtain ⟨h', hrec, -⟩ := hplaced.adds
    rw [Histogram.record, bucket_eq_none.mpr hscaled, Option.map_none] at hrec
    exact Option.some_ne_none _ hrec.symm
  · intro hscaled
    obtain ⟨idx, hidx⟩ := Option.ne_none_iff_exists'.mp (mt bucket_eq_none.mp hscaled)
    exact ⟨idx, placed_of_bucket hidx⟩

theorem record_places_three :
    (∃ idx, Placed unitHistogram 3 1 idx) ∧
      lookUpIdx 1000 = searchIdx 1000 histogramBucketValues 0 :=
  ⟨(record_places_iff unitHistogram 3 1).1.mpr (by norm_num [unitHistogram, Histogram.blank]),
    (record_places_iff unitHistogram 3 1).2 1000 (by decide) (by decide)⟩

/-- The value `100000.0001` ends the process. -/
theorem record_fails_at_last_boundary : unitHistogram.record (100000 + 1 / 10000) 1 = none := by
  rw [Histogram.record, Option.map_eq_none_iff, bucket_eq_none]
  norm_num [scaledVal, unitHistogram, Histogram.blank]

end IstioVendor.Stats
