import Mathlib.Tactic.LinearCombination
import IstioVendor.Proofs.Stats.Placement

/-!
# `IstioVendor.Proofs.Stats.Repeats`: `RecordN` against repeated calls of `Record`

`RecordN` is there to record a value `n` times at once. The count, the sum and the entries of
`Hdata` are those of `n` calls of `Record`. The sum of squares is not: `RecordN` adds `(v * n) ^ 2`
where the calls add `n * v ^ 2`. So the results differ for `n ≥ 2` and `v ≠ 0`.

For `v = 0` what is left are the extremes. `Record` starts them anew when the count is zero, and
it does not compare a value below the minimum with the maximum. `Settles` says when the later
calls do not change what the first one has made of the extremes: whenever the minimum is at most
the maximum, and the count does not pass zero by a wrap.
-/

set_option autoImplicit false

namespace IstioVendor.Stats

open Lib

variable {c : Counter} {n : Nat} {v : Rat} {i : Fin numBuckets}

namespace Counter

/-- `n` calls of `Record` for the value `v`. -/
def records (c : Counter) (v : Rat) (n : Nat) : Counter :=
  (List.replicate n v).foldl Counter.record c

theorem records_succ (c : Counter) (v : Rat) (n : Nat) :
    c.records v (n + 1) = (c.records v n).record v := by
  rw [records, List.replicate_succ', List.foldl_append]
  rfl

/-- The sums after `n` calls, with the wrap of the count. -/
theorem records_sums (c : Counter) (v : Rat) (hn : 0 < n) :
    (c.records v n).count = int64 (c.count + n) ∧ (c.records v n).sum = c.sum + v * n ∧
      (c.records v n).sumOfSquares = c.sumOfSquares + n * (v * v) := by
  induction n, hn using Nat.le_induction with
  | base => simp [records, record, recordN]
  | succ n _ ih =>
    obtain ⟨hcount, hsum, hsquares⟩ := ih
    rw [records_succ]
    simp only [record, recordN, hcount, hsum, hsquares, int64_add_int64_left]
    push_cast
    exact ⟨by rw [add_assoc], by ring, by ring⟩

/-- The count passes zero between the first and the last of `n` calls. -/
def PassesZero (c : Counter) (n : Nat) : Prop := ∃ k, 0 < k ∧ k < n ∧ int64 (c.count + k) = 0

theorem PassesZero.succ (h : c.PassesZero n) : c.PassesZero (n + 1) := by
  obtain ⟨k, hpos, hlt, hzero⟩ := h
  exact ⟨k, hpos, by omega, hzero⟩

theorem passesZero_succ (hn : 0 < n) :
    c.PassesZero (n + 1) ↔ c.PassesZero n ∨ int64 (c.count + n) = 0 := by
  constructor
  · rintro ⟨k, hpos, hlt, hzero⟩
    rcases Nat.lt_succ_iff_lt_or_eq.mp hlt with h | rfl
    · exact .inl ⟨k, hpos, h, hzero⟩
    · exact .inr hzero
  · rintro (h | h)
    · exact h.succ
    · exact ⟨n, hn, Nat.lt_succ_self n, h⟩

section
variable {c : Counter} {v : Rat}

theorem record_min_le : (c.record v).min ≤ v := by
  simp only [record, recordN]
  split_ifs with h0 hlt
  · exact le_rfl
  · exact le_rfl
  · exact not_lt.mp hlt

/-- A call for a value that is not below the minimum. -/
theorem record_extremes (hmin : c.min ≤ v) :
    ((c.record v).min, (c.record v).max) = if c.count = 0 then (v, v) else (c.min, c.max ⊔ v) := by
  simp only [record, recordN, not_lt.mpr hmin, if_false]
  split_ifs with h0 hlt
  · rfl
  · rw [max_eq_right hlt.le]
  · rw [max_eq_left (not_lt.mp hlt)]

open Classical in
/-- The extremes after `n` calls. The induction is on the calls after the first one: from then on
the value is not below the minimum. -/
theorem records_extremes (hn : 1 < n) :
    ((c.records v n).min, (c.records v n).max)
      = if c.PassesZero n then (v, v) else ((c.record v).min, (c.record v).max ⊔ v) := by
  induction n, hn using Nat.le_induction with
  | base =>
    have hcount : (c.record v).count = int64 (c.count + 1) := rfl
    have hpass : c.PassesZero 2 ↔ int64 (c.count + 1) = 0 := by
      rw [passesZero_succ Nat.one_pos, Nat.cast_one, or_iff_right]
      rintro ⟨k, hpos, hlt, -⟩
      omega
    have htwo : c.records v (1 + 1) = (c.record v).record v := rfl
    rw [htwo, record_extremes record_min_le, hcount]
    exact if_congr hpass.symm rfl rfl
  | succ n hn ih =>
    have hpos : 0 < n := by omega
    have hmin : (c.records v n).min ≤ v := by
      obtain ⟨k, rfl⟩ := Nat.exists_eq_add_of_lt hpos
      rw [records_succ]
      exact record_min_le
    rw [records_succ, record_extremes hmin, (records_sums c v hpos).1]
    have hmin_eq := congrArg Prod.fst ih
    have hmax_eq := congrArg Prod.snd ih
    dsimp only at hmin_eq hmax_eq
    rw [hmin_eq, hmax_eq]
    -- A count of 0 makes the next value the first one again.
    by_cases hzero : int64 (c.count + n) = 0
    · rw [if_pos hzero, if_pos ((passesZero_succ hpos).mpr (.inr hzero))]
    by_cases hpass : c.PassesZero n
    · rw [if_neg hzero, if_pos hpass, if_pos hpass.succ, max_self]
    · have hnot : ¬ c.PassesZero (n + 1) := by
        rw [passesZero_succ hpos]
        exact not_or.mpr ⟨hpass, hzero⟩
      rw [if_neg hzero, if_neg hpass, if_neg hnot]
      simp

/-- After the first of `n` calls, the others do not change the extremes. -/
def Settles (c : Counter) (v : Rat) (n : Nat) : Prop :=
  c.count = 0 ∨
    (c.PassesZero n → (v < c.min ∧ c.max = v) ∨ (c.min = v ∧ c.max ≤ v)) ∧
    (¬ c.PassesZero n → ¬ (v < c.min ∧ c.max < v))

theorem record_extremes_eq_iff :
    ((c.record v).min = v ∧ (c.record v).max = v) ↔
      c.count = 0 ∨ (v < c.min ∧ c.max = v) ∨ (c.min = v ∧ c.max ≤ v) := by
  simp only [record, recordN]
  by_cases h0 : c.count = 0
  · simp [h0]
  by_cases hlt : v < c.min
  · simp [h0, hlt, hlt.ne']
  simp only [h0, hlt, if_false, false_or, false_and]
  refine and_congr_right fun _ => ?_
  split_ifs with hmax
  · exact iff_of_true rfl hmax.le
  · exact ⟨fun h => h.le, fun h => le_antisymm h (not_lt.mp hmax)⟩

theorem le_record_max_iff : v ≤ (c.record v).max ↔ c.count = 0 ∨ ¬ (v < c.min ∧ c.max < v) := by
  simp only [record, recordN]
  by_cases h0 : c.count = 0
  · simp [h0]
  by_cases hlt : v < c.min
  · simp [h0, hlt]
  simp only [h0, hlt, if_false, false_or, false_and, not_false_eq_true, iff_true]
  split_ifs with hmax
  · exact le_rfl
  · exact not_lt.mp hmax

/-- `RecordN` makes the same of the extremes as `n` calls exactly when they settle. -/
theorem extremes_eq_iff (hn : 1 < n) :
    ((c.recordN v n).min = (c.records v n).min ∧ (c.recordN v n).max = (c.records v n).max) ↔
      c.Settles v n := by
  have hmin_rec : (c.recordN v n).min = (c.record v).min := rfl
  have hmax_rec : (c.recordN v n).max = (c.record v).max := rfl
  have hext := records_extremes (c := c) (v := v) hn
  have hmin_eq := congrArg Prod.fst hext
  have hmax_eq := congrArg Prod.snd hext
  dsimp only at hmin_eq hmax_eq
  rw [hmin_rec, hmax_rec, hmin_eq, hmax_eq, Settles]
  by_cases hpass : c.PassesZero n
  · simp only [hpass, if_true, true_imp_iff, not_true_eq_false, false_imp_iff, and_true]
    exact record_extremes_eq_iff
  · simp only [hpass, if_false, false_imp_iff, not_false_eq_true, true_imp_iff, true_and,
      eq_comm (a := (c.record v).max), max_eq_left_iff]
    exact le_record_max_iff

end

/-- When `n` calls of `Record` can be replaced by one of `RecordN`. -/
def Replaces (c : Counter) (v : Rat) (n : Nat) : Prop := n = 1 ∨ v = 0 ∧ c.Settles v n

theorem recordN_eq_records (hn : 0 < n) : c.recordN v n = c.records v n ↔ c.Replaces v n := by
  rcases Nat.lt_or_eq_of_le hn with hlt | rfl
  · obtain ⟨hcount, hsum, hsquares⟩ := records_sums c v hn
    -- `RecordN` squares the sum of the values, and not each of them.
    have hsquares_iff : (c.recordN v n).sumOfSquares = (c.records v n).sumOfSquares ↔ v = 0 := by
      rw [hsquares]
      change c.sumOfSquares + v * (n : Int) * (v * (n : Int)) = _ ↔ _
      have hcast : (1 : Rat) < n := by exact_mod_cast hlt
      constructor
      · intro h
        have hprod : (v * v) * (n * (n - 1 : Rat)) = 0 := by
          linear_combination h
        rcases mul_eq_zero.mp hprod with h0 | h0
        · exact mul_self_eq_zero.mp h0
        · rcases mul_eq_zero.mp h0 with h1 | h1
          · linarith
          · linarith
      · rintro rfl
        ring
    have hcount' : (c.recordN v n).count = (c.records v n).count := by rw [hcount]; rfl
    have hsum' : (c.recordN v n).sum = (c.records v n).sum := by rw [hsum]; rfl
    rw [Replaces, or_iff_right (by omega), ← extremes_eq_iff hlt, ← hsquares_iff]
    constructor
    · intro h
      rw [h]
      exact ⟨rfl, rfl, rfl⟩
    · rintro ⟨hsq, hmin, hmax⟩
      generalize c.recordN v n = a at *
      generalize c.records v n = b at *
      cases a
      cases b
      simp_all
  · exact iff_of_true rfl (.inl rfl)

end Counter

namespace Histogram

/-- What `n` calls add to `Hdata`. -/
theorem spread_replicate {offset divider : Rat} (hi : bucket offset divider v = some i) (n : Nat) :
    spread offset divider ((List.replicate n v).map fun v => (v, 1))
      = some (Pi.single i (BitVec.ofInt 32 n)) := by
  induction n with
  | zero => exact congrArg some (Pi.single_zero i).symm
  | succ n ih =>
    unfold spread at ih ⊢
    rw [List.replicate_succ, List.map_cons, sumOption, hi, Option.map_some, Option.bind_some, ih,
      Option.map_some, ← Pi.single_add, ← BitVec.ofInt_add, Int.add_comm, Nat.cast_succ]

/-- The entries of `Hdata` do not differ. -/
theorem recordN_eq_recordAll_of_bucket {h : Histogram} (hi : bucket h.offset h.divider v = some i) :
    h.recordN v n = h.recordAll (List.replicate n v) ↔
      h.toCounter.recordN v n = h.toCounter.records v n := by
  have hrec : h.recordN v n = some { h with
      toCounter := h.toCounter.recordN v n
      hdata := h.hdata + Pi.single i (BitVec.ofInt 32 n) } := by
    rw [recordN, record_eq]
    simp only [hi, Option.map_some]
  rw [hrec, recordAll_eq, spread_replicate hi, Option.map_some, Option.some.injEq]
  simp only [mk.injEq, and_true]
  exact Iff.rfl

theorem recordN_eq_recordAll {h : Histogram} (hn : 0 < n) :
    h.recordN v n = h.recordAll (List.replicate n v) ↔
      (v - h.offset) / h.divider - 1 / 10000 = 100000 ∨ h.toCounter.Replaces v n := by
  by_cases hscaled : scaledVal h.offset h.divider v = 100000
  · -- Both end the process at the first record.
    have hnone : bucket h.offset h.divider v = none := bucket_eq_none.mpr hscaled
    obtain ⟨k, rfl⟩ := Nat.exists_eq_add_of_lt hn
    refine iff_of_true ?_ (.inl hscaled)
    rw [recordN, record_eq, recordAll_eq, Nat.zero_add, List.replicate_succ, List.map_cons, spread,
      sumOption]
    simp only [hnone, Option.map_none, Option.bind_none]
  · obtain ⟨i, hi⟩ := Option.ne_none_iff_exists'.mp (mt bucket_eq_none.mp hscaled)
    rw [recordN_eq_recordAll_of_bucket hi, Counter.recordN_eq_records hn, or_iff_right]
    exact hscaled

end Histogram

/-- `RecordN(v, n)` leaves a counter, or a histogram, as `n` calls of `Record(v)` do exactly when
`n = 1`, or when `v = 0` and the extremes settle; for a histogram also when the value ends the
process. -/
theorem recordN_eq_records_iff (c : Counter) (h : Histogram) (v : Rat) (n : Nat) (hn : 0 < n) :
    (c.recordN v n = (List.replicate n v).foldl Counter.record c ↔ c.Replaces v n) ∧
    (h.recordN v n = (List.replicate n v).foldlM Histogram.recordOne h ↔
      (v - h.offset) / h.divider - 1 / 10000 = 100000 ∨ h.toCounter.Replaces v n) :=
  ⟨Counter.recordN_eq_records hn, Histogram.recordN_eq_recordAll hn⟩

/-- Two values of 0, on an empty counter and on an empty histogram. -/
theorem recordN_eq_records_zero :
    Counter.empty.recordN 0 2 = [(0 : Rat), 0].foldl Counter.record .empty ∧
      unitHistogram.recordN 0 2 = [(0 : Rat), 0].foldlM Histogram.recordOne unitHistogram := by
  have hreplaces : Counter.empty.Replaces 0 2 := .inr ⟨rfl, .inl rfl⟩
  obtain ⟨hcounter, hhistogram⟩ := recordN_eq_records_iff .empty unitHistogram 0 2 (by decide)
  exact ⟨hcounter.mpr hreplaces, hhistogram.mpr (.inr hreplaces)⟩

/-- Two values of 1, whose standard deviation is 0, and by `RecordN` 1. -/
theorem recordN_ne_records :
    Counter.empty.recordN 1 2 ≠ [1, 1].foldl Counter.record .empty ∧
      (Counter.empty.recordN 1 2).stdDev = some 1 ∧
      ([1, 1].foldl Counter.record .empty).stdDev = some 0 := by
  decide +kernel

end IstioVendor.Stats
