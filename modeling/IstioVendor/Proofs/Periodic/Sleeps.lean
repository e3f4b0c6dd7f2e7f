import IstioVendor.Proofs.Periodic.Results
import IstioVendor.Proofs.Stats.Buckets

/-!
# `IstioVendor.Proofs.Periodic.Sleeps`: the sleeps that were behind

In QPS mode, `Run` reports the percentage of the sleeps that were behind. It takes the first bucket
of the histogram of the sleeps for their number. The histogram starts at minus one millisecond, and
a bucket is a millisecond wide. So the first bucket has the sleeps of at most minus one millisecond,
with the margin of `Record` (`bucket_seconds`). A worker that is late by less than that is in the
second bucket, together with the workers that are on time.

The percentage is therefore right exactly when no worker was late by less than 999900 nanoseconds
(`Told`). The entry of the bucket is an `int32` and the count an `int64`, so `Told` also says that
they have not wrapped. `percentNegative_iff` states this for every split of the sleeps over the
workers, and for every run.
-/

set_option autoImplicit false

namespace IstioVendor.Periodic

open Lib
open Stats (Histogram newHistogram bucket scaledVal)

/-! ### The first bucket -/

theorem zero_lt_numBuckets : 0 < Stats.numBuckets := by decide

theorem milli_ne_zero : (1 / 1000 : Rat) ≠ 0 := by decide +kernel

/-- The histogram of the sleeps of all workers at the end of `Run`. -/
def sleepTime (numThreads : Int) (slept : List (List Int)) : Option Histogram :=
  (newHistogram (-1 / 1000) (1 / 1000)).bind fun h =>
    collect numThreads h (slept.map fun ds => ds.map seconds)

/-- The number of the sleeps that are negative. -/
def negatives (sleeps : List Int) : Nat := sleeps.countP fun d => d < 0

/-- The number of the sleeps that the first bucket is for. -/
def behind (sleeps : List Int) : Nat := sleeps.countP fun d => d ≤ -999900

theorem behind_le_negatives (sleeps : List Int) : behind sleeps ≤ negatives sleeps := by
  refine List.countP_mono_left fun d _ hd => ?_
  simp only [decide_eq_true_eq] at hd ⊢
  omega

/-- All negative sleeps are in the first bucket exactly when none is close to zero. -/
theorem behind_eq_negatives_iff (sleeps : List Int) :
    behind sleeps = negatives sleeps ↔ ∀ d ∈ sleeps, d < 0 → d ≤ -999900 := by
  induction sleeps with
  | nil => simp [behind, negatives]
  | cons d sleeps ih =>
    have hle := behind_le_negatives sleeps
    unfold behind negatives at ih hle ⊢
    rw [List.countP_cons, List.countP_cons, List.forall_mem_cons, ← ih]
    simp only [decide_eq_true_eq]
    split_ifs <;> omega

/-- The first bucket is for the values that are not positive on the scale. -/
theorem bucket_eq_zero_iff {offset divider v : Rat} :
    bucket offset divider v = some ⟨0, zero_lt_numBuckets⟩ ↔ scaledVal offset divider v ≤ 0 := by
  constructor
  · intro hbucket
    by_contra hpos
    have hin := Stats.inBucket_of_bucket hbucket
    cases hin with
    | first le => exact hpos le
    | inner pos => exact absurd pos (lt_irrefl 0)
  · intro hle
    have hidx : Stats.bucketIdx offset divider v = some 0 := by
      change (if scaledVal offset divider v ≤ Stats.firstValue then some 0 else _) = some 0
      rw [if_pos]
      exact hle
    rw [bucket, hidx, Option.bind_some, dif_pos zero_lt_numBuckets]

/-- The sleeps in the first bucket. -/
theorem bucket_seconds (d : Int) :
    bucket (-1 / 1000) (1 / 1000) (seconds d) = some ⟨0, zero_lt_numBuckets⟩ ↔ d ≤ -999900 := by
  -- The offset is one millisecond, and the margin of `Record` takes 100 nanoseconds off it.
  have hscaled : scaledVal (-1 / 1000) (1 / 1000) (seconds d) = (d + 999900) / 10 ^ 6 := by
    unfold scaledVal seconds
    ring
  have hnum : ((d : Rat) + 999900 ≤ 0) ↔ d ≤ -999900 := by
    rw [← Rat.intCast_le_intCast (a := d)]
    push_cast
    constructor <;> intro h <;> linarith
  rw [bucket_eq_zero_iff, hscaled, div_le_iff₀ (by norm_num), zero_mul, hnum]

/-! ### Every split over the workers -/

section Collected

variable {numThreads : Int} {slept : List (List Int)} {h : Histogram}

theorem blank_of_newHistogram (hnew : newHistogram (-1 / 1000) (1 / 1000) = some h) :
    Histogram.blank (-1 / 1000) (1 / 1000) milli_ne_zero = h := by
  unfold newHistogram at hnew
  rw [dif_neg milli_ne_zero] at hnew
  exact Option.some.inj hnew

section
variable (hsleep : sleepTime numThreads slept = some h)
include hsleep

theorem sleepTime_count : h.count = int64 (slept.flatten.length : Nat) := by
  obtain ⟨h₀, hnew, hcollect⟩ := Option.bind_eq_some_iff.mp hsleep
  obtain rfl := blank_of_newHistogram hnew
  rw [collect_count rfl hcollect, List.map_map, List.length_flatten]
  congr 3
  refine List.map_congr_left fun ds _ => ?_
  rw [Function.comp, List.length_map]

/-- How the sleeps are shared does not matter. -/
theorem recordAll_of_sleepTime (hlt : slept.flatten.length < 2 ^ 64) :
    (Histogram.blank (-1 / 1000) (1 / 1000) milli_ne_zero).recordAll
      (slept.flatten.map seconds) = some h := by
  obtain ⟨h₀, hnew, hcollect⟩ := Option.bind_eq_some_iff.mp hsleep
  obtain rfl := blank_of_newHistogram hnew
  have hflat : slept.flatten.map seconds = (slept.map fun ds => ds.map seconds).flatten :=
    List.map_flatten
  -- One worker records into the histogram itself. Several have one each, and these are transferred.
  unfold collect at hcollect
  split_ifs at hcollect
  · rw [hflat]
    exact hcollect
  · obtain ⟨ws, hws, hrest⟩ := Option.bind_eq_some_iff.mp hcollect
    obtain ⟨⟨h₁, left⟩, ht, ⟨⟩⟩ := Option.bind_eq_some_iff.mp hrest
    have hshards : List.Forall₂ (fun shard w =>
        (Histogram.blank (-1 / 1000) (1 / 1000) milli_ne_zero).recordAll shard = some w)
        (slept.map fun ds => ds.map seconds) ws :=
      (mapM_eq_some_iff.mp hws).imp fun shard w hw => by
        rwa [Histogram.clone_eq, Option.bind_some] at hw
    obtain ⟨h', hrec, ht'⟩ := Stats.transferAll_eq_recordAll hshards (.of_eq hflat)
      (by rwa [List.length_map])
    rw [ht'] at ht
    cases Option.some.inj ht
    exact hrec

/-- The first bucket, as far as 32 bits show it. -/
theorem sleepTime_first (hlt : slept.flatten.length < 2 ^ 64) :
    h.hdata ⟨0, zero_lt_numBuckets⟩ = BitVec.ofNat 32 (behind slept.flatten) := by
  have hrec := recordAll_of_sleepTime hsleep hlt
  rw [Stats.apply_spread (Histogram.spread_of_recordAll hrec).2.1, List.countP_map]
  congr 1
  refine List.countP_congr fun d _ => ?_
  rw [Function.comp, decide_eq_true_eq, decide_eq_true_eq, bucket_seconds]

end

end Collected

/-- The histogram counts the sleeps, and its first bucket the negative ones. -/
structure CountsNegatives (h : Histogram) (sleeps : List Int) : Prop where
  first : (h.hdata ⟨0, zero_lt_numBuckets⟩).toInt = negatives sleeps
  count : h.count = sleeps.length

/-- The sleeps that the first bucket tells apart: a late worker is late by a millisecond, up to the
margin, and the numbers fit. -/
structure Told (sleeps : List Int) : Prop where
  late : ∀ d ∈ sleeps, d < 0 → d ≤ -999900
  entry : negatives sleeps < 2 ^ 31
  total : sleeps.length < 2 ^ 63

/-- An entry of 32 bits is never more than the number that it stands for. It is the number of all
negative sleeps when these are in the first bucket and fit. -/
theorem toInt_behind_eq_iff (sleeps : List Int) :
    (BitVec.ofNat 32 (behind sleeps)).toInt = negatives sleeps ↔
      (∀ d ∈ sleeps, d < 0 → d ≤ -999900) ∧ negatives sleeps < 2 ^ 31 := by
  rw [← behind_eq_negatives_iff]
  have hle := behind_le_negatives sleeps
  rw [BitVec.toInt_ofNat']
  constructor
  · -- Wrapping makes the entry smaller, so that it cannot make up for a sleep that is missing.
    intro heq
    have hlow := Int.bmod_le (x := behind sleeps) (m := 2 ^ 32) (by decide)
    have hself : ((behind sleeps : Int)).bmod (2 ^ 32) ≤ behind sleeps := by
      rw [Int.bmod_def]
      split_ifs <;> omega
    omega
  · rintro ⟨heq, hlt⟩
    rw [heq]
    exact Int.bmod_eq_of_le (by omega) (by omega)

theorem countsNegatives_iff {numThreads : Int} {slept : List (List Int)} {h : Histogram}
    (hsleep : sleepTime numThreads slept = some h) :
    CountsNegatives h slept.flatten ↔ Told slept.flatten := by
  have hcount := sleepTime_count hsleep
  constructor
  · rintro ⟨hfirst, htotal⟩
    -- The count is an `int64`, and it is the number of the sleeps.
    have hlt := int64_lt slept.flatten.length
    have hlen : slept.flatten.length < 2 ^ 63 := by omega
    rw [sleepTime_first hsleep (by omega)] at hfirst
    obtain ⟨hlate, hentry⟩ := (toInt_behind_eq_iff _).mp hfirst
    exact ⟨hlate, hentry, hlen⟩
  · rintro ⟨hlate, hentry, hlen⟩
    refine ⟨?_, by rw [hcount, int64_of_nat hlen]⟩
    rw [sleepTime_first hsleep (by omega)]
    exact (toInt_behind_eq_iff _).mpr ⟨hlate, hentry⟩

/-! ### Every run -/

/-- The percentage that `Run` looks at is the one of the negative sleeps, out of as many as the
histogram counts. -/
structure PercentRight (r : RunnerOptions) (workers : List Working) (res : RunnerResults) :
    Prop where
  percent : res.percentNegative = some (100 * (negatives (workers.flatMap Working.slept) : Rat)
    / (workers.flatMap Working.slept).length)
  counted : ∃ h, sleepTime (plan r).numThreads (workers.map Working.slept) = some h ∧
    h.count = (workers.flatMap Working.slept).length

section Run

variable {r : RunnerOptions} {start : Int} {world : Nat → Nat → Tick} {passes : Nat}
  {workers : List Working} {res : RunnerResults}

/-- The percentage of a run is made from the histogram of its sleeps. -/
theorem percentNegative_of_run (hq : r.useQPS = true)
    (hworkers : runWorkers r start world passes = some workers)
    (hrun : run r start world passes = some res) :
    ∃ h, sleepTime (plan r).numThreads (workers.map Working.slept) = some h ∧
      res.percentNegative =
        some (100 * ((h.hdata ⟨0, zero_lt_numBuckets⟩).toInt : Rat) / h.count) := by
  obtain ⟨workers', hworkers', hrest⟩ := Option.bind_eq_some_iff.mp hrun
  obtain rfl : workers' = workers := Option.some.inj (hworkers'.symm.trans hworkers)
  -- The histogram of the calls comes first.
  obtain ⟨_, _, hrest⟩ := Option.bind_eq_some_iff.mp hrest
  obtain ⟨_, _, hrest⟩ := Option.bind_eq_some_iff.mp hrest
  obtain ⟨h₀, hnew, hrest⟩ := Option.bind_eq_some_iff.mp hrest
  obtain ⟨h, hcollect, ⟨⟩⟩ := Option.bind_eq_some_iff.mp hrest
  refine ⟨h, ?_, if_pos hq⟩
  rw [sleepTime, hnew, Option.bind_some, List.map_map]
  exact hcollect

theorem percentRight_iff (hq : r.useQPS = true)
    (hworkers : runWorkers r start world passes = some workers)
    (hsome : workers.flatMap Working.slept ≠ [])
    (hrun : run r start world passes = some res) :
    PercentRight r workers res ↔ Told (workers.flatMap Working.slept) := by
  obtain ⟨h, hsleep, hpercent⟩ := percentNegative_of_run hq hworkers hrun
  have htold := countsNegatives_iff hsleep
  rw [← List.flatMap_def] at htold
  rw [← htold]
  have hpos : ((workers.flatMap Working.slept).length : Rat) ≠ 0 := by
    rw [Nat.cast_ne_zero]
    exact mt List.length_eq_zero_iff.mp hsome
  constructor
  · rintro ⟨hright, h', hsleep', hcount⟩
    obtain rfl : h' = h := Option.some.inj (hsleep'.symm.trans hsleep)
    rw [hpercent, Option.some.injEq, hcount, Int.cast_natCast, div_left_inj' hpos] at hright
    refine ⟨?_, hcount⟩
    have hfirst := mul_left_cancel₀ (by norm_num : (100 : Rat) ≠ 0) hright
    exact_mod_cast hfirst
  · rintro ⟨hfirst, hcount⟩
    refine ⟨?_, h, hsleep, hcount⟩
    rw [hpercent, hfirst, hcount, Int.cast_natCast, Int.cast_natCast]

end Run

/-- The first bucket counts the negative sleeps, for every split over the workers, and the
percentage of a run in QPS mode is the one of the negative sleeps, exactly when the sleeps are
`Told`. -/
theorem percentNegative_iff (slept : List (List Int)) :
    (∀ (numThreads : Int) (h : Histogram), sleepTime numThreads slept = some h →
      (CountsNegatives h slept.flatten ↔ Told slept.flatten)) ∧
    ∀ (r : RunnerOptions) (start : Int) (world : Nat → Nat → Tick) (passes : Nat)
      (workers : List Working) (res : RunnerResults), r.useQPS = true →
      runWorkers r start world passes = some workers → workers.map Working.slept = slept →
      slept.flatten ≠ [] → run r start world passes = some res →
      (PercentRight r workers res ↔ Told slept.flatten) := by
  refine ⟨fun _ _ hsleep => countsNegatives_iff hsleep, ?_⟩
  intro r start world passes workers res hq hworkers hslept hsome hrun
  obtain rfl := hslept
  exact percentRight_iff hq hworkers hsome hrun

/-- Two calls with one second between them, by one worker. -/
def twoCalls : RunnerOptions := ⟨1, -1, 1, 1 / 1000, 2, one_lt_int64, two_lt_int64⟩

/-- The first call is late by `late` nanoseconds, and nothing stops the worker. -/
def lateBy (late : Int) : Nat → Nat → Tick := fun _ _ => ⟨0, 0, 10 ^ 9 + late, false⟩

/-- A worker that is late by a millisecond. -/
theorem percentNegative_late_millisecond :
    ∃ res, run twoCalls 0 (lateBy 1000000) 2 = some res ∧ res.percentNegative = some 100 ∧
      PercentRight twoCalls [⟨2, [0, 0], [-1000000]⟩] res := by
  obtain ⟨res, hres, hpercent⟩ := (Option.any_eq_true _ _).mp
    (show (run twoCalls 0 (lateBy 1000000) 2).any
      (fun res => decide (res.percentNegative = some 100)) = true by decide +kernel)
  have hworkers : runWorkers twoCalls 0 (lateBy 1000000) 2 = some [⟨2, [0, 0], [-1000000]⟩] := by
    decide +kernel
  refine ⟨res, hres, of_decide_eq_true hpercent, ?_⟩
  exact ((percentNegative_iff [[-1000000]]).2 twoCalls 0 (lateBy 1000000) 2
    [⟨2, [0, 0], [-1000000]⟩] res (by decide +kernel) hworkers rfl (by decide) hres).mpr
    ⟨by decide, by decide, by decide⟩

/-- The only sleep is negative, but the worker is late by one nanosecond. The reported percentage is
zero, and not 100. -/
theorem percentNegative_misses_nanosecond :
    runWorkers twoCalls 0 (lateBy 1) 2 = some [⟨2, [0, 0], [-1]⟩] ∧
    negatives [-1] = 1 ∧
    (run twoCalls 0 (lateBy 1) 2).map RunnerResults.percentNegative = some (some 0) := by
  decide +kernel

end IstioVendor.Periodic
