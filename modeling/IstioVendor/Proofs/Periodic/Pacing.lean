import IstioVendor.Proofs.Periodic.Calls

/-!
# `IstioVendor.Proofs.Periodic.Pacing`: the plan of a run at a rate

At a rate, `Run` raises the number of calls to two, lowers the number of workers to half of the
calls, and divides. `planCalls_sound` says what comes out: every worker has at least two calls,
and all workers together have the calls that were asked for, but for a rest of less than one call
for each. The rest is negative for `Exactly` one call only, where one worker is asked for one call.

A worker spreads its calls over the duration. It divides by the number of the intervals between its
calls, one less than its budget, and never when this is zero (`divisor_ne_zero`). The targets are
the multiples of one interval, and the last one is not after the end (`paced_of_plan`).
-/

set_option autoImplicit false

namespace IstioVendor.Periodic

open Lib

/-- The number of calls that is asked for at a rate. -/
def requested (r : RunnerOptions) : Int :=
  if 0 < r.exactly then r.exactly else ⌊r.qps * (r.duration / 10 ^ 9)⌋

/-- The two conversions of the planning that could wrap do not: of twice the number of workers,
and of the number of calls in the duration. -/
structure ExactArithmetic (r : RunnerOptions) : Prop where
  threads : int64 (2 * r.numThreads) = 2 * r.numThreads
  calls : r.exactly ≤ 0 → int64 ⌊r.qps * (r.duration / 10 ^ 9)⌋ = ⌊r.qps * (r.duration / 10 ^ 9)⌋

/-- The time until the next call should start, in seconds: the variable of `runOne` before it is
made a number of nanoseconds. -/
def Job.targetElapsedInSec (j : Job) (i : Int) : Rat :=
  if j.r.hasDuration then ((i : Rat) + i / ((j.numCalls - 1 : Int) : Rat)) / j.perThreadQPS
  else i / j.perThreadQPS

/-- What the plan for `N0` calls should be. -/
structure SoundPlan (r : RunnerOptions) (N0 : Int) (p : Plan) : Prop where
  one_le_threads : 1 ≤ p.numThreads
  threads_le : p.numThreads ≤ r.numThreads
  two_le_calls : 2 ≤ p.numCalls
  total_le : p.numCalls * p.numThreads ≤ max 2 N0
  lt_total : max 2 N0 < (p.numCalls + 1) * p.numThreads
  leftOver_neg : p.leftOver = -1 ↔ r.exactly = 1
  threads_one : r.exactly = 1 → p.numThreads = 1
  leftOver_range : r.exactly ≠ 1 → 0 ≤ p.leftOver ∧ p.leftOver ≤ p.numThreads - 1

/-- The target times of a worker: increasing, with equal intervals, and in time if at least two
calls were asked for. -/
structure Paced (j : Job) (N0 : Int) : Prop where
  increasing : ∀ i, 1 ≤ i → i + 1 ≤ j.numCalls - 1 →
    j.targetElapsedInSec i < j.targetElapsedInSec (i + 1)
  equal : ∀ i i', 1 ≤ i → i + 1 ≤ j.numCalls - 1 → 1 ≤ i' → i' + 1 ≤ j.numCalls - 1 →
    j.targetElapsedInSec (i + 1) - j.targetElapsedInSec i
      = j.targetElapsedInSec (i' + 1) - j.targetElapsedInSec i'
  inTime : 2 ≤ N0 → j.targetElapsedInSec (j.numCalls - 1) ≤ j.r.duration / 10 ^ 9

/-! ### The plan -/

/-- The number of workers for at least two calls. -/
theorem lowered_threads {T total : Int} (hT : 1 ≤ T) (htotal : 2 ≤ total) :
    ∃ k, (if total < 2 * T then total.tdiv 2 else T) = k ∧ 1 ≤ k ∧ k ≤ T ∧ 2 * k ≤ total := by
  refine ⟨_, rfl, ?_⟩
  rw [Int.tdiv_eq_ediv_of_nonneg (by omega)]
  split_ifs with h
  · omega
  · omega

theorem planCalls_sound {r : RunnerOptions} {total : Int} (hT : 1 ≤ r.numThreads)
    (hw : int64 (2 * r.numThreads) = 2 * r.numThreads)
    (htotal : 0 < r.exactly → total = r.exactly) (hlt : total < 2 ^ 63) :
    SoundPlan r total (planCalls r total) ∧ (r.exactly ≤ 0 → (planCalls r total).leftOver = 0) := by
  by_cases hsmall : total < 2
  · -- The minimum of two calls, by one worker.
    have hmax : max 2 total = 2 := max_eq_left (by omega)
    have hle : (2 : Int) * 1 ≤ max 2 total := by rw [hmax]; decide
    have hgt : max 2 total < (2 + 1) * 1 := by rw [hmax]; decide
    rw [planCalls_of_lt r hsmall, RunnerOptions.useExactly]
    by_cases hx : 0 < r.exactly
    · have hone : r.exactly = 1 := by have := htotal hx; omega
      have hrest : int64 (r.exactly - 2) = -1 := by rw [hone]; decide
      rw [if_pos (decide_eq_true hx), hrest]
      exact ⟨⟨le_rfl, hT, le_rfl, hle, hgt, iff_of_true rfl hone, fun _ => rfl,
        fun h => absurd hone h⟩, fun h => absurd hx (not_lt.mpr h)⟩
    · have hnot : r.exactly ≠ 1 := by omega
      rw [if_neg (by simpa using hx)]
      exact ⟨⟨le_rfl, hT, le_rfl, hle, hgt, iff_of_false (by decide) hnot, fun _ => rfl,
        fun _ => ⟨le_rfl, le_rfl⟩⟩, fun _ => rfl⟩
  · have hmax : max 2 total = total := max_eq_right (by omega)
    rw [planCalls_of_not_lt r hsmall, hw, RunnerOptions.useExactly]
    obtain ⟨k, hk, hk1, hkT, hk2⟩ := lowered_threads hT (by omega : 2 ≤ total)
    -- `n` calls for each of the `k` workers, and a rest of less than `k`.
    obtain ⟨n, hn⟩ : ∃ n, total.tdiv k = n := ⟨_, rfl⟩
    simp only [hk, hn]
    have hdiv : n = total / k := by rw [← hn, Int.tdiv_eq_ediv_of_nonneg (by omega)]
    have hle : n * k ≤ total := by rw [hdiv]; exact Int.ediv_mul_le total (by omega)
    have hgt : total < (n + 1) * k := by
      rw [hdiv]
      exact Int.lt_ediv_add_one_mul_self total (by omega)
    have htwo : 2 ≤ n := by rw [hdiv]; exact (Int.le_ediv_iff_mul_le (by omega)).mpr hk2
    have hlow : 0 ≤ total - n * k := by omega
    have hhigh : total - n * k ≤ k - 1 := by
      rw [show (n + 1) * k = n * k + k by ring] at hgt
      omega
    have hnot : r.exactly ≠ 1 := fun hone => by
      omega
    by_cases hx : 0 < r.exactly
    · have hrest : int64 (r.exactly - int64 (n * k)) = total - n * k := by
        rw [int64_of_range (x := n * k) (by omega) (by omega), ← htotal hx,
          int64_of_range (by omega) (by omega)]
      rw [if_pos (decide_eq_true hx), hrest]
      exact ⟨⟨hk1, hkT, htwo, hmax.symm ▸ hle, hmax.symm ▸ hgt,
        iff_of_false (fun h : total - n * k = -1 => by omega) hnot, fun h => absurd h hnot,
        fun _ => ⟨hlow, hhigh⟩⟩, fun h => absurd hx (not_lt.mpr h)⟩
    · rw [if_neg (by simpa using hx)]
      exact ⟨⟨hk1, hkT, htwo, hmax.symm ▸ hle, hmax.symm ▸ hgt,
        iff_of_false (show (0 : Int) ≠ -1 by decide) hnot, fun h => absurd h hnot,
        fun _ => ⟨le_rfl, sub_nonneg.mpr hk1⟩⟩, fun _ => rfl⟩

section
variable {r : RunnerOptions}

theorem plan_eq_planCalls (hq : 0 < r.qps) (hmode : 1 ≤ r.exactly ∨ r.exactly ≤ 0 ∧ 0 < r.duration)
    (hexact : ExactArithmetic r) : plan r = planCalls r (requested r) := by
  have huse : r.useQPS = true := decide_eq_true hq
  unfold plan requested
  rw [huse, if_pos rfl]
  rcases hmode with hx | ⟨hx, hd⟩
  · have hx' : r.useExactly = true := decide_eq_true (by omega)
    rw [hx', Bool.or_true, if_pos rfl, if_pos rfl, if_pos (by omega)]
  · have hx' : r.useExactly = false := decide_eq_false (by omega)
    have hd' : r.hasDuration = true := decide_eq_true hd
    rw [hx', hd', Bool.or_false, if_pos rfl, if_neg Bool.false_ne_true, if_neg (by omega),
      RunnerOptions.callsInDuration, Stats.truncate_eq_floor, hexact.calls hx]
    positivity

theorem requested_lt (hexact : ExactArithmetic r) : requested r < 2 ^ 63 := by
  unfold requested
  split_ifs with hx
  · exact r.exactly_lt
  · rw [← hexact.calls (by omega)]
    exact int64_lt _

/-- A plan without a rest asks every worker for the same number of calls. -/
theorem budget_of_noRest {p : Plan} (hrest : p.leftOver = 0) (hlo : 0 ≤ p.numCalls)
    (hhi : p.numCalls < 2 ^ 63) : ∀ b ∈ p.budgets, b = p.numCalls := by
  intro b hb
  unfold Plan.budgets at hb
  rw [hrest, add_zero, int64_of_range (by omega) hhi] at hb
  split_ifs at hb
  · exact List.mem_singleton.mp hb
  · obtain ⟨t, _, rfl⟩ := List.mem_map.mp hb
    simp

/-! ### The targets -/

/-- The targets are the multiples of one interval. -/
theorem target_eq {j : Job} (hd : j.r.hasDuration = true) (hn : j.numCalls ≠ 1) (i : Int) :
    j.targetElapsedInSec i = i * (j.numCalls / (j.numCalls - 1) / j.perThreadQPS) := by
  have hne : (j.numCalls : Rat) - 1 ≠ 0 := by
    rw [sub_ne_zero]
    exact_mod_cast hn
  rw [Job.targetElapsedInSec, hd, if_pos rfl]
  push_cast
  field_simp
  ring

theorem paced_of_plan (hq : 0 < r.qps) (hd : 0 < r.duration) (hx : r.exactly ≤ 0) {p : Plan}
    (hp : SoundPlan r (requested r) p) (start : Int) :
    Paced ⟨r, p.numThreads, p.numCalls, start⟩ (requested r) := by
  have hthreads : (0 : Rat) < p.numThreads := by exact_mod_cast hp.one_le_threads
  have hcalls : (2 : Rat) ≤ p.numCalls := by exact_mod_cast hp.two_le_calls
  have hduration : r.hasDuration = true := decide_eq_true hd
  have hne : p.numCalls ≠ 1 := by have := hp.two_le_calls; omega
  have hrate : 0 < r.qps / p.numThreads := div_pos hq hthreads
  have hgap : 0 < (p.numCalls : Rat) / (p.numCalls - 1) / (r.qps / p.numThreads) :=
    div_pos (div_pos (by linarith) (by linarith)) hrate
  have htarget : ∀ i : Int, Job.targetElapsedInSec ⟨r, p.numThreads, p.numCalls, start⟩ i
      = i * ((p.numCalls : Rat) / (p.numCalls - 1) / (r.qps / p.numThreads)) :=
    fun i => target_eq hduration hne i
  refine ⟨fun i _ _ => ?_, fun i i' _ _ _ _ => ?_, fun htwo => ?_⟩
  · rw [htarget, htarget]
    push_cast
    linarith
  · rw [htarget, htarget, htarget, htarget]
    push_cast
    ring
  · -- The last target is the time for the calls of all workers, of which there are not too many.
    have hlast : Job.targetElapsedInSec ⟨r, p.numThreads, p.numCalls, start⟩ (p.numCalls - 1)
        = p.numCalls * p.numThreads / r.qps := by
      have hminus : (p.numCalls : Rat) - 1 ≠ 0 := by linarith
      rw [htarget]
      push_cast
      field_simp
    have hfloor : requested r = ⌊r.qps * (r.duration / 10 ^ 9)⌋ := if_neg (by omega)
    have htotal : p.numCalls * p.numThreads ≤ requested r := by
      have := hp.total_le
      rwa [max_eq_right htwo] at this
    have hcast : (p.numCalls : Rat) * p.numThreads ≤ r.qps * (r.duration / 10 ^ 9) := by
      refine le_trans ?_ (Int.floor_le _)
      rw [← hfloor]
      exact_mod_cast htotal
    rw [hlast, div_le_iff₀ hq, mul_comm _ r.qps]
    exact hcast

end

/-- Five calls for each second by two workers, for a second. -/
def fivePerSecond : RunnerOptions := ⟨5, 10 ^ 9, 2, 1 / 1000, 0, two_lt_int64, zero_lt_int64⟩

end IstioVendor.Periodic
