import Mathlib.Tactic.FieldSimp
import IstioVendor.Periodic.Periodic
import IstioVendor.Proofs.Stats.Placement

/-!
# `IstioVendor.Proofs.Periodic.Worker`: what one worker does, in every mode

`runOne` has five exits from its loop, and two records that can end the process. `call_case` says
once what a pass does, as one case for each way through the source: it leaves for lack of time
before the call, or it makes the call, and then its effects are the changes of the two records.

From this come the facts that hold in all modes, for every clock and every stop: there is an entry
in `funcTimes` for each call and at most one in `sleepTimes` (`traceFrom_counts`), and the first
pass makes a call unless the worker runs at maximal speed against the clock (`runs_pos`).

A worker that looks at its budget (`Budgeted`) always ends (`exists_leaves`). The invariant is
`Pending`: at the top of the loop the counter is the number of the calls, and one more is due. If it
returns without a stop, it has made all of its calls, or it has left for lack of time
(`returned_calls`).

It returns exactly when all durations that it records have a bucket (`returned_iff`). The two
durations without one are those on the last boundary of the histograms (`Effect.Recordable`).
-/

set_option autoImplicit false

namespace IstioVendor.Periodic

open Lib

/-- The calls among the effects. -/
def runs (effects : List Effect) : Nat := effects.countP Effect.isRun

/-- The entries of `funcTimes` that the effects add. -/
def funcTimes (effects : List Effect) : List Int := effects.filterMap Effect.funcTime?

/-- The entries of `sleepTimes` that the effects add. -/
def sleepTimes (effects : List Effect) : List Int := effects.filterMap Effect.sleepTime?

section
variable (es es' : List Effect)

@[simp] theorem runs_append : runs (es ++ es') = runs es + runs es' := List.countP_append

@[simp] theorem funcTimes_append : funcTimes (es ++ es') = funcTimes es ++ funcTimes es' :=
  List.filterMap_append

@[simp] theorem sleepTimes_append : sleepTimes (es ++ es') = sleepTimes es ++ sleepTimes es' :=
  List.filterMap_append

end

/-- The variables of the worker at its end, whichever way it ends. -/
def Ended.state : Ended → Working
  | .returned st => st
  | .exited st => st

/-- The variables of the worker where its pass gets to. -/
def Called.state : Called → Working
  | .selects st => st
  | .leaves st => st
  | .exits st => st

/-! ### What can be recorded -/

/-- The effect records no value that lies exactly on the last boundary of its histogram. For
`funcTimes` the boundary is at `100000` times the resolution, with the margin of `Record`. For
`sleepTimes`, which starts at minus one millisecond, it is at 99.9990001 seconds. -/
def Effect.Recordable (r : RunnerOptions) : Effect → Prop
  | .funcTime took => seconds took ≠ (100000 + 1 / 10000) * r.resolution
  | .sleepTime sleep => sleep ≠ 99999000100
  | .run | .divide _ => True

/-- `funcTimes.Record` comes back for the recordable durations. -/
theorem recordsFuncTime_iff {j : Job} (hres : j.r.resolution ≠ 0) (took : Int) :
    j.recordsFuncTime took = true ↔ (Effect.funcTime took).Recordable j.r := by
  have hscaled : Stats.scaledVal 0 j.r.resolution (seconds took) = 100000
      ↔ seconds took = (100000 + 1 / 10000) * j.r.resolution := by
    rw [Stats.scaledVal, sub_zero, sub_eq_iff_eq_add, div_eq_iff hres]
  rw [Job.recordsFuncTime, Stats.newHistogram_records_iff, hscaled.ne]
  exact ⟨fun h => h.2, fun h => ⟨hres, h⟩⟩

/-- `sleepTimes.Record` comes back for the recordable sleeps. -/
theorem recordsSleepTime_iff {r : RunnerOptions} (sleep : Int) :
    Job.recordsSleepTime sleep = true ↔ (Effect.sleepTime sleep).Recordable r := by
  have hmilli : (1 / 1000 : Rat) ≠ 0 := by norm_num
  have hscaled : Stats.scaledVal (-1 / 1000) (1 / 1000) (seconds sleep) = 100000
      ↔ sleep = 99999000100 := by
    unfold Stats.scaledVal seconds
    rw [sub_eq_iff_eq_add, div_eq_iff hmilli, ← Rat.intCast_inj (a := sleep)]
    push_cast
    constructor <;> intro h <;> linarith
  rw [Job.recordsSleepTime, Stats.newHistogram_records_iff, hscaled.ne]
  exact ⟨fun h => h.2, fun h => ⟨hmilli, h⟩⟩

/-! ### One pass -/

namespace Job

/-- The time is up before the call, and the mode allows to leave. -/
def LeavesForTime (j : Job) (tick : Tick) (st : Working) : Prop :=
  j.r.useExactly = false ∧ j.r.hasDuration = true ∧ j.start + j.r.duration < tick.fStart ∧
    (j.useQPS = true → 2 ≤ st.i ∧ st.i ≠ j.numCalls - 1)

/-- The modes in which the loop compares its counter with the budget `numCalls`. -/
def Budgeted (j : Job) : Prop :=
  j.r.useExactly = true ∨ j.useQPS = true ∧ j.r.hasDuration = true

/-- The sleep that a pass records behind its call. -/
def nextSleep (j : Job) (tick : Tick) (st : Working) : Int :=
  int64 (j.targetElapsedDuration (int64 (st.i + 1)) - tick.elapsed)

/-- The division of the pacing, which is made for a duration only. -/
def divides (j : Job) : List Effect :=
  if j.r.hasDuration then [.divide (j.numCalls - 1)] else []

/-- What a pass does up to its `select`, and with which effects. Each constructor is one way through
the body of the loop, with the conditions that lead there. -/
inductive CallCase (j : Job) (tick : Tick) (st : Working) : Called → List Effect → Prop where
  | late (time : j.LeavesForTime tick st) : CallCase j tick st (.leaves st) []
  | callExits (time : ¬ j.LeavesForTime tick st) (bad : j.recordsFuncTime tick.took = false) :
      CallCase j tick st (.exits ⟨st.i, st.took ++ [tick.took], st.slept⟩)
        [.run, .funcTime tick.took]
  | last (time : ¬ j.LeavesForTime tick st) (good : j.recordsFuncTime tick.took = true)
      (budget : j.Budgeted) (last : j.numCalls ≤ int64 (st.i + 1)) :
      CallCase j tick st (.leaves ⟨int64 (st.i + 1), st.took ++ [tick.took], st.slept⟩)
        [.run, .funcTime tick.took]
  | maxSpeed (time : ¬ j.LeavesForTime tick st) (good : j.recordsFuncTime tick.took = true)
      (more : j.Budgeted → int64 (st.i + 1) < j.numCalls) (speed : j.useQPS = false) :
      CallCase j tick st (.selects ⟨int64 (st.i + 1), st.took ++ [tick.took], st.slept⟩)
        [.run, .funcTime tick.took]
  | sleepExits (time : ¬ j.LeavesForTime tick st) (good : j.recordsFuncTime tick.took = true)
      (more : j.Budgeted → int64 (st.i + 1) < j.numCalls) (rate : j.useQPS = true)
      (bad : recordsSleepTime (j.nextSleep tick st) = false) :
      CallCase j tick st
        (.exits ⟨int64 (st.i + 1), st.took ++ [tick.took], st.slept ++ [j.nextSleep tick st]⟩)
        ([.run, .funcTime tick.took] ++ (j.divides ++ [.sleepTime (j.nextSleep tick st)]))
  | sleeps (time : ¬ j.LeavesForTime tick st) (good : j.recordsFuncTime tick.took = true)
      (more : j.Budgeted → int64 (st.i + 1) < j.numCalls) (rate : j.useQPS = true)
      (well : recordsSleepTime (j.nextSleep tick st) = true) :
      CallCase j tick st
        (.selects ⟨int64 (st.i + 1), st.took ++ [tick.took], st.slept ++ [j.nextSleep tick st]⟩)
        ([.run, .funcTime tick.took] ++ (j.divides ++ [.sleepTime (j.nextSleep tick st)]))

end Job

variable {passes : Nat} {r st : Working}

section
variable {j : Job} {world : Nat → Tick}

/-- The test at the top of the loop decides `LeavesForTime`. -/
theorem leavesForTime_iff {tick : Tick} :
    (!j.r.useExactly && j.r.hasDuration && decide (j.start + j.r.duration < tick.fStart)
      && (!j.useQPS || decide (2 ≤ st.i ∧ st.i ≠ j.numCalls - 1))) = true ↔
    j.LeavesForTime tick st := by
  unfold Job.LeavesForTime
  cases j.r.useExactly <;> cases j.r.hasDuration <;> cases j.useQPS <;> simp

/-- The inversion of a pass. Every fact about a pass below is a case analysis of this one, so that
the body of the loop is unfolded only here. -/
theorem call_case (tick : Tick) (st : Working) :
    j.CallCase tick st (j.call tick st) (j.effects tick st) := by
  by_cases htime : j.LeavesForTime tick st
  · have hcond := leavesForTime_iff.mpr htime
    simp only [Job.call, Job.effects, hcond, if_true]
    exact .late htime
  have hcond := Bool.eq_false_iff.mpr (mt leavesForTime_iff.mp htime)
  simp only [Job.call, Job.effects, hcond, Bool.false_eq_true, if_false]
  cases hgood : j.recordsFuncTime tick.took with
  | false => exact .callExits htime hgood
  | true =>
    simp only [Bool.not_true, Bool.false_eq_true, if_false]
    -- At either speed the loop is left here with the last call of the budget.
    cases hq : j.useQPS with
    | false =>
      simp only [Bool.false_eq_true, if_false, List.append_nil]
      split_ifs with hlast
      · rw [Bool.and_eq_true, decide_eq_true_eq] at hlast
        exact .last htime hgood (.inl hlast.1) hlast.2
      · refine .maxSpeed htime hgood (fun hbudget => ?_) hq
        rcases hbudget with hx | ⟨hrate, _⟩
        · simpa [hx] using hlast
        · exact absurd hrate (Bool.eq_false_iff.mp hq)
    | true =>
      by_cases hlast : ((j.r.useExactly || j.r.hasDuration)
          && decide (j.numCalls ≤ int64 (st.i + 1))) = true
      · simp only [hlast, if_true, List.append_nil]
        rw [Bool.and_eq_true, Bool.or_eq_true, decide_eq_true_eq] at hlast
        exact .last htime hgood (hlast.1.imp_right fun hd => ⟨hq, hd⟩) hlast.2
      · have hmore : j.Budgeted → int64 (st.i + 1) < j.numCalls := by
          rintro (hx | ⟨_, hd⟩)
          · simpa [hx] using hlast
          · simpa [hd] using hlast
        simp only [hlast]
        cases hsleep : Job.recordsSleepTime (j.nextSleep tick st) with
        | false =>
          rw [show Job.recordsSleepTime (int64 (j.targetElapsedDuration (int64 (st.i + 1))
            - tick.elapsed)) = false from hsleep]
          exact .sleepExits htime hgood hmore hq hsleep
        | true =>
          rw [show Job.recordsSleepTime (int64 (j.targetElapsedDuration (int64 (st.i + 1))
            - tick.elapsed)) = true from hsleep]
          exact .sleeps htime hgood hmore hq hsleep

/-- The pacing adds no calls and no entries. -/
@[simp] theorem records_divides :
    runs j.divides = 0 ∧ funcTimes j.divides = [] ∧ sleepTimes j.divides = [] := by
  unfold Job.divides
  split_ifs <;> exact ⟨rfl, rfl, rfl⟩

namespace Job.CallCase

variable {tick : Tick} {st : Working} {called : Called} {effects : List Effect}

section
variable (h : j.CallCase tick st called effects)
include h

/-- A pass ends the process exactly when it records a value that has no bucket. -/
theorem exits_iff (hres : j.r.resolution ≠ 0) :
    (∃ st', called = .exits st') ↔ ∃ e ∈ effects, ¬ e.Recordable j.r := by
  have htook := recordsFuncTime_iff hres tick.took
  have hslept := recordsSleepTime_iff (r := j.r) (j.nextSleep tick st)
  have hrun : Effect.run.Recordable j.r := trivial
  cases h with
  | late => simp
  | callExits time bad => simp [← htook, bad, hrun]
  | last time good => simp [← htook, good, hrun]
  | maxSpeed time good => simp [← htook, good, hrun]
  | sleepExits time good more rate bad => simp [← hslept, bad]
  | sleeps time good more rate well =>
    have hdivides : ∀ e ∈ j.divides, e.Recordable j.r := by
      intro e he
      unfold Job.divides at he
      split_ifs at he
      · obtain rfl := List.mem_singleton.mp he
        trivial
      · exact absurd he List.not_mem_nil
    simp only [reduceCtorEq, exists_false, false_iff, not_exists, not_and, not_not,
      List.mem_append, List.mem_cons, List.not_mem_nil, or_false]
    rintro e ((rfl | rfl) | he | rfl)
    · exact hrun
    · exact htook.mp good
    · exact hdivides e he
    · exact hslept.mp well

/-- What the effects of a pass record is what is added to the two records. -/
theorem records :
    called.state.took = st.took ++ funcTimes effects ∧
      called.state.slept = st.slept ++ sleepTimes effects := by
  obtain ⟨-, hfunc, hsleep⟩ := records_divides (j := j)
  cases h with
  | late => exact ⟨(List.append_nil _).symm, (List.append_nil _).symm⟩
  | callExits => exact ⟨rfl, (List.append_nil _).symm⟩
  | last => exact ⟨rfl, (List.append_nil _).symm⟩
  | maxSpeed => exact ⟨rfl, (List.append_nil _).symm⟩
  | sleepExits =>
    rw [funcTimes_append, funcTimes_append, sleepTimes_append, sleepTimes_append, hfunc, hsleep]
    exact ⟨rfl, rfl⟩
  | sleeps =>
    rw [funcTimes_append, funcTimes_append, sleepTimes_append, sleepTimes_append, hfunc, hsleep]
    exact ⟨rfl, rfl⟩

/-- A pass that does not leave for lack of time makes a call. -/
theorem one_le_runs (hstays : ¬ j.LeavesForTime tick st) : 1 ≤ runs effects := by
  cases h with
  | late time => exact absurd time hstays
  | callExits => exact le_rfl
  | last => exact le_rfl
  | maxSpeed => exact le_rfl
  | sleepExits =>
    rw [runs_append]
    exact Nat.le_add_right 1 _
  | sleeps =>
    rw [runs_append]
    exact Nat.le_add_right 1 _

/-- One call at most, with one entry in `funcTimes` and at most one in `sleepTimes`. -/
theorem counts :
    runs effects = (funcTimes effects).length ∧ (sleepTimes effects).length ≤ runs effects := by
  obtain ⟨hruns, hfunc, hsleep⟩ := records_divides (j := j)
  cases h with
  | late => exact ⟨rfl, le_rfl⟩
  | callExits => exact ⟨rfl, Nat.zero_le 1⟩
  | last => exact ⟨rfl, Nat.zero_le 1⟩
  | maxSpeed => exact ⟨rfl, Nat.zero_le 1⟩
  | sleepExits =>
    rw [runs_append, runs_append, funcTimes_append, funcTimes_append, sleepTimes_append,
      sleepTimes_append, hruns, hfunc, hsleep]
    exact ⟨rfl, le_rfl⟩
  | sleeps =>
    rw [runs_append, runs_append, funcTimes_append, funcTimes_append, sleepTimes_append,
      sleepTimes_append, hruns, hfunc, hsleep]
    exact ⟨rfl, le_rfl⟩

end

end Job.CallCase

section
variable {st st' : Working}

/-- A record that ends the process ends the loop. -/
theorem pass_of_exits (h : j.call (world st.took.length) st = .exits st') :
    j.pass world st = .leave (.exited st') := by
  simp only [Job.pass, h]

/-- A `break` before the `select`. -/
theorem pass_of_leaves (h : j.call (world st.took.length) st = .leaves st') :
    j.pass world st = .leave (.returned st') := by
  simp only [Job.pass, h]

/-- The `select` leaves the loop with a stop, and goes round without one. -/
theorem pass_of_selects (h : j.call (world st.took.length) st = .selects st') :
    j.pass world st
      = if (world st.took.length).stop then .leave (.returned st') else .again st' := by
  simp only [Job.pass, h]

end

/-- The state in which a pass goes round or leaves the loop. -/
def passState : Pass Working Ended → Working
  | .again st => st
  | .leave ended => ended.state

/-- The `select` changes no variable. -/
theorem passState_pass (st : Working) :
    passState (j.pass world st) = (j.call (world st.took.length) st).state := by
  cases hcall : j.call (world st.took.length) st with
  | exits st' => rw [pass_of_exits hcall]; rfl
  | leaves st' => rw [pass_of_leaves hcall]; rfl
  | selects st' =>
    rw [pass_of_selects hcall]
    split_ifs <;> rfl

/-- The records after a pass, whichever way it goes. -/
theorem pass_records (j : Job) (world : Nat → Tick) (st : Working) :
    (passState (j.pass world st)).took
        = st.took ++ funcTimes (j.effects (world st.took.length) st) ∧
      (passState (j.pass world st)).slept
        = st.slept ++ sleepTimes (j.effects (world st.took.length) st) := by
  rw [passState_pass]
  exact (call_case _ st).records

/-! ### Whole runs -/

/-- The run lemma for the counts. -/
theorem traceFrom_counts (passes : Nat) (st : Working) :
    runs (j.traceFrom world passes st) = (funcTimes (j.traceFrom world passes st)).length ∧
      (sleepTimes (j.traceFrom world passes st)).length ≤ runs (j.traceFrom world passes st) := by
  induction passes generalizing st with
  | zero => exact ⟨rfl, le_rfl⟩
  | succ passes ih =>
    obtain ⟨hruns, hsleeps⟩ := (call_case (j := j) (world st.took.length) st).counts
    unfold Job.traceFrom
    cases j.pass world st with
    | leave ended =>
      rw [List.append_nil]
      exact ⟨hruns, hsleeps⟩
    | again st' =>
      obtain ⟨hruns', hsleeps'⟩ := ih st'
      rw [runs_append, funcTimes_append, sleepTimes_append, List.length_append, List.length_append]
      exact ⟨congrArg₂ (· + ·) hruns hruns', Nat.add_le_add hsleeps hsleeps'⟩

/-- The records of a worker that has come to an end are those of its effects. Induction on the
passes, with the records of the passes before in `st`. -/
theorem records_of_run {ended : Ended} (hrun : Loop.run (j.pass world) passes st = some ended) :
    ended.state.took = st.took ++ funcTimes (j.traceFrom world passes st) ∧
      ended.state.slept = st.slept ++ sleepTimes (j.traceFrom world passes st) := by
  induction passes generalizing st with
  | zero => cases hrun
  | succ passes ih =>
    have hpass := pass_records j world st
    unfold Job.traceFrom
    unfold Loop.run at hrun
    cases hp : j.pass world st with
    | leave ended' =>
      rw [hp] at hrun hpass
      cases hrun
      rw [List.append_nil]
      exact hpass
    | again st' =>
      rw [hp] at hrun hpass
      obtain ⟨htook, hslept⟩ := hpass
      obtain ⟨htook', hslept'⟩ := ih hrun
      dsimp only [passState] at htook hslept ⊢
      rw [htook', hslept', htook, hslept, funcTimes_append, sleepTimes_append,
        List.append_assoc, List.append_assoc]
      exact ⟨rfl, rfl⟩

/-- The first pass calls, except at maximal speed for a duration. -/
theorem runs_pos (hpasses : 0 < passes)
    (hmode : j.useQPS = true ∨ j.r.hasDuration = false ∨ j.r.useExactly = true) :
    1 ≤ runs (j.trace world passes) := by
  have hstays : ¬ j.LeavesForTime (world 0) ⟨0, [], []⟩ := by
    rintro ⟨hexactly, hduration, _, hqps⟩
    rcases hmode with h | h | h
    · exact absurd (hqps h).1 (by decide)
    · exact absurd hduration (Bool.eq_false_iff.mp h)
    · exact absurd h (Bool.eq_false_iff.mp hexactly)
  have hfirst : 1 ≤ runs (j.effects (world 0) ⟨0, [], []⟩) :=
    (call_case (world 0) ⟨0, [], []⟩).one_le_runs hstays
  obtain ⟨k, rfl⟩ := Nat.exists_eq_add_of_lt hpasses
  rw [Job.trace, Nat.zero_add, Job.traceFrom, runs_append]
  exact hfirst.trans (Nat.le_add_right _ _)

/-- An effect of the first passes is one of a single pass, in a state that has every property that
the passes keep. -/
theorem exists_of_mem_traceFrom {I : Working → Prop}
    (again : ∀ s s', I s → j.pass world s = .again s' → I s') (hst : I st) {e : Effect}
    (he : e ∈ j.traceFrom world passes st) :
    ∃ st', I st' ∧ e ∈ j.effects (world st'.took.length) st' := by
  induction passes generalizing st with
  | zero => exact absurd he List.not_mem_nil
  | succ passes ih =>
    rcases List.mem_append.mp he with he | he
    · exact ⟨st, hst, he⟩
    · cases hp : j.pass world st with
      | leave ended =>
        rw [hp] at he
        exact absurd he List.not_mem_nil
      | again st' =>
        rw [hp] at he
        exact ih (again st st' hst hp) he

/-! ### Returns and exits -/

section
variable (hres : j.r.resolution ≠ 0)

include hres

/-- A pass that is not the end of the process records only what has a bucket. -/
theorem recordable_of_pass (h : ∀ st', j.pass world st ≠ .leave (.exited st')) :
    ∀ e ∈ j.effects (world st.took.length) st, e.Recordable j.r := by
  intro e he
  by_contra hbad
  obtain ⟨st', hcall⟩ := ((call_case _ st).exits_iff hres).mpr ⟨e, he, hbad⟩
  exact h st' (pass_of_exits hcall)

/-- All values that a worker records have a bucket when it returns. Induction on the passes up to
the end. The passes of the trace are independent of them. -/
theorem recordable_of_returned (h : Loop.Leaves (j.pass world) st (.returned r)) (passes : Nat) :
    ∀ e ∈ j.traceFrom world passes st, e.Recordable j.r := by
  generalize hended : Ended.returned r = ended at h
  induction h generalizing passes with
  | @here st ended hp =>
    subst hended
    have hall : ∀ e ∈ j.effects (world st.took.length) st, e.Recordable j.r :=
      recordable_of_pass hres (by simp [hp])
    cases passes with
    | zero => exact fun e he => absurd he List.not_mem_nil
    | succ passes =>
      unfold Job.traceFrom
      simpa [hp] using hall
  | @later st st' ended hp _ ih =>
    have hall : ∀ e ∈ j.effects (world st.took.length) st, e.Recordable j.r :=
      recordable_of_pass hres (by simp [hp])
    cases passes with
    | zero => exact fun e he => absurd he List.not_mem_nil
    | succ passes =>
      unfold Job.traceFrom
      simp only [hp]
      exact List.forall_mem_append.mpr ⟨hall, ih passes hended⟩

/-- A worker that ends the process has recorded a value without a bucket. -/
theorem not_recordable_of_exited (h : Loop.Leaves (j.pass world) st (.exited r)) :
    ∃ passes, ∃ e ∈ j.traceFrom world passes st, ¬ e.Recordable j.r := by
  generalize hended : Ended.exited r = ended at h
  induction h with
  | @here st ended hp =>
    subst hended
    -- The last pass has the effect, and one pass shows it.
    have hexits : ∃ st', j.call (world st.took.length) st = .exits st' := by
      cases hcall : j.call (world st.took.length) st with
      | exits st' => exact ⟨st', rfl⟩
      | leaves st' => exact nomatch (pass_of_leaves hcall).symm.trans hp
      | selects st' =>
        rw [pass_of_selects hcall] at hp
        split_ifs at hp
        cases hp
    obtain ⟨e, he, hbad⟩ := ((call_case _ st).exits_iff hres).mp hexits
    exact ⟨1, e, List.mem_append_left _ he, hbad⟩
  | @later st st' ended hp _ ih =>
    obtain ⟨passes, e, he, hbad⟩ := ih hended
    refine ⟨passes + 1, e, ?_, hbad⟩
    unfold Job.traceFrom
    simp only [hp]
    exact List.mem_append_right _ he

end

/-! ### Within the budget -/

/-- The loop is at its top: the counter is the number of calls, and one more is due. -/
structure Pending (j : Job) (st : Working) : Prop where
  count : st.i = st.took.length
  pending : st.took.length < max 1 j.numCalls.toNat

/-- A call is due at the start, also when the budget is zero: the loop looks at the budget only
behind a call. -/
theorem pending_start : Pending j ⟨0, [], []⟩ := ⟨rfl, by simp⟩

/-- The counter after the next call, which does not wrap. -/
theorem Pending.next (h : Pending j st) (hlt : j.numCalls < 2 ^ 63) :
    int64 (st.i + 1) = st.took.length + 1 := by
  have := h.pending
  rw [h.count, int64_of_range (by omega) (by omega)]

/-- What a pass of a worker with a budget can do: leave for lack of time, leave with the last call,
be stopped at the `select`, go round with a call still due, or end the process. -/
inductive Passed (j : Job) (world : Nat → Tick) (st : Working) : Pass Working Ended → Prop where
  | late (time : j.LeavesForTime (world st.took.length) st) :
      Passed j world st (.leave (.returned st))
  | last {st' : Working} (made : st'.took.length = max 1 j.numCalls.toNat) :
      Passed j world st (.leave (.returned st'))
  | stopped {st' : Working} (stop : (world st.took.length).stop = true) :
      Passed j world st (.leave (.returned st'))
  | again {st' : Working} (next : Pending j st')
      (made : st'.took.length = st.took.length + 1) : Passed j world st (.again st')
  | exits {st' : Working} : Passed j world st (.leave (.exited st'))

/-- The step lemma. The counter is exact, so that the comparison with the budget says whether
another call is due. -/
theorem passed_of_pending (hbudget : j.Budgeted) (hlt : j.numCalls < 2 ^ 63) (hp : Pending j st) :
    Passed j world st (j.pass world st) := by
  have hnext := hp.next hlt
  have hdue := hp.pending
  have hselects : ∀ st' : Working, j.call (world st.took.length) st = .selects st' →
      st'.i = int64 (st.i + 1) → st'.took.length = st.took.length + 1 →
      int64 (st.i + 1) < j.numCalls → Passed j world st (j.pass world st) := by
    intro st' hcall hi hlen hmore
    rw [pass_of_selects hcall]
    split_ifs with hstop
    · exact .stopped hstop
    · rw [hnext] at hi hmore
      exact .again ⟨by omega, by omega⟩ hlen
  generalize hcall : j.call (world st.took.length) st = called at hselects
  have hcase := call_case (j := j) (world st.took.length) st
  rw [hcall] at hcase
  generalize j.effects (world st.took.length) st = effects at hcase
  cases hcase with
  | late time =>
    rw [pass_of_leaves hcall]
    exact .late time
  | callExits =>
    rw [pass_of_exits hcall]
    exact .exits
  | last time good budget last =>
    rw [pass_of_leaves hcall]
    refine .last ?_
    rw [List.length_append, List.length_singleton]
    omega
  | maxSpeed time good more => exact hselects _ rfl rfl (by simp) (more hbudget)
  | sleepExits =>
    rw [pass_of_exits hcall]
    exact .exits
  | sleeps time good more => exact hselects _ rfl rfl (by simp) (more hbudget)

/-- A worker that goes on has made one more call, and another one is due. -/
theorem pending_of_again (hbudget : j.Budgeted) (hlt : j.numCalls < 2 ^ 63) {s s' : Working}
    (hs : Pending j s) (hagain : j.pass world s = .again s') :
    Pending j s' ∧ s'.took.length = s.took.length + 1 := by
  have hpassed : Passed j world s (j.pass world s) := passed_of_pending hbudget hlt hs
  rw [hagain] at hpassed
  cases hpassed with
  | again next made => exact ⟨next, made⟩

/-- A worker with a budget comes to an end, whatever the clock and the `select` do. Every pass that
goes round lowers the number of the calls that are due. -/
theorem exists_leaves (hbudget : j.Budgeted) (hlt : j.numCalls < 2 ^ 63) :
    ∃ ended, Loop.Leaves (j.pass world) ⟨0, [], []⟩ ended := by
  refine Loop.exists_leaves_of_lt (fun st => max 1 j.numCalls.toNat - st.took.length)
    (fun s s' (hs : Pending j s) hb => ?_) _ pending_start
  obtain ⟨hp', hlen⟩ := pending_of_again hbudget hlt hs hb
  have := hs.pending
  exact ⟨hp', by omega⟩

/-- A worker that returns without a stop has made its last call, or has left for lack of time with
a call still due. -/
theorem returned_calls (hbudget : j.Budgeted) (hlt : j.numCalls < 2 ^ 63)
    (hstop : ∀ k, (world k).stop = false)
    (h : Loop.Leaves (j.pass world) ⟨0, [], []⟩ (.returned r)) :
    r.took.length = max 1 j.numCalls.toNat ∨
      Pending j r ∧ j.LeavesForTime (world r.took.length) r := by
  refine h.inv (I := Pending j) (P := fun ended => ∀ r, ended = .returned r →
    r.took.length = max 1 j.numCalls.toNat ∨ Pending j r ∧ j.LeavesForTime (world r.took.length) r)
    (fun s s' hs hb => (pending_of_again hbudget hlt hs hb).1)
    (fun s ended hs hb r hr => ?_) pending_start r rfl
  subst hr
  have hpassed : Passed j world s (j.pass world s) := passed_of_pending hbudget hlt hs
  rw [hb] at hpassed
  cases hpassed with
  | late time => exact .inr ⟨hs, time⟩
  | last made => exact .inl made
  | stopped stop => exact absurd stop (Bool.eq_false_iff.mp (hstop _))

/-- A worker with a budget returns exactly when all durations that it records have a bucket. -/
theorem returned_iff (hres : j.r.resolution ≠ 0) (hbudget : j.Budgeted)
    (hlt : j.numCalls < 2 ^ 63) :
    (∃ r, Loop.Leaves (j.pass world) ⟨0, [], []⟩ (.returned r)) ↔
      ∀ passes, ∀ e ∈ j.trace world passes, e.Recordable j.r := by
  constructor
  · rintro ⟨r, hr⟩ passes
    exact recordable_of_returned hres hr passes
  · intro hall
    obtain ⟨ended, hended⟩ : ∃ ended, Loop.Leaves (j.pass world) ⟨0, [], []⟩ ended :=
      exists_leaves hbudget hlt
    cases ended with
    | returned r => exact ⟨r, hended⟩
    | exited r =>
      obtain ⟨passes, e, he, hbad⟩ := not_recordable_of_exited hres hended
      exact absurd (hall passes e he) hbad

/-! ### The pacing -/

/-- When a pass divides: at a rate, for a duration, and with another call to come. -/
theorem Job.CallCase.of_divide_mem {tick : Tick} {called : Called} {effects : List Effect}
    (h : j.CallCase tick st called effects) {n : Int} (hn : Effect.divide n ∈ effects) :
    j.Budgeted ∧ int64 (st.i + 1) < j.numCalls ∧ n = j.numCalls - 1 := by
  have hdivides : Effect.divide n ∈ j.divides → j.r.hasDuration = true ∧ n = j.numCalls - 1 := by
    intro h
    unfold Job.divides at h
    split_ifs at h with hd
    · exact ⟨hd, by simpa using h⟩
    · exact absurd h List.not_mem_nil
  cases h with
  | late => simp at hn
  | callExits => simp at hn
  | last => simp at hn
  | maxSpeed => simp at hn
  | sleepExits time good more rate =>
    obtain ⟨hd, rfl⟩ := hdivides (by simpa using hn)
    have hbudget : j.Budgeted := .inr ⟨rate, hd⟩
    exact ⟨hbudget, more hbudget, rfl⟩
  | sleeps time good more rate =>
    obtain ⟨hd, rfl⟩ := hdivides (by simpa using hn)
    have hbudget : j.Budgeted := .inr ⟨rate, hd⟩
    exact ⟨hbudget, more hbudget, rfl⟩

/-- The pacing never divides by zero: while another call is to come, there are at least two. -/
theorem divisor_ne_zero (hlt : j.numCalls < 2 ^ 63) {n : Int}
    (hn : Effect.divide n ∈ j.trace world passes) : n ≠ 0 := by
  -- The first look at the trace gives the mode, and the second one, in this mode, a pending call.
  obtain ⟨st, -, hmem⟩ := exists_of_mem_traceFrom (I := fun _ => True)
    (fun _ _ _ _ => trivial) trivial hn
  have hbudget : j.Budgeted := ((call_case _ st).of_divide_mem hmem).1
  obtain ⟨st', hp, hmem'⟩ := exists_of_mem_traceFrom (I := Pending j)
    (fun _ _ hs hb => (pending_of_again hbudget hlt hs hb).1) pending_start hn
  obtain ⟨-, hmore, rfl⟩ := (call_case _ st').of_divide_mem hmem'
  rw [hp.next hlt] at hmore
  omega

/-! ### At a rate, for a duration -/

/-- All calls, or at least two and not the last two when the clock was late before the next
one. -/
def TimedEnd (j : Job) (world : Nat → Tick) (calls : Nat) : Prop :=
  (calls : Int) = j.numCalls ∨
    2 ≤ (calls : Int) ∧ (calls : Int) ≤ j.numCalls - 2 ∧
      j.start + j.r.duration < (world calls).fStart

/-- At a rate and for a duration, a worker that returns without a stop ends in one of these ways. -/
theorem timedEnd_of_returned (hq : j.useQPS = true) (hduration : j.r.hasDuration = true)
    (hlt : j.numCalls < 2 ^ 63) (htwo : 2 ≤ j.numCalls) (hstop : ∀ k, (world k).stop = false)
    (h : Loop.Leaves (j.pass world) ⟨0, [], []⟩ (.returned r)) :
    TimedEnd j world r.took.length := by
  rcases returned_calls (.inr ⟨hq, hduration⟩) hlt hstop h with hall | ⟨hp, _, _, hlate, hnot⟩
  · exact .inl (by omega)
  · -- The exit for lack of time, which the last call is spared.
    obtain ⟨hge, hne⟩ := hnot hq
    have hpending := hp.pending
    rw [hp.count] at hge hne
    exact .inr ⟨hge, by omega, hlate⟩

end

/-- A worker with five calls in a second, on a clock that is late after the second call. -/
def lateJob : Job := ⟨⟨5, 10 ^ 9, 1, 1 / 1000, 0, one_lt_int64, zero_lt_int64⟩, 1, 5, 0⟩

def lateClock (k : Nat) : Tick :=
  ⟨if k < 2 then 250000000 * k else 2 * 10 ^ 9, 1000 * (k + 1), 250000000 * k + 5000, false⟩

/-- A worker with two calls in 100 seconds. -/
def slowJob : Job := ⟨⟨1 / 50, 100 * 10 ^ 9, 1, 1 / 1000, 0, one_lt_int64, zero_lt_int64⟩, 1, 2, 0⟩

/-- The first call ends 999900 nanoseconds after the start. -/
def slowClock (_ : Nat) : Tick := ⟨0, 999900, 999900, false⟩

end IstioVendor.Periodic
