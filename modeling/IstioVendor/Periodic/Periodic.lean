import IstioVendor.Lib.Loop
import IstioVendor.Stats.Stats

/-!
# `IstioVendor.Periodic.Periodic`: the runner of `periodic/periodic.go`

`Run` makes a plan (`plan`): the number of workers, the calls of each, and the calls that are
left over. Each worker is a loop (`runOne`) that calls its `Runnable`, records how long the
call took, and waits for the next call or for a stop. In the end the histograms of the workers
are collected in one.

A pass of the loop is two steps. `call` is the pass up to the `select`: the look at the clock,
the call, the records in the two histograms, and the tests that end the loop. The `select` then
leaves the loop or goes round. What the world does in one pass is a `Tick`: the readings of the
clock, and the branch that the `select` takes.

A `Record` ends the process when its histogram has no bucket for the value (`log.Fatalf` in
`lookUpIdx`). The worker is then in the middle of a pass, and the other workers end with it. So a
worker has two ways to end, `returned` and `exited`, and `runWorkers` and `run` give nothing when a
worker has exited.

`effects` lists what a pass does to the world, in order, and `trace` the effects of the first
passes: the calls, the records in the histograms, and the divisions of the pacing. The last effect
of a pass that ends the process is the record that does it.

Times are integers, in nanoseconds, and `float64` is exact. A worker's record of its calls and
sleeps is the list of the values that it gives to its two histograms.

Left out: the texts of the output and of the log, the percentiles, the runners array, and the
channels, which `IstioVendor.Periodic.Aborter` models.
-/

set_option autoImplicit false

namespace IstioVendor.Periodic

open Lib (int64 Pass)
open Stats (Histogram HistogramData newHistogram truncate)

/-! ### Options -/

/-- `RunnerOptions`, with the duration in nanoseconds. The two numbers are machine integers. -/
structure RunnerOptions where
  qps : Rat
  duration : Int
  numThreads : Int
  resolution : Rat
  exactly : Int
  numThreads_lt : numThreads < 2 ^ 63
  exactly_lt : exactly < 2 ^ 63

/-- `DefaultRunnerOptions`. -/
def defaultRunnerOptions : RunnerOptions where
  qps := 8
  duration := 5 * 10 ^ 9
  numThreads := 4
  resolution := 1 / 1000
  exactly := 0
  numThreads_lt := by decide
  exactly_lt := by decide

namespace RunnerOptions

/-- `Normalize`, without the channels. -/
def normalize (r : RunnerOptions) : RunnerOptions where
  qps := if r.qps = 0 then defaultRunnerOptions.qps else if r.qps < 0 then -1 else r.qps
  duration := if r.duration = 0 then defaultRunnerOptions.duration else r.duration
  numThreads :=
    let numThreads :=
      if r.numThreads = 0 then defaultRunnerOptions.numThreads else r.numThreads
    if numThreads < 1 then 1 else numThreads
  resolution := if r.resolution ≤ 0 then defaultRunnerOptions.resolution else r.resolution
  exactly := r.exactly
  numThreads_lt := by
    have := r.numThreads_lt
    simp only [defaultRunnerOptions]
    split_ifs <;> omega
  exactly_lt := r.exactly_lt

def useQPS (r : RunnerOptions) : Bool := decide (0 < r.qps)

def hasDuration (r : RunnerOptions) : Bool := decide (0 < r.duration)

def useExactly (r : RunnerOptions) : Bool := decide (0 < r.exactly)

end RunnerOptions

/-! ### The plan -/

/-- The variables of `Run` that decide about the calls. `numThreads` is the field of the
options, which `Run` may lower. -/
structure Plan where
  numThreads : Int
  numCalls : Int
  leftOver : Int

/-- The number of calls that fit into the duration, `int64(r.QPS * r.Duration.Seconds())`. -/
def RunnerOptions.callsInDuration (r : RunnerOptions) : Int :=
  int64 (truncate (r.qps * (r.duration / 10 ^ 9)))

/-- The plan for a number of calls in all, when the rate is given. -/
def planCalls (r : RunnerOptions) (total : Int) : Plan :=
  let numCalls := if total < 2 then 2 else total
  let wanted := if total < 2 then 1 else r.numThreads
  let numThreads := if numCalls < int64 (2 * wanted) then numCalls.tdiv 2 else wanted
  let perThread := numCalls.tdiv numThreads
  { numThreads := numThreads
    numCalls := perThread
    leftOver := if r.useExactly then int64 (r.exactly - int64 (perThread * numThreads)) else 0 }

/-- The planning part of `Run`. -/
def plan (r : RunnerOptions) : Plan :=
  if r.useQPS then
    if r.hasDuration || r.useExactly then
      planCalls r (if r.useExactly then r.exactly else r.callsInDuration)
    else ⟨r.numThreads, 0, 0⟩
  else if r.useExactly then
    ⟨r.numThreads, r.exactly.tdiv r.numThreads, r.exactly.tmod r.numThreads⟩
  else ⟨r.numThreads, 0, 0⟩

/-- The number of calls that `Run` asks of each worker. -/
def Plan.budgets (p : Plan) : List Int :=
  if p.numThreads ≤ 1 then [int64 (p.numCalls + p.leftOver)]
  else (List.range p.numThreads.toNat).map fun t =>
    -- The first thread gets to do the additional work.
    if 0 < p.leftOver ∧ t = 0 then int64 (p.numCalls + p.leftOver) else p.numCalls

/-! ### One worker -/

/-- What the world does in one pass: the time at the top, how long the call takes, the time
since the start of the run after it, and whether the `select` takes the stop branch. -/
structure Tick where
  fStart : Int
  took : Int
  elapsed : Int
  stop : Bool

/-- The variables of `runOne`: the counter, and the values recorded in its histograms. -/
structure Working where
  i : Int
  took : List Int
  slept : List Int
deriving DecidableEq

/-- Where a pass gets to on the way to its `select`: the `select` itself, a `break` before it, or
a `Record` that ends the process. -/
inductive Called where
  | selects (st : Working)
  | leaves (st : Working)
  | exits (st : Working)

/-- How a worker ends: `runOne` returns, or one of its records ends the process. -/
inductive Ended where
  | returned (st : Working)
  | exited (st : Working)
deriving DecidableEq

/-- The variables behind the loop, when `runOne` returns. -/
def Ended.returned? : Ended → Option Working
  | .returned st => some st
  | .exited _ => none

/-- `Seconds()`. -/
def seconds (d : Int) : Rat := d / 10 ^ 9

/-- The arguments of `runOne`, with the options. -/
structure Job where
  r : RunnerOptions
  numThreads : Int
  numCalls : Int
  start : Int

namespace Job

def perThreadQPS (j : Job) : Rat := j.r.qps / j.numThreads

def useQPS (j : Job) : Bool := decide (0 < j.perThreadQPS)

/-- The time until the next call should start, in nanoseconds after the start of the run. -/
def targetElapsedDuration (j : Job) (i : Int) : Int :=
  let targetElapsedInSec : Rat :=
    if j.r.hasDuration then ((i : Rat) + i / ((j.numCalls - 1 : Int) : Rat)) / j.perThreadQPS
    else i / j.perThreadQPS
  int64 (truncate (targetElapsedInSec * 10 ^ 9))

/-- Whether `funcTimes.Record` comes back. What a histogram can record depends on its offset and
its divider alone, so a new one stands for the one of the worker. -/
def recordsFuncTime (j : Job) (took : Int) : Bool :=
  ((newHistogram 0 j.r.resolution).bind fun h => h.recordOne (seconds took)).isSome

/-- Whether `sleepTimes.Record` comes back. -/
def recordsSleepTime (sleep : Int) : Bool :=
  ((newHistogram (-1 / 1000) (1 / 1000)).bind fun h => h.recordOne (seconds sleep)).isSome

/-- A pass up to its `select`. -/
def call (j : Job) (tick : Tick) (st : Working) : Called :=
  let timeUp := !j.r.useExactly && j.r.hasDuration
    && decide (j.start + j.r.duration < tick.fStart)
  -- In QPS mode at least two calls are made, and the last one.
  if timeUp && (!j.useQPS || decide (2 ≤ st.i ∧ st.i ≠ j.numCalls - 1)) then .leaves st
  else
    -- `Record` counts the value before it looks for the bucket.
    let st0 := { st with took := st.took ++ [tick.took] }
    if !j.recordsFuncTime tick.took then .exits st0
    else
      let st1 := { st0 with i := int64 (st0.i + 1) }
      if j.useQPS then
        if (j.r.useExactly || j.r.hasDuration) && decide (j.numCalls ≤ st1.i) then .leaves st1
        else
          let sleepDuration := int64 (j.targetElapsedDuration st1.i - tick.elapsed)
          let st2 := { st1 with slept := st1.slept ++ [sleepDuration] }
          if recordsSleepTime sleepDuration then .selects st2 else .exits st2
      else if j.r.useExactly && decide (j.numCalls ≤ st1.i) then .leaves st1
      else .selects st1

/-- One pass of the loop. The passes so far are counted by the calls. -/
def pass (j : Job) (world : Nat → Tick) (st : Working) : Pass Working Ended :=
  let tick := world st.took.length
  match j.call tick st with
  | .exits st' => .leave (.exited st')
  | .leaves st' => .leave (.returned st')
  | .selects st' => if tick.stop then .leave (.returned st') else .again st'

/-- `runOne`, for at most `passes` passes of its loop. -/
def runOne (j : Job) (world : Nat → Tick) (passes : Nat) : Option Ended :=
  Lib.Loop.run (j.pass world) passes ⟨0, [], []⟩

end Job

/-- What a pass does, in the order of the source. -/
inductive Effect where
  | run
  | funcTime (took : Int)
  /-- The pacing divides by `numCalls - 1`. -/
  | divide (divisor : Int)
  | sleepTime (sleep : Int)

/-- The value that is recorded in `funcTimes`. -/
def Effect.funcTime? : Effect → Option Int
  | .funcTime took => some took
  | _ => none

/-- The value that is recorded in `sleepTimes`. -/
def Effect.sleepTime? : Effect → Option Int
  | .sleepTime sleep => some sleep
  | _ => none

def Effect.isRun : Effect → Bool
  | .run => true
  | _ => false

namespace Job

/-- The effects of a pass, which are all before its `select`. Nothing follows a record that ends
the process. -/
def effects (j : Job) (tick : Tick) (st : Working) : List Effect :=
  let timeUp := !j.r.useExactly && j.r.hasDuration
    && decide (j.start + j.r.duration < tick.fStart)
  if timeUp && (!j.useQPS || decide (2 ≤ st.i ∧ st.i ≠ j.numCalls - 1)) then []
  else
    let i := int64 (st.i + 1)
    [.run, .funcTime tick.took] ++
      if !j.recordsFuncTime tick.took then []
      else if j.useQPS then
        if (j.r.useExactly || j.r.hasDuration) && decide (j.numCalls ≤ i) then []
        else
          (if j.r.hasDuration then [.divide (j.numCalls - 1)] else [])
            ++ [.sleepTime (int64 (j.targetElapsedDuration i - tick.elapsed))]
      else []

/-- The effects of the first passes of the loop, from a state at its top. -/
def traceFrom (j : Job) (world : Nat → Tick) : Nat → Working → List Effect
  | 0, _ => []
  | passes + 1, st =>
    j.effects (world st.took.length) st ++
      match j.pass world st with
      | .again st' => traceFrom j world passes st'
      | .leave _ => []

/-- The effects of the first passes of `runOne`. -/
def trace (j : Job) (world : Nat → Tick) (passes : Nat) : List Effect :=
  j.traceFrom world passes ⟨0, [], []⟩

end Job

/-! ### `Run` -/

/-- The workers of a run, with the world `world t` around the worker `t`. `none` when one of them
has not ended yet, or has ended the process. -/
def runWorkers (r : RunnerOptions) (start : Int) (world : Nat → Nat → Tick) (passes : Nat) :
    Option (List Working) :=
  (plan r).budgets.zipIdx.mapM fun b =>
    (Job.runOne ⟨r, (plan r).numThreads, b.1, start⟩ (world b.2) passes).bind Ended.returned?

/-- The histogram of the values of all workers. A single worker records in `h` itself, several
ones in clones of it that are transferred to it in the end. -/
def collect (numThreads : Int) (h : Histogram) (values : List (List Rat)) : Option Histogram :=
  if numThreads ≤ 1 then h.recordAll values.flatten
  else do
    let ws ← values.mapM fun vs => h.clone.bind fun w => w.recordAll vs
    let (h', _) ← h.transferAll ws
    some h'

/-- `RunnerResults`, with the number of the calls of each worker, and the percentage of the
sleeps that were behind, which is looked at in QPS mode. -/
structure RunnerResults where
  numThreads : Int
  calls : List Nat
  durationHistogram : HistogramData
  percentNegative : Option Rat

/-- `Run`. -/
def run (r : RunnerOptions) (start : Int) (world : Nat → Nat → Tick) (passes : Nat) :
    Option RunnerResults := do
  let workers ← runWorkers r start world passes
  let functionDuration ← newHistogram 0 r.resolution
  let functionDuration ← collect (plan r).numThreads functionDuration
    (workers.map fun w => w.took.map seconds)
  let sleepTime ← newHistogram (-1 / 1000) (1 / 1000)
  let sleepTime ← collect (plan r).numThreads sleepTime
    (workers.map fun w => w.slept.map seconds)
  some {
    numThreads := (plan r).numThreads
    calls := workers.map fun w => w.took.length
    durationHistogram := functionDuration.exportData
    percentNegative :=
      if r.useQPS then some (100 * (sleepTime.hdata ⟨0, by decide⟩).toInt / sleepTime.count)
      else none }

end IstioVendor.Periodic
