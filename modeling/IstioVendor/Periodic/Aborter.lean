import IstioVendor.Periodic.Periodic

/-!
# `IstioVendor.Periodic.Aborter`: a run and the calls of `Abort` around it

A run has an `Aborter`, which `Normalize` makes. Its channel is closed by the first `Abort`, and
the field `StopChan` is `nil` from then on. `Run` takes a copy of the field when it starts, and
the workers receive from the copy in their `select`.

`RunState.step` is the interleaving of the calls of `Abort` (a stop request of the UI, a worker
that has seen the `AbortOn` code, the watcher of the signals), of `Run`, and of the steps of its
workers. A pass of a worker is the two steps of `IstioVendor.Periodic.Periodic`: the `call`, and
the `select` behind it. Nothing between the two looks at the channel, so that an `Abort` in the
middle of a call is one between the steps.

A call whose record ends the process ends the run: the worker is `exited`, and no worker of the run
takes another step. `log.Fatalf` is a panic that nothing in a run catches, but the server of the UI
does catch it when the run is served by the goroutine of its request. So `Abort` can still be called
on such a run.

A receive from a channel is ready when the channel is closed, and never when it is `nil`. The
`select` of a worker at a given rate chooses between the stop and a timer, and any ready branch
can be taken. The `select` of a worker at maximal speed has a default branch, which is taken only
when the receive is not ready.

`aborted` and `late` are records for the statements: that `Abort` was called, and how many calls
of its `Runnable` a worker has made since then.
-/

set_option autoImplicit false

namespace IstioVendor.Periodic

/-- `Aborter`: whether `StopChan` still holds the channel, and whether the channel is closed. -/
structure Aborter where
  stopChan : Bool
  closed : Bool

/-- `NewAborter`. -/
def newAborter : Aborter := ⟨true, false⟩

/-- `Abort`. -/
def Aborter.abort (a : Aborter) : Aborter := if a.stopChan then ⟨false, true⟩ else a

/-- Where a worker is: at the top of its loop, at the `select`, behind the loop, or in a record that
has ended the process. -/
inductive Place where
  | top
  | selecting
  | done
  | exited
deriving DecidableEq

structure WorkerState where
  job : Job
  place : Place
  st : Working
  late : Nat

/-- A run from `Normalize` on. `runnerChan` is the copy that `Run` takes, with `some false` for a
`nil` channel. -/
structure RunState where
  r : RunnerOptions
  aborter : Aborter
  runnerChan : Option Bool
  workers : List WorkerState
  finished : Bool
  aborted : Bool

inductive Action where
  | abort
  | start (now : Int)
  | call (t : Nat) (tick : Tick)
  | select (t : Nat) (stop : Bool)
  | finish

/-- The state that `Normalize` leaves. -/
def RunState.normalized (r : RunnerOptions) : RunState where
  r := r
  aborter := newAborter
  runnerChan := none
  workers := []
  finished := false
  aborted := false

/-- The step of a worker from the top of its loop. -/
def WorkerState.call (aborted : Bool) (tick : Tick) (w : WorkerState) : WorkerState :=
  let (place, st) : Place × Working := match w.job.call tick w.st with
    | .leaves st => (.done, st)
    | .selects st => (.selecting, st)
    | .exits st => (.exited, st)
  let calls := st.took.length - w.st.took.length
  { w with place := place, st := st, late := w.late + if aborted then calls else 0 }

namespace RunState

/-- A receive from the copy of the channel is ready. -/
def readable (s : RunState) : Bool := s.runnerChan == some true && s.aborter.closed

/-- A worker has ended the process. -/
def exited (s : RunState) : Bool := s.workers.any (·.place == .exited)

/-- `Abort` on the aborter of the run. -/
def abort (s : RunState) : RunState := { s with aborter := s.aborter.abort, aborted := true }

/-- The copy of the channel at the head of `Run`. The workers begin at the top of their loops. -/
def start (s : RunState) (now : Int) : RunState :=
  { s with
      runnerChan := some s.aborter.stopChan
      workers := (plan s.r).budgets.map fun numCalls =>
        { job := ⟨s.r, (plan s.r).numThreads, numCalls, now⟩
          place := .top
          st := ⟨0, [], []⟩
          late := 0 } }

/-- The branches of the `select` of a worker. -/
def selectable (s : RunState) (j : Job) (stop : Bool) : Bool :=
  if stop then s.readable else j.useQPS || !s.readable

/-- One step, `none` when it is not possible. -/
def step (s : RunState) : Action → Option RunState
  | .abort => some s.abort
  | .start now => if s.runnerChan.isNone then some (s.start now) else none
  | .call t tick => do
      let w ← s.workers[t]?
      if w.place = .top ∧ s.exited = false then
        some { s with workers := s.workers.set t (w.call s.aborted tick) }
      else none
  | .select t stop => do
      let w ← s.workers[t]?
      if w.place = .selecting ∧ s.selectable w.job stop ∧ s.exited = false then
        let w' := { w with place := if stop then .done else .top }
        some { s with workers := s.workers.set t w' }
      else none
  | .finish =>
    if s.runnerChan.isSome && !s.finished && s.workers.all (·.place == .done) then
      let s' := { s with finished := true }
      some (if s.readable then s' else s'.abort)
    else none

end RunState

end IstioVendor.Periodic
