import IstioVendor.Lib.Transitions
import IstioVendor.Periodic.Aborter

/-!
# `IstioVendor.Periodic.Watchers`: the signal watchers of `Normalize` and the calls of `Abort`

`Normalize` gives options without an `Aborter` a new one, and starts a watcher for it. All
watchers share `gAbortChan` and `gOutstandingRuns`. The first one makes the channel and asks for
the interrupts on it. A watcher that receives one closes the channel, so that the others see it
too. The last one that leaves resets the handler.

`System.step` is the interleaving of everything that touches these channels. The steps are the
parts of the code between two points where another goroutine can come in: what stands between
`Lock` and `Unlock`, a branch of a `select`, a call of `Abort`. The parties are:

* callers, which make options and copies of them, and call `Normalize`, `NewPeriodicRunner` and
  `Abort`. The stop requests of the UI and the deferred calls in `RunHTTPTest` and `RunGRPCTest`
  are such calls of `Abort`, at any time; to stop all runs is one call after the other;
* workers, which have a copy of the pointer to the `Aborter` (`abortOn`);
* `Run`, with its copy of the channel and the `select` at its end;
* the watchers;
* the signals: an interrupt is a send to every registered channel that does not wait for room.
  It panics when one of the channels is closed. `panicked` records this, and the model goes on
  as if the signal were lost, so that what holds in all its states does not rest on the panic.

Pointers and channels are positions in lists. A list only grows, so that a position stays what
it is. `gOutstandingRuns` counts goroutines and does not wrap. `taken` records that a signal was
received from a channel, and `interrupted` that there was an interrupt while the watcher was
registered.
-/

set_option autoImplicit false

namespace IstioVendor.Periodic.Watch

/-! ### Aborters -/

/-- The `RunnerOptions` by their field `Stop`, the `Aborter`s by their field `StopChan`, and how
often each of the stop channels was closed. -/
structure Stops where
  options : List (Option Nat)
  aborters : List (Option Nat)
  stopChans : List Nat

namespace Stops

/-- `NewAborter`. -/
def newAborter (s : Stops) : Stops :=
  { s with
      aborters := s.aborters ++ [some s.stopChans.length]
      stopChans := s.stopChans ++ [0] }

/-- `Aborter.Abort`. -/
def abortAborter (s : Stops) (a : Nat) : Stops :=
  match s.aborters[a]? with
  | some (some c) =>
    { s with stopChans := s.stopChans.modify c (· + 1), aborters := s.aborters.set a none }
  | _ => s

/-- `RunnerOptions.Abort`. -/
def abort (s : Stops) (r : Nat) : Stops :=
  match s.options[r]? with
  | some (some a) => s.abortAborter a
  | _ => s

/-- A receive from the stop channel is ready. -/
def readable (s : Stops) (c : Nat) : Bool := s.stopChans[c]?.any (0 < ·)

end Stops

/-! ### Watchers -/

/-- A channel that was stored in `gAbortChan`. It has room for one signal. -/
structure AbortChan where
  pending : Bool
  closes : Nat
  registered : Bool
  taken : Bool

/-- Where a watcher is. At `signalled` it has a signal and does not have the lock yet, at
`aborting` it is before `r.Abort()`, at `leaving` before the last `Lock`. -/
inductive Place where
  | starting
  | selecting (abortChan : Nat)
  | signalled (abortChan : Nat)
  | aborting
  | leaving
  | ended
deriving DecidableEq

/-- A watcher, with the options it watches and its copy of their stop channel. -/
structure Watcher where
  r : Nat
  runnerChan : Nat
  place : Place
  interrupted : Bool

/-- The watcher is behind its registration and before its deregistration. -/
def Watcher.active (w : Watcher) : Bool :=
  match w.place with
  | .starting | .ended => false
  | _ => true

/-- What the watchers share, and the watchers. -/
structure Signals where
  gAbortChan : Option Nat
  gOutstandingRuns : Int
  abortChans : List AbortChan
  watchers : List Watcher

/-- The steps of a watcher. -/
inductive WatcherStep where
  | register
  | receive
  | stop
  | close
  | abort
  | leave

namespace Signals

/-- The watcher `i` goes to a place. -/
def goto (s : Signals) (i : Nat) (w : Watcher) (place : Place) : Signals :=
  { s with watchers := s.watchers.set i { w with place := place } }

/-- The first critical section of a watcher. -/
def register (s : Signals) (i : Nat) (w : Watcher) : Signals :=
  let s := { s with gOutstandingRuns := s.gOutstandingRuns + 1 }
  match s.gAbortChan with
  | some g => s.goto i w (.selecting g)
  | none =>
    let g := s.abortChans.length
    let fresh : AbortChan := ⟨false, 0, true, false⟩
    { s with gAbortChan := some g, abortChans := s.abortChans ++ [fresh] }.goto i w (.selecting g)

/-- `case _, ok := <-abortChan`. A closed channel still gives the signal that is in it. -/
def receive (s : Signals) (i : Nat) (w : Watcher) (c : Nat) : Option Signals := do
  let ch ← s.abortChans[c]?
  if ch.pending then
    let chans := s.abortChans.set c { ch with pending := false, taken := true }
    some ({ s with abortChans := chans }.goto i w (.signalled c))
  else if 0 < ch.closes then some (s.goto i w .aborting)
  else none

/-- The critical section of a watcher that has received a signal. -/
def close (s : Signals) (i : Nat) (w : Watcher) : Signals :=
  match s.gAbortChan with
  | none => s.goto i w .aborting
  | some g =>
    let chans := s.abortChans.modify g fun ch => { ch with closes := ch.closes + 1 }
    { s with gAbortChan := none, abortChans := chans }.goto i w .aborting

/-- The last critical section of a watcher. -/
def leave (s : Signals) (i : Nat) (w : Watcher) : Signals :=
  let s := { s with gOutstandingRuns := s.gOutstandingRuns - 1 }
  if s.gOutstandingRuns = 0 then
    let chans := s.abortChans.map fun ch => { ch with registered := false }
    { s with gAbortChan := none, abortChans := chans }.goto i w .ended
  else s.goto i w .ended

/-- A step of the watcher `i`, `none` when it is not there or has to wait. -/
def watch (s : Signals) (readable : Nat → Bool) (i : Nat) (w : Watcher) :
    WatcherStep → Option Signals
  | .register => if w.place = .starting then some (s.register i w) else none
  | .receive =>
    match w.place with
    | .selecting c => s.receive i w c
    | _ => none
  | .stop =>
    match w.place with
    | .selecting _ => if readable w.runnerChan then some (s.goto i w .leaving) else none
    | _ => none
  | .close =>
    match w.place with
    | .signalled _ => some (s.close i w)
    | _ => none
  | .abort => if w.place = .aborting then some (s.goto i w .leaving) else none
  | .leave => if w.place = .leaving then some (s.leave i w) else none

/-- A registered channel is closed. -/
def closedRegistered (s : Signals) : Bool :=
  s.abortChans.any fun ch => ch.registered && decide (0 < ch.closes)

/-- An interrupt is sent to the registered channels that are open. -/
def interrupt (s : Signals) : Signals :=
  { s with
      abortChans := s.abortChans.map fun ch =>
        { ch with pending := ch.pending || ch.registered && ch.closes == 0 }
      watchers := s.watchers.map fun w => { w with interrupted := w.interrupted || w.active } }

end Signals

/-! ### The system -/

/-- A call of `Run`: its options, its copy of the channel, and whether it is before the `select`
at its end, before the `Abort` there, or behind it. -/
inductive RunAt where
  | running
  | aborting
  | returned
deriving DecidableEq

structure Run where
  r : Nat
  runnerChan : Option Nat
  place : RunAt

structure System where
  stops : Stops
  signals : Signals
  runs : List Run
  panicked : Bool

/-- The start of the process. -/
def System.start : System where
  stops := ⟨[], [], []⟩
  signals := ⟨none, 0, [], []⟩
  runs := []
  panicked := false

inductive Action where
  | newOptions
  | newAborter
  | setStop (r a : Nat)
  | copyOptions (r : Nat)
  | normalize (r : Nat)
  | newPeriodicRunner (r : Nat)
  | abort (r : Nat)
  | abortOn (a : Nat)
  | startRun (r : Nat)
  | endRun (k : Nat)
  | abortRun (k : Nat)
  | watch (i : Nat) (e : WatcherStep)
  | interrupt

namespace System

/-- The end of `Normalize`: an `Aborter` and a watcher for options that have no `Aborter`. -/
def normalize (s : System) (r : Nat) : Option System := do
  match ← s.stops.options[r]? with
  | some _ => some s
  | none =>
    let a := s.stops.aborters.length
    let runnerChan := s.stops.stopChans.length
    let stops := { s.stops with options := s.stops.options.set r (some a) }.newAborter
    let w : Watcher := ⟨r, runnerChan, .starting, false⟩
    some { s with
      stops := stops
      signals := { s.signals with watchers := s.signals.watchers ++ [w] } }

/-- `newPeriodicRunner`: the options are copied, the original loses its `Stop`, and the copy is
normalized. -/
def newPeriodicRunner (s : System) (r : Nat) : Option System := do
  let stop ← s.stops.options[r]?
  let options := s.stops.options.set r none ++ [stop]
  normalize { s with stops := { s.stops with options := options } } s.stops.options.length

/-- The `select` at the end of `Run`. -/
def endRun (s : System) (k : Nat) : Option System := do
  let run ← s.runs[k]?
  if run.place = .running then
    let place := if run.runnerChan.any s.stops.readable then RunAt.returned else RunAt.aborting
    some { s with runs := s.runs.set k { run with place := place } }
  else none

/-- One step, `none` when it is not possible. -/
def step (s : System) : Action → Option System
  | .newOptions => some { s with stops := { s.stops with options := s.stops.options ++ [none] } }
  | .newAborter => some { s with stops := s.stops.newAborter }
  | .setStop r a =>
    if a < s.stops.aborters.length then
      some { s with stops := { s.stops with options := s.stops.options.set r (some a) } }
    else none
  | .copyOptions r => do
      let stop ← s.stops.options[r]?
      some { s with stops := { s.stops with options := s.stops.options ++ [stop] } }
  | .normalize r => s.normalize r
  | .newPeriodicRunner r => s.newPeriodicRunner r
  | .abort r => some { s with stops := s.stops.abort r }
  | .abortOn a => some { s with stops := s.stops.abortAborter a }
  | .startRun r => do
      -- `Run` begins with a lock of `r.Stop`, which is there after `Normalize`.
      let a ← (← s.stops.options[r]?)
      let runnerChan ← s.stops.aborters[a]?
      some { s with runs := s.runs ++ [⟨r, runnerChan, .running⟩] }
  | .endRun k => s.endRun k
  | .abortRun k => do
      let run ← s.runs[k]?
      if run.place = .aborting then
        some { s with
          stops := s.stops.abort run.r
          runs := s.runs.set k { run with place := .returned } }
      else none
  | .watch i e => do
      let w ← s.signals.watchers[i]?
      let signals ← s.signals.watch s.stops.readable i w e
      -- `r.Abort()` of the watcher.
      let stops := match e with
        | .abort => s.stops.abort w.r
        | _ => s.stops
      some { s with signals := signals, stops := stops }
  | .interrupt =>
    some { s with
      signals := s.signals.interrupt
      panicked := s.panicked || s.signals.closedRegistered }

end System

end IstioVendor.Periodic.Watch
