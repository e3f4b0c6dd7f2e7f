import Mathlib.Data.List.AList
import IstioVendor.Lib.Text
import IstioVendor.Lib.Transitions
import IstioVendor.Periodic.Aborter

/-!
# `IstioVendor.Ui.Runs`: the runs that the pages of `ui/uihandler.go` start and stop

A request to `Handler` shows the menu, starts a run, or stops runs. A new run gets the next number
and is put into the map `runs`, from which nothing takes it out again. A request to stop names a run
by its number. The number 0, and every text that is no number, means all runs.

Each request is served by a goroutine of its own. What it does with `id` and `runs` is done under
`uiRunMapMutex`. To stop all runs the mutex is held while one run after the other is aborted, in the
order of the map, which is any one. In the meantime the runs go on, so that this is not one step:
`stopping` holds the numbers of the runs that are still to be aborted.

The steps of a run by itself are those of `IstioVendor.Periodic.Aborter`, with the calls of `Abort`
that come from its own workers, from a signal and from its end.

Left out: the page, and how the options of a run are read from the form; a request has them as
`ro`. A request without a template returns behind the critical section, as a run that never starts.
-/

set_option autoImplicit false

namespace IstioVendor.Ui

open Lib
open Periodic (RunnerOptions RunState)

/-! ### The form -/

/-- The loop of `strconv.ParseUint` in base 10. `none` is a syntax error, and a number that is too
large is cut off. -/
def parseUint : Nat → Bytes → Option Nat
  | n, [] => some n
  | n, b :: s =>
    if isDigit b then
      let n' := n * 10 + (b.toNat - 48)
      if 2 ^ 64 ≤ n' then some (2 ^ 64 - 1) else parseUint n' s
    else none

/-- `strconv.ParseInt` in base 10 with 64 bits, behind the sign and without the error. -/
def parseSigned (neg : Bool) : Bytes → Int
  | [] => 0
  | b :: s =>
    match parseUint 0 (b :: s) with
    | none => 0
    | some un =>
      if neg then if 2 ^ 63 < un then -2 ^ 63 else -un
      else if 2 ^ 63 ≤ un then 2 ^ 63 - 1 else un

def parseInt : Bytes → Int
  | 43 :: s => parseSigned false s
  | 45 :: s => parseSigned true s
  | s => parseSigned false s

/-- The values of the fields. -/
structure Form where
  values : Bytes → List Bytes

/-- `FormValue`. -/
def Form.value (form : Form) (key : Bytes) : Bytes := (form.values key).headD []

inductive Mode where
  | menu
  | run
  | stop
deriving DecidableEq

/-- The mode of a request, with the number of the run to stop. -/
def Form.mode (form : Form) : Mode × Int :=
  if form.value (ascii "load") = ascii "Start" then (.run, 0)
  else if form.value (ascii "stop") = ascii "Stop" then
    (.stop, parseInt (form.value (ascii "runid")))
  else (.menu, 0)

/-! ### The map of the runs -/

structure Runs where
  id : Int
  runs : AList fun _ : Int => RunState
  stopping : Option (List Int)

/-- The variables when the server starts. -/
def Runs.initial : Runs := ⟨0, ∅, none⟩

/-- A request, with the order in which the map gives its runs. -/
structure Request where
  form : Form
  ro : RunnerOptions
  order : List Int

inductive UiAction where
  | handle (req : Request)
  | abortNext
  | run (runid : Int) (a : Periodic.Action)

namespace Runs

/-- `runs[runid]` with `Abort`, if it is there. -/
def abort (s : Runs) (runid : Int) : Runs :=
  match s.runs.lookup runid with
  | some run => { s with runs := s.runs.insert runid run.abort }
  | none => s

/-- One step, `none` when it is not possible. -/
def step (s : Runs) : UiAction → Option Runs
  | .handle req =>
    match req.form.mode, s.stopping with
    | (.menu, _), _ => some s
    -- The mutex is taken.
    | (.run, _), some _ | (.stop, _), some _ => none
    | (.run, _), none =>
      let runid := int64 (s.id + 1)
      some { s with
        id := runid
        runs := s.runs.insert runid (.normalized req.ro.normalize) }
    | (.stop, runid), none =>
      if runid ≤ 0 then
        if req.order.isPerm s.runs.keys then some { s with stopping := some req.order }
        else none
      else some (s.abort runid)
  | .abortNext =>
    match s.stopping with
    | some (runid :: rest) => some { s.abort runid with stopping := some rest }
    | some [] => some { s with stopping := none }
    | none => none
  | .run runid a => do
      let run ← s.runs.lookup runid
      let run' ← run.step a
      some { s with runs := s.runs.insert runid run' }

end Runs

end IstioVendor.Ui
