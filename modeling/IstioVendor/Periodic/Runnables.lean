import IstioVendor.Lib.Slices
import IstioVendor.Periodic.Periodic

/-!
# `IstioVendor.Periodic.Runnables`: what the workers call

The field `Runners` of the options is a slice of `Runnable`s. `NewPeriodicRunner` copies the
options, clears the original and normalizes the copy. `Run` looks at the length of the slice, may
replace it by clones of its first element, and the worker `t` takes the element `t`.

`Memory` has the arrays behind the slices, in which a `Runnable` that is nil is `none`, and counts
the `Aborter`s. `Options` are the options with their references, and a nil slice is `none`.

`calls` are the calls of the workers in a run. A call of a `Runnable` that is nil panics, so
that it is the last one of its worker.
-/

set_option autoImplicit false

namespace IstioVendor.Periodic

open Lib (Arrays Slice)

/-- The arrays of `Runnable`s, and the number of `Aborter`s. -/
structure Memory (ρ : Type) where
  arrays : Arrays (Option ρ)
  aborters : Nat

/-- `RunnerOptions`, with the slice `Runners` and the pointer `Stop`. -/
structure Options extends RunnerOptions where
  runners : Option Slice
  stop : Option Nat

/-- `len(r.Runners)`. -/
def Options.runnersLen (r : Options) : Nat :=
  match r.runners with
  | none => 0
  | some s => s.length

namespace Memory

variable {ρ : Type}

/-- The elements of `r.Runners`. -/
def runners (m : Memory ρ) (r : Options) : List (Option ρ) :=
  match r.runners with
  | none => []
  | some s => m.arrays.read s

/-- The assignments `r.Runners[i] = f(i)` for the indices below `n`. -/
def assign (m : Memory ρ) (r : Options) (n : Nat) (f : Nat → Option ρ) : Memory ρ :=
  match r.runners with
  | none => m
  | some s => { m with arrays := m.arrays.storeEach s f n }

/-- `r.Runners = make([]Runnable, n)`. -/
def allocate (m : Memory ρ) (r : Options) (n : Nat) : Memory ρ × Options :=
  let (arrays, s) := m.arrays.make n none
  ({ m with arrays := arrays }, { r with runners := some s })

/-- `MakeRunners`, for the number of threads that `Run` has planned. -/
def makeRunners (m : Memory ρ) (r : Options) (numThreads : Int) (rr : Option ρ) :
    Memory ρ × Options :=
  let (m, r) :=
    if (r.runnersLen : Int) < numThreads then m.allocate r numThreads.toNat else (m, r)
  (m.assign r numThreads.toNat fun _ => rr, r)

/-- `ReleaseRunners`. -/
def releaseRunners (m : Memory ρ) (r : Options) : Memory ρ :=
  m.assign r r.runnersLen fun _ => none

/-- `Normalize`. -/
def normalize (m : Memory ρ) (r : Options) : Memory ρ × Options :=
  let r := { r with toRunnerOptions := r.toRunnerOptions.normalize }
  let (m, r) := if r.runners.isNone then m.allocate r r.numThreads.toNat else (m, r)
  if r.stop.isNone then
    ({ m with aborters := m.aborters + 1 }, { r with stop := some m.aborters })
  else (m, r)

/-- `NewPeriodicRunner`: the original options and the runner. -/
def newPeriodicRunner (m : Memory ρ) (opts : Options) : Memory ρ × Options × Options :=
  let r := opts
  let m := m.releaseRunners opts
  let opts := { opts with stop := none }
  let (m, r) := m.normalize r
  (m, opts, r)

/-- The part of `Run` that looks at the runners. `none` is the end of the process, for an empty
slice. -/
def prepareRunners (m : Memory ρ) (r : Options) : Option (Memory ρ × Options) :=
  if r.runnersLen = 0 then none
  else if (r.runnersLen : Int) < (plan r.toRunnerOptions).numThreads then
    some (m.makeRunners r (plan r.toRunnerOptions).numThreads ((m.runners r).getD 0 none))
  else some (m, r)

/-- The calls of the worker `t` with the `Runnable` `f`, in the first passes of its loop. -/
def workerCalls (r : Options) (start : Int) (world : Nat → Tick) (passes t : Nat) (budget : Int)
    (f : Option ρ) : List (Nat × Option ρ) :=
  let made := (Job.trace ⟨r.toRunnerOptions, (plan r.toRunnerOptions).numThreads, budget, start⟩
    world passes).filter Effect.isRun
  match f with
  | none => (made.take 1).map fun _ => (t, none)
  | some f => made.map fun _ => (t, some f)

/-- The calls of `Run`, by the number of the worker. -/
def calls (m : Memory ρ) (r : Options) (start : Int) (world : Nat → Nat → Tick) (passes : Nat) :
    List (Nat × Option ρ) :=
  match m.prepareRunners r with
  | none => []
  | some (m, r) =>
    (plan r.toRunnerOptions).budgets.zipIdx.flatMap fun b =>
      workerCalls r start (world b.2) passes b.2 b.1 ((m.runners r).getD b.2 none)

end Memory

end IstioVendor.Periodic
