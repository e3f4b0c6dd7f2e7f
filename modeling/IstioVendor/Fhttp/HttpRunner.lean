import IstioVendor.Lib.CountMap
import IstioVendor.Periodic.Periodic

/-!
# `IstioVendor.Fhttp.HttpRunner`: the load test of `fhttp/httprunner.go`

`runHTTPTest` makes a client and a record of results for each thread, lets the periodic runner
call `run` on the records, and adds them up.

A client is the sequence of the outcomes of its `Fetch`. `Run` calls the `Runnable` of the
worker `t` on the record of the thread `t`. A record is not seen by the other workers or by the
runner, so that its calls are made here after the run, as many as the run says. The `Abort` of
`AbortOn` reaches a worker as the `stop` of one of its ticks.

Errors of the test are exceptions. `none` is the end of the process, or a run that is not over
yet.

Left out: the profiler, the count of the sockets, the texts, and the closing of the clients.
-/

set_option autoImplicit false

namespace IstioVendor.Fhttp

open Lib (CountMap)
open Stats (Histogram HistogramData newHistogram)
open Periodic (RunnerOptions RunnerResults Tick)

/-- What one `Fetch` of a client returns: the code, the length of the data, and the length of
the headers. -/
structure Fetched where
  code : Int
  size : Nat
  headerSize : Int

/-- A client, by the outcomes of its fetches. -/
abbrev Client := Nat → Fetched

/-- `HTTPRunnerOptions`. -/
structure HTTPRunnerOptions extends RunnerOptions where
  allowInitialErrors : Bool
  abortOn : Int

/-- The part of `HTTPRunnerResults` that a thread has for itself. `fetches` is the number of
fetches of the client so far. `aborted` is set when the thread called `Abort`. -/
structure HTTPState where
  client : Client
  fetches : Nat
  retCodes : CountMap Int
  sizes : Histogram
  headerSizes : Histogram
  abortOn : Int
  aborted : Bool

/-- `HTTPRunnerResults` at the end of the test. -/
structure HTTPRunnerResults where
  runnerResults : RunnerResults
  retCodes : CountMap Int
  sizes : HistogramData
  headerSizes : HistogramData

/-- The errors of `RunHTTPTest`: a client that is `nil`, and a first fetch that fails. -/
inductive HTTPError where
  | unableToCreateClient (i : Nat)
  | initial (code : Int)
deriving DecidableEq

namespace HTTPState

/-- `Run`. -/
def run (httpstate : HTTPState) : Option HTTPState := do
  let fetched := httpstate.client httpstate.fetches
  let sizes ← httpstate.sizes.recordOne fetched.size
  let headerSizes ← httpstate.headerSizes.recordOne fetched.headerSize
  some { httpstate with
    fetches := httpstate.fetches + 1
    retCodes := httpstate.retCodes.add fetched.code 1
    sizes := sizes
    headerSizes := headerSizes
    aborted := httpstate.aborted || httpstate.abortOn == fetched.code }

/-- `n` calls of `Run`. -/
def runTimes (httpstate : HTTPState) : Nat → Option HTTPState
  | 0 => some httpstate
  | n + 1 => (httpstate.runTimes n).bind run

end HTTPState

/-- The setup of a thread: its client, a first fetch, and empty statistics. -/
def newHTTPState (o : HTTPRunnerOptions) (sizes headerSizes : Histogram) (i : Nat) :
    Option Client → ExceptT HTTPError Option HTTPState
  | none => throw (.unableToCreateClient i)
  | some client => do
      let warmUp := decide (o.exactly ≤ 0)
      if warmUp && !o.allowInitialErrors && (client 0).code != 200 then
        throw (.initial (client 0).code)
      let sizes ← sizes.clone
      let headerSizes ← headerSizes.clone
      return {
        client := client
        fetches := if warmUp then 1 else 0
        retCodes := .empty
        sizes := sizes
        headerSizes := headerSizes
        abortOn := o.abortOn
        aborted := false }

/-- `RunHTTPTest`. The client of thread `i` is `clients i`. -/
def runHTTPTest (o : HTTPRunnerOptions) (clients : Nat → Option Client) (start : Int)
    (world : Nat → Nat → Tick) (passes : Nat) : ExceptT HTTPError Option HTTPRunnerResults := do
  let r := o.toRunnerOptions.normalize
  let sizes ← newHistogram 0 100
  let headerSizes ← newHistogram 0 5
  let httpstate ← (List.range r.numThreads.toNat).mapM fun i =>
    newHTTPState o sizes headerSizes i (clients i)
  let results ← Periodic.run r start world passes
  let httpstate ← httpstate.zipIdx.mapM fun s => s.1.runTimes (results.calls.getD s.2 0)
  -- `Run` may have lowered the number of threads, but all of them are added up.
  let (sizes, _) ← sizes.transferAll (httpstate.map HTTPState.sizes)
  let (headerSizes, _) ← headerSizes.transferAll (httpstate.map HTTPState.headerSizes)
  return {
    runnerResults := results
    retCodes := (httpstate.map HTTPState.retCodes).foldl .merge .empty
    sizes := sizes.exportData
    headerSizes := headerSizes.exportData }

end IstioVendor.Fhttp
