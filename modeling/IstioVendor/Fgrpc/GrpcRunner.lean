import IstioVendor.Lib.CountMap
import IstioVendor.Periodic.Periodic

/-!
# `IstioVendor.Fgrpc.GrpcRunner`: the load test of `fgrpc/grpcrunner.go`

`runGRPCTest` is the load test of `IstioVendor.Fhttp.HttpRunner` for gRPC calls, a health check
or a ping. It keeps the statuses of the replies only. The threads are groups of `streams`
threads that share a connection.

Left out: the profiler, the texts, the requests, and the test for a client that is `nil`, which
the generated constructors do not return.
-/

set_option autoImplicit false

namespace IstioVendor.Fgrpc

open Lib (CountMap int64 int64_lt)
open Periodic (RunnerOptions RunnerResults Tick defaultRunnerOptions)

/-- What one call returns: whether there was an error, and the status of the response of a
health check, when there is a response. -/
structure Reply where
  err : Bool
  status : Option Int

/-- A client, by the replies to its calls. -/
abbrev Client := Nat → Reply

/-- `HealthCheckResponse_SERVING`. -/
def serving : Int := 1

/-- `GRPCRunnerOptions`. -/
structure GRPCRunnerOptions extends RunnerOptions where
  streams : Int
  allowInitialErrors : Bool
  usePing : Bool

/-- The part of `GRPCRunnerResults` that a thread has for itself. `calls` is the number of calls
of the client so far. -/
structure GRPCState where
  client : Client
  calls : Nat
  retCodes : CountMap Int
  ping : Bool

/-- `GRPCRunnerResults` at the end of the test. -/
structure GRPCRunnerResults where
  runnerResults : RunnerResults
  retCodes : CountMap Int
  streams : Int
  ping : Bool

/-- The errors of `RunGRPCTest`: a connection that fails, and a first call that does. -/
inductive GRPCError where
  | dial (i : Nat)
  | first (i : Nat)
deriving DecidableEq

namespace GRPCState

/-- The key under which `Run` counts a reply. -/
def key (ping : Bool) (reply : Reply) : Int :=
  let status := if ping then serving else reply.status.getD serving
  if reply.err then -1 else status

/-- `Run`. -/
def run (grpcstate : GRPCState) : GRPCState :=
  { grpcstate with
    calls := grpcstate.calls + 1
    retCodes := grpcstate.retCodes.add (key grpcstate.ping (grpcstate.client grpcstate.calls)) 1 }

/-- `n` calls of `Run`. -/
def runTimes (grpcstate : GRPCState) (n : Nat) : GRPCState := run^[n] grpcstate

end GRPCState

namespace GRPCRunnerOptions

/-- `Streams`, at least 1. -/
def numStreams (o : GRPCRunnerOptions) : Int := if o.streams < 1 then 1 else o.streams

/-- The options for the periodic runner: the number of threads is that of each stream, and then
multiplied by the streams. -/
def runnerOptions (o : GRPCRunnerOptions) : RunnerOptions :=
  let perStream := if o.numThreads < 1 then defaultRunnerOptions.numThreads else o.numThreads
  { o.toRunnerOptions with
    numThreads := int64 (perStream * o.numStreams)
    numThreads_lt := int64_lt _ }

end GRPCRunnerOptions

/-- The setup of a thread: the connection of its group, and a first call. -/
def newGRPCState (o : GRPCRunnerOptions) (dialed : Nat → Bool) (i : Nat) (client : Client) :
    ExceptT GRPCError Option GRPCState := do
  if (i : Int).tmod o.numStreams = 0 && !dialed i then throw (.dial i)
  let warmUp := decide (o.exactly ≤ 0)
  if warmUp && !o.allowInitialErrors && (client 0).err then throw (.first i)
  return {
    client := client
    calls := if warmUp then 1 else 0
    retCodes := .empty
    ping := o.usePing }

/-- `RunGRPCTest`. The client of thread `i` is `clients i`, and `dialed i` says whether a dial at
that thread succeeds. -/
def runGRPCTest (o : GRPCRunnerOptions) (dialed : Nat → Bool) (clients : Nat → Client)
    (start : Int) (world : Nat → Nat → Tick) (passes : Nat) :
    ExceptT GRPCError Option GRPCRunnerResults := do
  let r := o.runnerOptions.normalize
  let grpcstate ← (List.range r.numThreads.toNat).mapM fun i =>
    newGRPCState o dialed i (clients i)
  let results ← Periodic.run r start world passes
  let grpcstate := grpcstate.zipIdx.map fun s => s.1.runTimes (results.calls.getD s.2 0)
  -- `Run` may have lowered the number of threads, and only those that are left are added up.
  let grpcstate := grpcstate.take results.numThreads.toNat
  return {
    runnerResults := results
    retCodes := (grpcstate.map GRPCState.retCodes).foldl .merge .empty
    streams := o.numStreams
    ping := o.usePing }

end IstioVendor.Fgrpc
