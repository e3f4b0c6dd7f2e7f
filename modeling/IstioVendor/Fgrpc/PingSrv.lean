import IstioVendor.Lib.Loop
import IstioVendor.Lib.Text
import IstioVendor.Stats.Stats

/-!
# `IstioVendor.Fgrpc.PingSrv`: the ping client and server of `fgrpc/pingsrv.go`

`PingClientCall` makes a first call to warm up, and then two calls in each of `n` passes. From the
times before, between and behind the two calls, and from the times in the two replies, it records
three round trips and the skew of the clocks. The reply of the second call is the message of the
next pass.

What the network does is a `PingWorld`: whether the connection is made, the outcome of each call,
and the times that are read. A call that fails returns no message. To read a field of a message that
is `nil` ends the process, and so does a value that a histogram has no bucket for.

Left out: the log, and the printing of the histograms, which returns nothing and changes nothing.
With them goes `avgRtt`, which is only logged.
-/

set_option autoImplicit false

namespace IstioVendor.Fgrpc

open Lib
open Stats (Histogram newHistogram)

/-- `PingMessage`. -/
structure PingMessage where
  seq : Int
  ts : Int
  payload : Bytes
  delayNanos : Int
deriving DecidableEq

/-- How long the server sleeps. -/
def sleepTime (delayNanos : Int) : Int := if 0 < delayNanos then delayNanos else 0

/-- `pingSrv.Ping`, which reads `now` on the clock of the server: the reply, and the time
of the sleep before it is returned. -/
def pingSrvPing (now : Int) (msg : PingMessage) : PingMessage × Int :=
  let out := { msg with ts := now }
  (out, sleepTime msg.delayNanos)

/-- What happens to the calls, by their numbers. The times are in nanoseconds, by the number of
the reading. -/
structure PingWorld (ε : Type) where
  dial : Option ε
  ping : Nat → Except ε PingMessage
  now : Nat → Int

/-- The results of a call of the generated client: no message if there is an error. -/
def replyOf {ε : Type} : Except ε PingMessage → Option PingMessage × Option ε
  | .ok msg => (some msg, none)
  | .error err => (none, some err)

/-- How `PingClientCall` ends. -/
inductive PingEnding (ε : Type) where
  | returned (avg : Rat) (err : Option ε)
  | nilDereference
  | fatal

/-- The end of `PingClientCall`, with the histograms at that point. -/
structure PingResult (ε : Type) where
  ending : PingEnding ε
  skewHistogram : Histogram
  rttHistogram : Histogram

/-- The variables of the loop, with the messages that were sent and the number of times read. -/
structure PingState where
  i : Int
  msg : PingMessage
  sent : List PingMessage
  reads : Nat
  skewHistogram : Histogram
  rttHistogram : Histogram

/-- The end of the function at this point of the loop. -/
def PingState.stop {ε : Type} (s : PingState) (ending : PingEnding ε) : PingResult ε :=
  ⟨ending, s.skewHistogram, s.rttHistogram⟩

/-- The conversion of nanoseconds to microseconds. -/
def toMicros (ns : Int) : Rat := (ns : Rat) / 1000

section
variable {ε : Type} (w : PingWorld ε)

/-- The end of a pass, when both replies are there: the round trips and the skew are recorded. -/
def recordPass (s : PingState) (t1a t2a t3a t1b t2b : Int) (res2 : PingMessage) :
    Pass PingState (PingResult ε) :=
  let rt1 := int64 (t2a - t1a)
  let rt2 := int64 (t3a - t2a)
  let rtR := int64 (t2b - t1b)
  let midR := int64 (t1b + rtR.tdiv 2)
  let x := int64 (midR - t2a)
  match s.rttHistogram.recordAll [toMicros rt1, toMicros rt2, toMicros rtR] with
  | none => .leave (s.stop .fatal)
  | some rttHistogram =>
    match s.skewHistogram.recordOne (toMicros x) with
    | none => .leave (s.stop .fatal)
    | some skewHistogram =>
      .again { s with
        i := int64 (s.i + 1)
        msg := res2
        skewHistogram := skewHistogram
        rttHistogram := rttHistogram }

/-- One pass of the loop. -/
def pingPass (n : Int) (s : PingState) : Pass PingState (PingResult ε) :=
  if s.i ≤ n then
    let t1a := w.now s.reads
    let msg := { s.msg with seq := s.i, ts := t1a }
    let (res1, err) := replyOf (w.ping s.sent.length)
    let t2a := w.now (s.reads + 1)
    match err with
    | some err => .leave (s.stop (.returned (-1) (some err)))
    | none =>
      match res1 with
      | none => .leave (s.stop .nilDereference)
      | some res1 =>
        let t1b := res1.ts
        let (res2, err) := replyOf (w.ping (s.sent.length + 1))
        let t3a := w.now (s.reads + 2)
        -- The time of the second reply is read before its error is checked.
        match res2 with
        | none => .leave (s.stop .nilDereference)
        | some res2 =>
          let t2b := res2.ts
          match err with
          | some err => .leave (s.stop (.returned (-1) (some err)))
          | none =>
            recordPass { s with sent := s.sent ++ [msg, msg], reads := s.reads + 3 }
              t1a t2a t3a t1b t2b res2
  else .leave (s.stop (.returned (s.rttHistogram.avg / 1000000) none))

theorem skewDivider_ne_zero : (2 : Rat) ≠ 0 := OfNat.ofNat_ne_zero 2

theorem rttDivider_ne_zero : (10 : Rat) ≠ 0 := OfNat.ofNat_ne_zero 10

/-- The loop at its start, behind the first call. -/
def pingStart (payload : Bytes) (delay : Int) : PingState :=
  let msg := ⟨0, 0, payload, delay⟩
  { i := 1
    msg := msg
    sent := [msg]
    reads := 0
    skewHistogram := .blank (-10) 2 skewDivider_ne_zero
    rttHistogram := .blank 0 10 rttDivider_ne_zero }

/-- `PingClientCall`, with a bound on the number of passes. `none`: the loop is not left yet. -/
def pingClientCall (passes : Nat) (n : Int) (payload : Bytes) (delay : Int) :
    Option (PingResult ε) :=
  let start := pingStart payload delay
  match w.dial with
  | some err => some (start.stop (.returned (-1) (some err)))
  | none =>
    match (replyOf (w.ping 0)).2 with
    | some err => some (start.stop (.returned (-1) (some err)))
    | none => Loop.run (pingPass w n) passes start

end

end IstioVendor.Fgrpc
