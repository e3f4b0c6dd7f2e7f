import IstioVendor.Lib.Text
import IstioVendor.Stats.Stats

/-!
# `IstioVendor.Fhttp.EchoServer`: the random answers of the echo server

The echo server takes its status, the size of its answer and its delay from the request. Each of
them is a value, or a list of values with percentages. `generateStatus`, `generateSize` and
`generateDelay` of `fhttp/http_utils.go` read such a text and choose a value. The source has
the same code three times. Here it is `Choice.generate`, and a `Choice` is what differs: how a value
is read, and what is returned for a malformed list and for the rest of the percentages.

The functions of Go that read numbers are arguments, and so is the random number. Percentages are
exact rational numbers, without infinities and `NaN`. A delay is in nanoseconds.
-/

set_option autoImplicit false

namespace IstioVendor.Fhttp

open Lib (Bytes comma colon percent)

/-- `strconv.Atoi`, `strconv.ParseFloat` and `time.ParseDuration`, `none` for an error, and the
variable `MaxPayloadSize`. -/
structure EchoEnv where
  atoi : Bytes → Option Int
  parseFloat : Bytes → Option Rat
  parseDuration : Bytes → Option Int
  maxPayloadSize : Int

/-- `removeTrailingPercent`. -/
def removeTrailingPercent (s : Bytes) : Bytes :=
  if s.getLast? = some percent then s.dropLast else s

/-- What differs in the three functions. -/
structure Choice where
  value : Bytes → Option Int
  failed : Int
  remainder : Int

/-- The loop over the entries: the cumulative weights with the values. `none` is the return from a
malformed entry. -/
def weigh (env : EchoEnv) (value : Bytes → Option Int) :
    Rat → List Bytes → Option (List (Rat × Int))
  | _, [] => some []
  | lastPercent, entry :: rest =>
    match entry.splitOn colon with
    | [valueStr, percStr] => do
        let s ← value valueStr
        let p ← env.parseFloat (removeTrailingPercent percStr)
        if p < 0 ∨ 100 < p then none
        else
          let p32 := Stats.round (lastPercent + p)
          if 100 < p32 then none
          else
            let table ← weigh env value (lastPercent + p) rest
            some ((p32, s) :: table)
    | _ => none

/-- The loop over the weights. -/
def selectIdx (res : Rat) (weights : List Rat) : Option Nat :=
  weights.findIdx? fun v => decide (res ≤ v)

/-- The value of the selected entry. -/
def Choice.pick (ch : Choice) (values : List Int) : Option Nat → Int
  | some i => values.getD i ch.remainder
  | none => ch.remainder

/-- The common code of the three functions, for the random number `res` between 0 and 100. -/
def Choice.generate (env : EchoEnv) (ch : Choice) (input : Bytes) (res : Rat) : Int :=
  let lst := input.splitOn comma
  -- A value alone, without percentages.
  if lst.length = 1 ∧ colon ∉ input then (ch.value input).getD ch.failed
  else
    match weigh env ch.value 0 lst with
    | none => ch.failed
    | some table => ch.pick (table.map Prod.snd) (selectIdx res (table.map Prod.fst))

/-- A number that is too large is replaced by the largest one. -/
def atMost (max s : Int) : Int := if max < s then max else s

/-- `MaxDelay`. -/
def maxDelay : Int := 1500 * 1000000

def statusChoice (env : EchoEnv) : Choice where
  value := env.atoi
  failed := 400
  remainder := 200

def sizeChoice (env : EchoEnv) : Choice where
  value := fun s => (env.atoi s).map (atMost env.maxPayloadSize)
  failed := -1
  remainder := -1

def delayChoice (env : EchoEnv) : Choice where
  value := fun s => (env.parseDuration s).map (atMost maxDelay)
  failed := -1
  remainder := 0

/-- `generateStatus`. -/
def generateStatus (env : EchoEnv) (status : Bytes) (res : Rat) : Int :=
  (statusChoice env).generate env status res

/-- `generateSize`. -/
def generateSize (env : EchoEnv) (sizeInput : Bytes) (res : Rat) : Int :=
  if sizeInput.length = 0 then -1 else (sizeChoice env).generate env sizeInput res

/-- `generateDelay`. -/
def generateDelay (env : EchoEnv) (delay : Bytes) (res : Rat) : Int :=
  if delay.length = 0 then -1 else (delayChoice env).generate env delay res

end IstioVendor.Fhttp
