import IstioVendor.Lib.GoInt
import IstioVendor.Lib.Lines
import IstioVendor.Lib.Loop

/-!
# `IstioVendor.Fhttp.HttpUtils`: the byte scanners of `fhttp/http_utils.go`

The fast client does not decode a response. It looks for three header names with
`foldFind`, reads decimal lengths with `parseDecimal`, and reads chunk-size lines with
`parseChunkSize`. All three work on a byte slice and never fail: a number that is not there
is `-1`.

The two number parsers accumulate in a Go `int` and do not test for overflow, so each
accumulation step wraps (`int64`). The value `-1` means "no digit yet" and is also a value
that the accumulator can wrap to.

`parseChunkSize` is one loop with the flag `inDigits` in the source. Here it is two
recursions, one for each value of the flag. The step from the first to the second does not
advance, as the `continue` of the source does not.
-/

set_option autoImplicit false

namespace IstioVendor.Fhttp

open Lib (int64 Bytes Pass)

/-- `toUpperMask`: every bit but the ASCII case bit. -/
def toUpperMask : UInt8 := 0xdf

/-- `toUpper`: the upper-case form of an ASCII letter, any other byte as it is. -/
def toUpper (b : UInt8) : UInt8 :=
  if 97 ≤ b ∧ b ≤ 122 then b - 32 else b

/-! ### `FoldFind` -/

/-- The test of `FoldFind` that two bytes differ. Two bytes agree when they are equal, or
when they differ in the case bit only and neither is a control character. -/
def foldDiffers (h n : UInt8) : Bool :=
  ((h ^^^ n) &&& toUpperMask) != 0 || ((h < 32 || n < 32) && (h ^^^ n) != 0)

/-- The loop of `FoldFind`, with its two counters `idx` and `needleOffset`. A mismatch moves
`idx` back to one past the start of the attempt. -/
def foldFindLoop (haystack needle : Bytes) : Nat → Nat → Nat → Option Nat
  | 0, _, _ => none
  | fuel + 1, idx, needleOffset =>
    if foldDiffers (haystack.getD idx 0) (needle.getD needleOffset 0) then
      -- The attempt fails. The next one starts one byte behind the start of this one, and the
      -- source gives up only at the end of the haystack.
      if haystack.length ≤ idx - needleOffset + 1 then none
      else foldFindLoop haystack needle fuel (idx - needleOffset + 1) 0
    else if needleOffset = needle.length - 1 then some (idx - needleOffset)
    else if haystack.length ≤ idx + 1 then none
    else foldFindLoop haystack needle fuel (idx + 1) (needleOffset + 1)

/-- `FoldFind`: the first offset of `needle` in `haystack` up to ASCII case, `none` for the
source's `(false, -1)`. The fuel covers one attempt at every offset
(`foldFind_eq_some_iff`). -/
def foldFind (haystack needle : Bytes) : Option Nat :=
  if needle.length = 0 then some 0
  else if haystack.length < needle.length then none
  else foldFindLoop haystack needle ((haystack.length + 1) * (needle.length + 1)) 0 0

/-- The index expression `b[i]`, `none` for an index outside of the slice. -/
def index (b : Bytes) (i : Int) : Option UInt8 := if 0 ≤ i then b[i.toNat]? else none

/-- The counters of the loop in `FoldFind`. -/
structure Folding where
  idx : Int
  needleOffset : Int

/-- One pass of the loop, with its two index expressions. The loop leaves with what `FoldFind`
returns, or with `none` when an index is outside of its slice. -/
def foldFindPass (haystack needle : Bytes) (st : Folding) : Pass Folding (Option (Bool × Int)) :=
  match index haystack st.idx, index needle st.needleOffset with
  | some h, some n =>
    if foldDiffers h n then
      let idx := st.idx - (st.needleOffset - 1)
      if haystack.length ≤ idx then .leave (some (false, -1)) else .again ⟨idx, 0⟩
    else if st.needleOffset = needle.length - 1 then
      .leave (some (true, st.idx - st.needleOffset))
    else if haystack.length ≤ st.idx + 1 then .leave (some (false, -1))
    else .again ⟨st.idx + 1, st.needleOffset + 1⟩
  | _, _ => .leave none

/-- `FoldFind` for at most `passes` passes of its loop, which `foldFind` shortens to its result. -/
def foldFindRun (passes : Nat) (haystack needle : Bytes) : Option (Option (Bool × Int)) :=
  if needle.length = 0 then some (some (true, 0))
  else if haystack.length < needle.length then some (some (false, -1))
  else Lib.Loop.run (foldFindPass haystack needle) passes ⟨0, 0⟩

/-! ### `ParseDecimal` -/

/-- A decimal digit byte. -/
def isDigit (b : UInt8) : Bool := 48 ≤ b && b ≤ 57

/-- One accumulation step of a number in the given base: the first digit replaces the
`-1`. -/
def accumulate (base : Int) (res digit : Int) : Int :=
  if res = -1 then digit else int64 (base * res + digit)

/-- The loop of `ParseDecimal` from the accumulator `res`. -/
def parseDecimalFrom (res : Int) : Bytes → Int
  | [] => res
  | b :: inp =>
    -- Spaces are skipped before the number only. Any other byte ends it.
    if b = 32 ∧ res = -1 then parseDecimalFrom res inp
    else if isDigit b then parseDecimalFrom (accumulate 10 res (b.toNat - 48)) inp
    else res

/-- `ParseDecimal`: the first number of the input after leading spaces, `-1` if there is
none. -/
def parseDecimal (inp : Bytes) : Int := parseDecimalFrom (-1) inp

/-! ### `ParseChunkSize` -/

/-- The value of a hexadecimal digit byte, of either case. -/
def hexDigit (b : UInt8) : Option Nat :=
  let u := toUpper b
  if 65 ≤ u ∧ u ≤ 70 then some (10 + (u.toNat - 65))
  else if 48 ≤ u ∧ u ≤ 57 then some (u.toNat - 48)
  else none

/-- The loop of `ParseChunkSize` after the digits: skip ahead to the end of the line. A
carriage return takes the byte after it along, whatever that byte is. -/
def skipToCrlf (res : Int) : Nat → Bytes → Nat × Int
  | off, [] => (off, -1)
  -- A single byte is never a whole line end, so the line is not complete.
  | off, [_] => (off + 1, -1)
  | off, b :: b' :: inp =>
    if b = 13 then
      if b' = 10 then (off + 2, res) else skipToCrlf res (off + 2) inp
    else skipToCrlf res (off + 1) (b' :: inp)

/-- The loop of `ParseChunkSize` in the digits, from the accumulator `res`. -/
def chunkDigits : Int → Nat → Bytes → Nat × Int
  | _, off, [] => (off, -1)
  | res, off, b :: inp =>
    match hexDigit b with
    | some digit => chunkDigits (accumulate 16 res digit) (off + 1) inp
    -- The byte behind the digits is looked at again, as the first one to be skipped.
    | none => if res = -1 then (off, res) else skipToCrlf res off (b :: inp)

/-- `ParseChunkSize`: the offset of the chunk data and the size of the chunk. The size is
`-1` when the line is not complete or has no number. -/
def parseChunkSize (inp : Bytes) : Nat × Int := chunkDigits (-1) 0 inp

end IstioVendor.Fhttp
