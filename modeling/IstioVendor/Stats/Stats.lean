import Mathlib.Algebra.Field.Rat
import Mathlib.Data.BitVec
import Mathlib.Data.Fintype.Pi
import Mathlib.Data.List.DropRight
import IstioVendor.Lib.GoInt

/-!
# `IstioVendor.Stats.Stats`: counters and histograms of `stats/stats.go`

A `Counter` keeps the number of values, their extremes and their sums. A `Histogram` adds
the number of values per bucket. A `float64` is an exact rational number here. The machine
integers wrap: `count` is an `int64`, and an entry of `hdata` is an `int32`, a `BitVec 32`.

`none` stands for the end of the process: an index outside of a table, or `log.Fatalf`. The
functions that write through two pointers, `transfer` and `merge`, return the new contents of
both, for arguments that are not the same histogram.

Left out: the square root of `StdDev`, the fields of `HistogramData` that hold `Avg` and `StdDev`,
the list of the percentiles that `CalcPercentiles` keeps, and the printing.
-/

set_option autoImplicit false

namespace IstioVendor.Stats

open Lib (int64 int32)

/-! ### Counters -/

/-- `Counter`. -/
structure Counter where
  count : Int
  min : Rat
  max : Rat
  sum : Rat
  sumOfSquares : Rat
deriving DecidableEq

namespace Counter

/-- The zero value of a `Counter`. -/
def empty : Counter := ⟨0, 0, 0, 0, 0⟩

/-- `RecordN`. -/
def recordN (c : Counter) (v : Rat) (n : Int) : Counter :=
  let isFirst := c.count = 0
  let s := v * n
  { count := int64 (c.count + n)
    min := if isFirst then v else if v < c.min then v else c.min
    -- A value below the minimum is not compared with the maximum.
    max := if isFirst then v else if v < c.min then c.max else if c.max < v then v else c.max
    sum := c.sum + s
    sumOfSquares := c.sumOfSquares + s * s }

/-- `Record`. -/
def record (c : Counter) (v : Rat) : Counter := c.recordN v 1

/-- `Avg`. -/
def avg (c : Counter) : Rat := c.sum / c.count

/-- `StdDev`, as the number of which it returns the square root. `none` is the branch for a
negative `sigma`, which logs a warning and returns 0. -/
def stdDev (c : Counter) : Option Rat :=
  let fC : Rat := c.count
  let sigma := (c.sumOfSquares - c.sum * c.sum / fC) / fC
  if sigma < 0 then none else some sigma

/-- `Reset`. -/
def reset (_ : Counter) : Counter := empty

/-- `Transfer`: the new contents of the receiver and of `src`. -/
def transfer (c src : Counter) : Counter × Counter :=
  if src.count = 0 then (c, src)
  else if c.count = 0 then (src, src.reset)
  else
    ({ count := int64 (c.count + src.count)
       min := if src.min < c.min then src.min else c.min
       max := if c.max < src.max then src.max else c.max
       sum := c.sum + src.sum
       sumOfSquares := c.sumOfSquares + src.sumOfSquares }, src.reset)

end Counter

/-! ### The buckets -/

/-- `histogramBucketValues`. -/
def histogramBucketValues : List Int :=
  [0, 1, 2, 3, 4, 5, 6,
    7, 8, 9, 10, 11,
    12, 14, 16, 18, 20,
    25, 30, 35, 40, 45, 50,
    60, 70, 80, 90, 100,
    120, 140, 160, 180, 200,
    250, 300, 350, 400, 450, 500,
    600, 700, 800, 900, 1000,
    2000, 3000, 4000, 5000, 7500, 10000,
    20000, 30000, 40000, 50000, 75000, 100000]

def numValues : Nat := histogramBucketValues.length

def numBuckets : Nat := numValues + 1

def firstValue : Rat := histogramBucketValues.getD 0 0

def lastValue : Rat := histogramBucketValues.getD (numValues - 1) 0

def maxArrayValue : Nat := 1000

/-- `maxArrayValueIndex`, as `init` sets it. -/
def maxArrayValueIndex : Nat := histogramBucketValues.idxOf (maxArrayValue : Int)

/-- The loop of `init` that fills `val2Bucket`, for the `n` entries from `i` on. -/
def fillVal2Bucket : Nat → Nat → Nat → List Nat
  | 0, _, _ => []
  | n + 1, i, idx =>
    let idx' := if histogramBucketValues.getD idx 0 ≤ i then idx + 1 else idx
    idx' :: fillVal2Bucket n (i + 1) idx'

def val2Bucket : List Nat := fillVal2Bucket maxArrayValue 0 0

/-- The linear search of `lookUpIdx` in the boundaries from the index `i` on. -/
def searchIdx (scaledValue32 : Int) : List Int → Nat → Option Nat
  | [], _ => none
  | value :: rest, i =>
    if scaledValue32 < value then some i else searchIdx scaledValue32 rest (i + 1)

/-- `lookUpIdx`. -/
def lookUpIdx (scaledValue : Int) : Option Nat :=
  let scaledValue32 := int32 scaledValue
  if scaledValue32 < maxArrayValue then
    if 0 ≤ scaledValue then val2Bucket[scaledValue.toNat]? else none
  else searchIdx scaledValue32 (histogramBucketValues.drop maxArrayValueIndex) maxArrayValueIndex

/-- The conversion `int(x)`, towards zero. -/
def truncate (x : Rat) : Int := x.num.tdiv x.den

/-- The index that `record` computes for the value `v`. -/
def bucketIdx (offset divider v : Rat) : Option Nat :=
  let scaledVal := (v - offset) / divider - 1 / 10000
  if scaledVal ≤ firstValue then some 0
  else if lastValue < scaledVal then some (numBuckets - 1)
  else lookUpIdx (truncate scaledVal)

/-- The index as one of `Hdata`. -/
def bucket (offset divider v : Rat) : Option (Fin numBuckets) :=
  (bucketIdx offset divider v).bind fun idx => if h : idx < numBuckets then some ⟨idx, h⟩ else none

/-! ### Histograms -/

/-- `Histogram`. It is made by `newHistogram` or by `clone`, so that the divider is not zero
and `Hdata` has an entry for each bucket. -/
structure Histogram extends Counter where
  offset : Rat
  divider : Rat
  hdata : Fin numBuckets → BitVec 32
  divider_ne : divider ≠ 0
deriving DecidableEq

/-- `Bucket`, with its `Interval`. -/
structure Bucket where
  start : Rat
  stop : Rat
  percent : Rat
  count : Int

/-- `HistogramData`. -/
structure HistogramData where
  count : Int
  min : Rat
  max : Rat
  sum : Rat
  data : List Bucket

/-- A histogram without values. -/
def Histogram.blank (offset divider : Rat) (h : divider ≠ 0) : Histogram where
  toCounter := .empty
  offset := offset
  divider := divider
  hdata := fun _ => 0
  divider_ne := h

/-- `NewHistogram`. -/
def newHistogram (offset divider : Rat) : Option Histogram :=
  if h : divider = 0 then none else some (.blank offset divider h)

namespace Histogram

/-- `record`. -/
def record (h : Histogram) (v : Rat) (count : Int) : Option Histogram :=
  (bucket h.offset h.divider v).map fun idx =>
    { h with hdata := Function.update h.hdata idx (h.hdata idx + BitVec.ofInt 32 count) }

/-- `RecordN`. -/
def recordN (h : Histogram) (v : Rat) (n : Int) : Option Histogram :=
  record { h with toCounter := h.toCounter.recordN v n } v n

/-- `Record`. -/
def recordOne (h : Histogram) (v : Rat) : Option Histogram := h.recordN v 1

/-- The variables of the loop in `Export`. -/
structure Exporting where
  prev : Int
  total : Int
  data : List Bucket

/-- The indices from 0 to `lastIdx`, the last one with a positive entry. -/
def exported (h : Histogram) : List (Fin numBuckets) :=
  (List.finRange numBuckets).rdropWhile fun i => !decide (0 < (h.hdata i).toInt)

/-- The loop body of `Export`. -/
def exportStep (h : Histogram) (st : Exporting) (i : Fin numBuckets) : Exporting :=
  let boundary := histogramBucketValues[i.val]?
  if h.hdata i = 0 then { st with prev := boundary.getD st.prev }
  else
    let entry := (h.hdata i).toInt
    let total := int64 (st.total + entry)
    let fromPrev := h.divider * st.prev + h.offset
    let percent := 100 * (total : Rat) / h.count
    let b : Bucket := match boundary with
      | some cur =>
        { start := if st.data = [] then h.min else fromPrev
          stop := h.divider * cur + h.offset
          percent := percent
          count := entry }
      | none => { start := fromPrev, stop := h.max, percent := percent, count := entry }
    { prev := boundary.getD st.prev, total := total, data := st.data ++ [b] }

/-- The last entry is made to end at `stop`. -/
def endLast (stop : Rat) : List Bucket → List Bucket
  | [] => []
  | [b] => [{ b with stop := stop }]
  | b :: b' :: rest => b :: endLast stop (b' :: rest)

/-- `Export`. -/
def exportData (h : Histogram) : HistogramData where
  count := h.count
  min := h.min
  max := h.max
  sum := h.sum
  data := endLast h.max
    (h.exported.foldl h.exportStep
      { prev := histogramBucketValues.getD 0 0, total := 0, data := [] }).data

/-- `Reset`. -/
def reset (h : Histogram) : Histogram :=
  { h with toCounter := h.toCounter.reset, hdata := fun _ => 0 }

/-- `copyHDataFrom`. -/
def copyHDataFrom (h src : Histogram) : Option Histogram :=
  if h.divider = src.divider ∧ h.offset = src.offset then
    some { h with hdata := fun i => h.hdata i + src.hdata i }
  else
    src.exportData.data.foldlM
      (fun h' data => h'.record ((data.start + data.stop) / 2) data.count) h

/-- `CopyFrom`. -/
def copyFrom (h src : Histogram) : Option Histogram :=
  copyHDataFrom { h with toCounter := src.toCounter } src

/-- `Clone`. -/
def clone (h : Histogram) : Option Histogram :=
  (newHistogram h.offset h.divider).bind fun copy => copy.copyFrom h

/-- `Transfer`: the new contents of the receiver and of `src`. -/
def transfer (h src : Histogram) : Option (Histogram × Histogram) :=
  if src.count = 0 then some (h, src)
  else if h.count = 0 then (h.copyFrom src).map fun h' => (h', src.reset)
  else
    (h.copyHDataFrom src).map fun h' =>
      ({ h' with toCounter := (h'.toCounter.transfer src.toCounter).1 },
        reset { src with toCounter := (h'.toCounter.transfer src.toCounter).2 })

/-! ### Loops over histograms, as the callers of the package write them -/

/-- The values are recorded one after the other. -/
def recordAll (h : Histogram) (vs : List Rat) : Option Histogram := vs.foldlM recordOne h

/-- The histograms are transferred to `h` one after the other: the new contents of `h`, and of
each of them. -/
def transferAll (h : Histogram) : List Histogram → Option (Histogram × List Histogram)
  | [] => some (h, [])
  | w :: ws => do
      let (h', w') ← h.transfer w
      let (h'', ws') ← transferAll h' ws
      some (h'', w' :: ws')

end Histogram

/-! ### Percentiles -/

/-- Where `CalcPercentile` finds a percentile. `between pp cur` is in the bucket `cur`, behind
the percentile `pp`. -/
inductive Located where
  | noData
  | max
  | min
  | between (pp : Rat) (cur : Bucket)
  | notReached

/-- The loop of `CalcPercentile`. -/
def locateIn (percentile : Rat) : Rat → List Bucket → Located
  | _, [] => .notReached
  | pp, cur :: rest =>
    if percentile ≤ cur.percent then .between pp cur
    else locateIn percentile cur.percent rest

namespace HistogramData

/-- The branches of `CalcPercentile`. -/
def locate (e : HistogramData) (percentile : Rat) : Located :=
  if e.data = [] then .noData
  else if 100 ≤ percentile then .max
  else
    let pp := 100 / (e.count : Rat)
    if percentile ≤ pp then .min else locateIn percentile pp e.data

/-- `CalcPercentile`. -/
def calcPercentile (e : HistogramData) (percentile : Rat) : Rat :=
  match e.locate percentile with
  | .noData => 0
  | .max => e.max
  | .min => e.min
  | .between pp cur =>
    cur.start + (percentile - pp) / (cur.percent - pp) * (cur.stop - cur.start)
  | .notReached => e.max

end HistogramData

/-- `Merge`: the new histogram, and the new contents of the two arguments. -/
def merge (h1 h2 : Histogram) : Option (Histogram × Histogram × Histogram) := do
  let divider := if h1.divider < h2.divider then h2.divider else h1.divider
  let offset := if h2.offset < h1.offset then h2.offset else h1.offset
  let newH ← newHistogram offset divider
  let (newH, h1) ← newH.transfer h1
  let (newH, h2) ← newH.transfer h2
  some (newH, h1, h2)

/-! ### Rounding -/

/-- `RoundToDigits`. -/
def roundToDigits (v : Rat) (digits : Nat) : Rat :=
  let p : Rat := 10 ^ digits
  (v * p + 1 / 2).floor / p

/-- `Round`. -/
def round (v : Rat) : Rat := roundToDigits v 4

end IstioVendor.Stats
