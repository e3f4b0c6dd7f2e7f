import Mathlib.Algebra.Order.Group.Nat
import IstioVendor.Lib.KeyIndex
import IstioVendor.Lib.Lines

/-!
# `IstioVendor.Hpack.Tables`: the tables of header fields

The static table and the dynamic tables are lists of header fields, the newest one at the end, with
two maps from names and from pairs of name and value to the newest entry. A dynamic table drops its
oldest entries when the sum of the sizes is more than `maxSize`. The sizes are 32-bit numbers, as in
`tables.go` and `hpack.go`.

The ids of the entries are 64-bit numbers in the source. Here they are counted exactly, and a table
whose `evictCount` goes beyond 64 bits is marked as `panicked`, which is where `evictOldest` panics.
As long as fewer than `2 ^ 64` entries have been added, both counts are the same.
-/

set_option autoImplicit false

namespace IstioVendor.Hpack

open Lib

/-- `HeaderField`. -/
structure HeaderField where
  name : Bytes
  value : Bytes
  sensitive : Bool
deriving DecidableEq

namespace HeaderField

/-- `pairNameValue{f.Name, f.Value}`. -/
def pair (f : HeaderField) : Bytes × Bytes := (f.name, f.value)

/-- `Size`. -/
def size (f : HeaderField) : UInt32 := UInt32.ofNat (f.name.length + f.value.length + 32)

end HeaderField

/-! ### Tables -/

/-- `headerFieldTable`. The entry `ents[k]` has the id `k + evictCount + 1`. The field `panicked` is
not in the source: it says that `evictOldest` has panicked because of an overflow of `evictCount`. -/
structure HeaderFieldTable where
  ents : List HeaderField
  evictCount : Nat
  byName : Ids Bytes
  byNameValue : Ids (Bytes × Bytes)
  panicked : Bool

namespace HeaderFieldTable

/-- A table after `init`. -/
def empty : HeaderFieldTable := ⟨[], 0, ∅, ∅, false⟩

/-- `len`. -/
def len (t : HeaderFieldTable) : Nat := t.ents.length

/-- `addEntry`. -/
def addEntry (t : HeaderFieldTable) (f : HeaderField) : HeaderFieldTable :=
  let id := t.evictCount + t.len + 1
  { t with
    byName := t.byName.insert f.name id
    byNameValue := t.byNameValue.insert f.pair id
    ents := t.ents ++ [f] }

/-- The loop of `evictOldest` over the entries that go. The first of them has the id `base + 1`. -/
def forgetAll : Ids Bytes → Ids (Bytes × Bytes) → Nat → List HeaderField →
    Ids Bytes × Ids (Bytes × Bytes)
  | byName, byNameValue, _, [] => (byName, byNameValue)
  | byName, byNameValue, base, f :: fs =>
    forgetAll (forget byName f.name (base + 1)) (forget byNameValue f.pair (base + 1)) (base + 1)
      fs

/-- `evictOldest`. That it does not panic for more entries than there are is an argument. Its panic
for an `evictCount` that overflows is marked. -/
def evictOldest (t : HeaderFieldTable) (n : Nat) (_ : n ≤ t.len) : HeaderFieldTable :=
  let maps := forgetAll t.byName t.byNameValue t.evictCount (t.ents.take n)
  { ents := t.ents.drop n
    evictCount := t.evictCount + n
    byName := maps.1
    byNameValue := maps.2
    panicked := t.panicked || decide (2 ^ 64 ≤ t.evictCount + n) }

/-- `idToIndex`, `none` for its panic. The indices of `staticTable` go the other way. -/
def idToIndex (t : HeaderFieldTable) (isStatic : Bool) (id : Nat) : Option Nat :=
  if id ≤ t.evictCount then none
  else
    let k := id - t.evictCount - 1
    if isStatic then some (k + 1) else some (t.len - k)

/-- `search`. -/
def search (t : HeaderFieldTable) (isStatic : Bool) (f : HeaderField) : Option (Nat × Bool) :=
  let id := if f.sensitive then 0 else (t.byNameValue.lookup f.pair).getD 0
  if id ≠ 0 then (t.idToIndex isStatic id).map (·, true)
  else
    let id := (t.byName.lookup f.name).getD 0
    if id ≠ 0 then (t.idToIndex isStatic id).map (·, false) else some (0, false)

end HeaderFieldTable

/-- The names and values of `staticTableEntries`. -/
def staticTexts : List (String × String) :=
  [(":authority", ""), (":method", "GET"), (":method", "POST"), (":path", "/"),
    (":path", "/index.html"), (":scheme", "http"), (":scheme", "https"), (":status", "200"),
    (":status", "204"), (":status", "206"), (":status", "304"), (":status", "400"),
    (":status", "404"), (":status", "500"), ("accept-charset", ""),
    ("accept-encoding", "gzip, deflate"), ("accept-language", ""), ("accept-ranges", ""),
    ("accept", ""), ("access-control-allow-origin", ""), ("age", ""), ("allow", ""),
    ("authorization", ""), ("cache-control", ""), ("content-disposition", ""),
    ("content-encoding", ""), ("content-language", ""), ("content-length", ""),
    ("content-location", ""), ("content-range", ""), ("content-type", ""), ("cookie", ""),
    ("date", ""), ("etag", ""), ("expect", ""), ("expires", ""), ("from", ""), ("host", ""),
    ("if-match", ""), ("if-modified-since", ""), ("if-none-match", ""), ("if-range", ""),
    ("if-unmodified-since", ""), ("last-modified", ""), ("link", ""), ("location", ""),
    ("max-forwards", ""), ("proxy-authenticate", ""), ("proxy-authorization", ""), ("range", ""),
    ("referer", ""), ("refresh", ""), ("retry-after", ""), ("server", ""), ("set-cookie", ""),
    ("strict-transport-security", ""), ("transfer-encoding", ""), ("user-agent", ""),
    ("vary", ""), ("via", ""), ("www-authenticate", "")]

/-- `staticTableEntries`. -/
def staticTableEntries : List HeaderField :=
  staticTexts.map fun e => ⟨ascii e.1, ascii e.2, false⟩

/-- `newStaticTable`. -/
def newStaticTable : HeaderFieldTable := staticTableEntries.foldl .addEntry .empty

/-- `staticTable`. -/
def staticTable : HeaderFieldTable := newStaticTable

/-! ### Dynamic tables -/

/-- `dynamicTable`. -/
structure DynamicTable where
  table : HeaderFieldTable
  size : UInt32
  maxSize : UInt32
  allowedMaxSize : UInt32

/-- The loop of `evict`: the size that is left, and the number of entries to drop. -/
def evictLoop (maxSize : UInt32) : UInt32 → List HeaderField → UInt32 × Nat
  | size, [] => (size, 0)
  | size, f :: fs =>
    if maxSize < size then
      let (size, n) := evictLoop maxSize (size - f.size) fs
      (size, n + 1)
    else (size, 0)

theorem evictLoop_le (maxSize size : UInt32) (fs : List HeaderField) :
    (evictLoop maxSize size fs).2 ≤ fs.length := by
  induction fs generalizing size with
  | nil => exact Nat.zero_le _
  | cons f fs ih =>
    rw [evictLoop]
    split
    · exact Nat.succ_le_succ (ih _)
    · exact Nat.zero_le _

namespace DynamicTable

/-- `evict`. -/
def evict (dt : DynamicTable) : DynamicTable :=
  let out := evictLoop dt.maxSize dt.size dt.table.ents
  { dt with
    size := out.1
    table := dt.table.evictOldest out.2 (evictLoop_le ..) }

/-- `setMaxSize`. -/
def setMaxSize (dt : DynamicTable) (v : UInt32) : DynamicTable :=
  evict { dt with maxSize := v }

/-- `add`. -/
def add (dt : DynamicTable) (f : HeaderField) : DynamicTable :=
  evict { dt with
    table := dt.table.addEntry f
    size := dt.size + f.size }

end DynamicTable

end IstioVendor.Hpack
