import IstioVendor.Hpack.Huffman
import IstioVendor.Hpack.Tables

/-!
# `IstioVendor.Hpack.Encode`: the HPACK encoder

The `Encoder` of `encode.go`. `WriteField` gives the bytes of its one write, and `none` when a
search in a table panics. The writer takes all bytes.
-/

set_option autoImplicit false

namespace IstioVendor.Hpack

open Lib

/-! ### Representations -/

/-- The loop of `appendVarInt`. -/
def appendVarIntLoop : Nat → Bytes → Nat → Bytes
  | 0, dst, i => dst ++ [UInt8.ofNat i]
  | fuel + 1, dst, i =>
    if 128 ≤ i then
      appendVarIntLoop fuel (dst ++ [UInt8.ofNat (0x80 ||| (i &&& 0x7f))]) (i >>> 7)
    else dst ++ [UInt8.ofNat i]

/-- `appendVarInt`. -/
def appendVarInt (dst : Bytes) (n i : Nat) : Bytes :=
  let k := 2 ^ n - 1
  if i < k then dst ++ [UInt8.ofNat i]
  else appendVarIntLoop (i - k) (dst ++ [UInt8.ofNat k]) (i - k)

/-- `appendHpackString`. -/
def appendHpackString (dst s : Bytes) : Bytes :=
  let huffmanLength := huffmanEncodeLength s
  if huffmanLength < s.length then
    let first := dst.length
    let dst := appendVarInt dst 7 huffmanLength
    let dst := appendHuffmanString dst s
    dst.modify first (· ||| 0x80)
  else
    let dst := appendVarInt dst 7 s.length
    dst ++ s

/-- `encodeTypeByte`. -/
def encodeTypeByte (indexing sensitive : Bool) : UInt8 :=
  if sensitive then 0x10 else if indexing then 0x40 else 0

/-- `appendIndexed`. -/
def appendIndexed (dst : Bytes) (i : Nat) : Bytes :=
  let first := dst.length
  let dst := appendVarInt dst 7 i
  dst.modify first (· ||| 0x80)

/-- `appendNewName`. -/
def appendNewName (dst : Bytes) (f : HeaderField) (indexing : Bool) : Bytes :=
  let dst := dst ++ [encodeTypeByte indexing f.sensitive]
  let dst := appendHpackString dst f.name
  appendHpackString dst f.value

/-- `appendIndexedName`. -/
def appendIndexedName (dst : Bytes) (f : HeaderField) (i : Nat) (indexing : Bool) : Bytes :=
  let first := dst.length
  let n := if indexing then 6 else 4
  let dst := appendVarInt dst n i
  let dst := dst.modify first (· ||| encodeTypeByte indexing f.sensitive)
  appendHpackString dst f.value

/-- `appendTableSize`. -/
def appendTableSize (dst : Bytes) (v : UInt32) : Bytes :=
  let first := dst.length
  let dst := appendVarInt dst 5 v.toNat
  dst.modify first (· ||| 0x20)

/-! ### The encoder -/

/-- `uint32Max`. -/
def uint32Max : UInt32 := 0xffffffff

/-- `initialHeaderTableSize`. -/
def initialHeaderTableSize : UInt32 := 4096

/-- `Encoder`. -/
structure Encoder where
  dynTab : DynamicTable
  minSize : UInt32
  maxSizeLimit : UInt32
  tableSizeUpdate : Bool

/-- `NewEncoder`. -/
def newEncoder : Encoder where
  dynTab := DynamicTable.setMaxSize ⟨.empty, 0, 0, 0⟩ initialHeaderTableSize
  minSize := uint32Max
  maxSizeLimit := initialHeaderTableSize
  tableSizeUpdate := false

namespace Encoder

/-- `searchTable`. -/
def searchTable (e : Encoder) (f : HeaderField) : Option (Nat × Bool) := do
  let (i, nameValueMatch) ← staticTable.search true f
  if nameValueMatch then return (i, true)
  let (j, nameValueMatch) ← e.dynTab.table.search false f
  if nameValueMatch ∨ (i = 0 ∧ j ≠ 0) then return (j + staticTable.len, nameValueMatch)
  return (i, false)

/-- `shouldIndex`. -/
def shouldIndex (e : Encoder) (f : HeaderField) : Bool :=
  !f.sensitive && f.size ≤ e.dynTab.maxSize

/-- The lines of `WriteField` for a table size update. -/
def updateSize (e : Encoder) : Encoder × Bytes :=
  if e.tableSizeUpdate then
    let buf := if e.minSize < e.dynTab.maxSize then appendTableSize [] e.minSize else []
    ({ e with tableSizeUpdate := false, minSize := uint32Max },
      appendTableSize buf e.dynTab.maxSize)
  else (e, [])

/-- `WriteField`. -/
def writeField (e : Encoder) (f : HeaderField) : Option (Encoder × Bytes) := do
  let (e, buf) := e.updateSize
  let (idx, nameValueMatch) ← e.searchTable f
  if nameValueMatch then return (e, appendIndexed buf idx)
  let indexing := e.shouldIndex f
  let e := if indexing then { e with dynTab := e.dynTab.add f } else e
  let buf := if idx = 0 then appendNewName buf f indexing else appendIndexedName buf f idx indexing
  return (e, buf)

/-- `SetMaxDynamicTableSize`. -/
def setMaxDynamicTableSize (e : Encoder) (v : UInt32) : Encoder :=
  let v := if e.maxSizeLimit < v then e.maxSizeLimit else v
  { e with
    minSize := if v < e.minSize then v else e.minSize
    tableSizeUpdate := true
    dynTab := e.dynTab.setMaxSize v }

/-- `SetMaxDynamicTableSizeLimit`. -/
def setMaxDynamicTableSizeLimit (e : Encoder) (v : UInt32) : Encoder :=
  let e := { e with maxSizeLimit := v }
  if v < e.dynTab.maxSize then
    { e with tableSizeUpdate := true, dynTab := e.dynTab.setMaxSize v }
  else e

end Encoder

end IstioVendor.Hpack
