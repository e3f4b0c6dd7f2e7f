import IstioVendor.Hpack.Huffman
import IstioVendor.Hpack.Tables
import IstioVendor.Lib.Incremental

/-!
# `IstioVendor.Hpack.Decode`: the HPACK decoder

The `Decoder` of `hpack.go`. A header block comes in pieces, one for each `Write`. What cannot be
parsed yet is in `saveBuf`. The callback `emit` has a state `sink` of its own, and says whether
emitting is enabled after it: a caller switches it off there when the fields get too long.

The functions that parse give the rest of the buffer, or the error with the decoder as they leave
it.
-/

set_option autoImplicit false

namespace IstioVendor.Hpack

open Lib

/-! ### Numbers and strings -/

/-- The loop of `readVarInt`. -/
def readVarIntLoop : Nat → Nat → Reader Err Nat
  | _, _, [] => .error .needMore
  | i, m, b :: p =>
    let i := (i + (b.toNat &&& 127) <<< m) % 2 ^ 64
    if b &&& 128 = 0 then .ok (i, p)
    else if 63 ≤ m + 7 then .error .varintOverflow
    else readVarIntLoop i (m + 7) p

/-- The lowest `n` bits of the first byte. -/
def lowBits (n : Nat) (b : UInt8) : Nat := if n < 8 then b.toNat &&& (2 ^ n - 1) else b.toNat

/-- `readVarInt`, for `n` between 1 and 8. -/
def readVarInt (n : Nat) : Reader Err Nat
  | [] => .error .needMore
  | b :: p =>
    let i := lowBits n b
    if i < 2 ^ n - 1 then .ok (i, p) else readVarIntLoop i 0 p

/-- The string from its bytes. It stays empty when it is not wanted. -/
def stringOf (maxStrLen : Nat) (isHuff wantStr : Bool) (s : Bytes) : Except Err Bytes :=
  if ¬ isHuff then .ok (if wantStr then s else [])
  else if wantStr then huffmanDecode maxStrLen s
  else .ok []

/-- `readString`. -/
def readString (maxStrLen : Nat) (wantStr : Bool) : Reader Err Bytes
  | [] => .error .needMore
  | b :: p =>
    readVarInt 7 (b :: p) >>= fun (strLen, p) =>
      if maxStrLen ≠ 0 ∧ maxStrLen < strLen then .error .stringLength
      else if p.length < strLen then .error .needMore
      else stringOf maxStrLen (b &&& 128 ≠ 0) wantStr (p.take strLen) >>= fun s =>
        .ok (s, p.drop strLen)

/-! ### The decoder -/

/-- `Decoder`. -/
structure Decoder (σ : Type) where
  dynTab : DynamicTable
  emitEnabled : Bool
  maxStrLen : Nat
  saveBuf : Bytes
  sink : σ

variable {σ : Type}

/-- `NewDecoder`. -/
def newDecoder (maxDynamicTableSize : UInt32) (sink : σ) : Decoder σ where
  dynTab := DynamicTable.setMaxSize ⟨.empty, 0, 0, maxDynamicTableSize⟩ maxDynamicTableSize
  emitEnabled := true
  maxStrLen := 0
  saveBuf := []
  sink := sink

/-- The callback: what it does with a field, and whether emitting is enabled after it. -/
abbrev Emit (σ : Type) := σ → HeaderField → σ × Bool

/-- `indexType`. -/
inductive IndexType where
  | indexedTrue
  | indexedFalse
  | indexedNever
deriving DecidableEq

/-- `indexed`. -/
def IndexType.indexed (v : IndexType) : Bool := v = .indexedTrue

/-- `sensitive`. -/
def IndexType.sensitive (v : IndexType) : Bool := v = .indexedNever

namespace Decoder

/-- `SetMaxStringLength`. -/
def setMaxStringLength (d : Decoder σ) (n : Nat) : Decoder σ := { d with maxStrLen := n }

/-- `SetEmitEnabled`. -/
def setEmitEnabled (d : Decoder σ) (v : Bool) : Decoder σ := { d with emitEnabled := v }

/-- `SetMaxDynamicTableSize`. -/
def setMaxDynamicTableSize (d : Decoder σ) (v : UInt32) : Decoder σ :=
  { d with dynTab := d.dynTab.setMaxSize v }

/-- `SetAllowedMaxDynamicTableSize`. -/
def setAllowedMaxDynamicTableSize (d : Decoder σ) (v : UInt32) : Decoder σ :=
  { d with dynTab := { d.dynTab with allowedMaxSize := v } }

/-- `maxTableIndex`. -/
def maxTableIndex (dt : DynamicTable) : Nat := dt.table.len + staticTable.len

theorem static_bound {i n : Nat} (h0 : i ≠ 0) (h : i ≤ n) : i - 1 < n := by omega

theorem dynamic_bound {i n k : Nat} (h : ¬ i ≤ k) (hmax : ¬ n + k < i) : n - (i - k) < n := by omega

/-- `at`. In the dynamic table the newest entry has the lowest index. -/
def lookupAt (dt : DynamicTable) (i : Nat) : Option HeaderField :=
  if h0 : i = 0 then none
  else if h : i ≤ staticTable.len then some (staticTable.ents.get ⟨i - 1, static_bound h0 h⟩)
  else if hmax : maxTableIndex dt < i then none
  else some (dt.table.ents.get ⟨dt.table.len - (i - staticTable.len), dynamic_bound h hmax⟩)

/-- `callEmit`. -/
def callEmit (emit : Emit σ) (d : Decoder σ) (hf : HeaderField) :
    Except (Err × Decoder σ) (Decoder σ) :=
  if d.maxStrLen ≠ 0 ∧ (d.maxStrLen < hf.name.length ∨ d.maxStrLen < hf.value.length) then
    .error (.stringLength, d)
  else if d.emitEnabled then
    let (sink, enabled) := emit d.sink hf
    .ok { d with sink := sink, emitEnabled := enabled }
  else .ok d

/-- An error that leaves the decoder as it is. -/
def unchanged {α : Type} (d : Decoder σ) (x : Except Err α) : Except (Err × Decoder σ) α :=
  x.mapError (·, d)

/-- The entry of an index, or the error when there is none. -/
def fieldAt (d : Decoder σ) (idx : Nat) : Except (Err × Decoder σ) HeaderField :=
  match lookupAt d.dynTab idx with
  | none => .error (.invalidIndex idx, d)
  | some hf => .ok hf

/-- `parseFieldIndexed`. -/
def parseFieldIndexed (emit : Emit σ) (d : Decoder σ) : Reader (Err × Decoder σ) (Decoder σ) :=
  fun buf => do
    let (idx, buf) ← d.unchanged (readVarInt 7 buf)
    let hf ← d.fieldAt idx
    let d ← d.callEmit emit ⟨hf.name, hf.value, false⟩
    return (d, buf)

/-- The name of a literal field: that of an entry, or a string. -/
def readName (d : Decoder σ) (wantStr : Bool) (nameIdx : Nat) : Reader (Err × Decoder σ) Bytes :=
  fun buf =>
    if 0 < nameIdx then do
      let ihf ← d.fieldAt nameIdx
      return (ihf.name, buf)
    else d.unchanged (readString d.maxStrLen wantStr buf)

/-- `parseFieldLiteral`. -/
def parseFieldLiteral (emit : Emit σ) (d : Decoder σ) (n : Nat) (it : IndexType) :
    Reader (Err × Decoder σ) (Decoder σ) :=
  fun buf => do
    let (nameIdx, buf) ← d.unchanged (readVarInt n buf)
    let wantStr := d.emitEnabled || it.indexed
    let (name, buf) ← d.readName wantStr nameIdx buf
    let (value, buf) ← d.unchanged (readString d.maxStrLen wantStr buf)
    let d := if it.indexed then { d with dynTab := d.dynTab.add ⟨name, value, false⟩ } else d
    let d ← d.callEmit emit ⟨name, value, it.sensitive⟩
    return (d, buf)

/-- `parseDynamicTableSizeUpdate`. -/
def parseDynamicTableSizeUpdate (d : Decoder σ) : Reader (Err × Decoder σ) (Decoder σ) :=
  fun buf => do
    let (size, buf) ← d.unchanged (readVarInt 5 buf)
    if d.dynTab.allowedMaxSize.toNat < size then throw (.tableSizeTooLarge, d)
    else return ({ d with dynTab := d.dynTab.setMaxSize (UInt32.ofNat size) }, buf)

/-- `parseHeaderFieldRepr`. It is not called for an empty buffer. -/
def parseHeaderFieldRepr (emit : Emit σ) (d : Decoder σ) : Reader (Err × Decoder σ) (Decoder σ)
  | [] => .error (.needMore, d)
  | b :: buf =>
    if b &&& 128 ≠ 0 then d.parseFieldIndexed emit (b :: buf)
    else if b &&& 192 = 64 then d.parseFieldLiteral emit 6 .indexedTrue (b :: buf)
    else if b &&& 240 = 0 then d.parseFieldLiteral emit 4 .indexedFalse (b :: buf)
    else if b &&& 240 = 16 then d.parseFieldLiteral emit 4 .indexedNever (b :: buf)
    else if b &&& 224 = 32 then d.parseDynamicTableSizeUpdate (b :: buf)
    else .error (.invalidEncoding, d)

/-- `varIntOverhead`. -/
def varIntOverhead : Nat := 8

/-- `Write`: the decoder after it, the number of bytes, and the error. -/
def write (emit : Emit σ) (d : Decoder σ) (p : Bytes) : Decoder σ × Nat × Option Err :=
  if p = [] then (d, 0, none)
  else
    let buf := d.saveBuf ++ p
    match drain (parseHeaderFieldRepr emit) buf.length { d with saveBuf := [] } buf with
    | .ok d => (d, p.length, none)
    | .error ((e, d), buf) =>
      if e ≠ .needMore then (d, p.length, some e)
      else if d.maxStrLen ≠ 0 ∧ 2 * (d.maxStrLen + varIntOverhead) < buf.length then
        (d, 0, some .stringLength)
      else ({ d with saveBuf := buf }, p.length, none)

/-- `Close`. -/
def close (d : Decoder σ) : Decoder σ × Option Err :=
  if 0 < d.saveBuf.length then ({ d with saveBuf := [] }, some .truncated) else (d, none)

end Decoder

end IstioVendor.Hpack
