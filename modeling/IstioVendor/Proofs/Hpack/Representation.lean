import IstioVendor.Proofs.Hpack.Decoder
import IstioVendor.Proofs.Hpack.Encoder
import IstioVendor.Proofs.Hpack.Wire

/-!
# `IstioVendor.Proofs.Hpack.Representation`: each representation is read back

The encoder writes a field as an index (`appendIndexed`) or as a literal (`appendNewName` and
`appendIndexedName`), and a size of the table with `appendTableSize`. Each is a number under a tag,
`tagged`, and strings. `parseHeaderFieldRepr` tells them apart by the tag (`parse_indexed`, …) and
reads them back, whatever follows (`read_indexed`, `read_literal` and `read_resize`).
-/

set_option autoImplicit false

namespace IstioVendor.Hpack

open Lib

variable {σ : Type} {emit : Emit σ} {d : Decoder σ} {i idx : Nat} {f g : HeaderField}
  {indexing : Bool}

/-! ### Representations -/

theorem parse_indexed (hi : i < 2 ^ 63) (q : Bytes) :
    d.parseHeaderFieldRepr emit (tagged 0x80 7 i ++ q)
      = d.parseFieldIndexed emit (tagged 0x80 7 i ++ q) := by
  obtain ⟨b, tail, heq, htag⟩ := tagged_eq_cons (n := 7) le_rfl hi 0x80
  rw [heq, List.cons_append, Decoder.parseHeaderFieldRepr]
  exact if_pos (by rw [htag 128 rfl]; decide)

theorem parse_literal_indexed (hi : i < 2 ^ 63) (q : Bytes) :
    d.parseHeaderFieldRepr emit (tagged 0x40 6 i ++ q)
      = d.parseFieldLiteral emit 6 .indexedTrue (tagged 0x40 6 i ++ q) := by
  obtain ⟨b, tail, heq, htag⟩ := tagged_eq_cons (n := 6) (by decide) hi 0x40
  rw [heq, List.cons_append, Decoder.parseHeaderFieldRepr, if_neg (by rw [htag 128 rfl]; decide)]
  exact if_pos (by rw [htag 192 rfl]; decide)

/-- The type of a literal field. -/
def literalType (indexing sensitive : Bool) : IndexType :=
  if indexing then .indexedTrue else if sensitive then .indexedNever else .indexedFalse

theorem parse_literal_plain (sensitive : Bool) (hi : i < 2 ^ 63) (q : Bytes) :
    d.parseHeaderFieldRepr emit (tagged (encodeTypeByte false sensitive) 4 i ++ q)
      = d.parseFieldLiteral emit 4 (literalType false sensitive)
        (tagged (encodeTypeByte false sensitive) 4 i ++ q) := by
  obtain ⟨b, tail, heq, htag⟩ := tagged_eq_cons (n := 4) (by decide) hi
    (encodeTypeByte false sensitive)
  rw [heq, List.cons_append, Decoder.parseHeaderFieldRepr, htag 128 rfl, htag 192 rfl, htag 240 rfl]
  cases sensitive <;> rfl

theorem parse_resize (hi : i < 2 ^ 63) (q : Bytes) :
    d.parseHeaderFieldRepr emit (tagged 0x20 5 i ++ q)
      = d.parseDynamicTableSizeUpdate (tagged 0x20 5 i ++ q) := by
  obtain ⟨b, tail, heq, htag⟩ := tagged_eq_cons (n := 5) (by decide) hi 0x20
  have hsize : b &&& 224 = 32 := htag 224 rfl
  -- The mask 240 looks at a bit of the number, but 224 is a part of it.
  have hpart : b &&& 224 = (b &&& 240) &&& 224 := by
    rw [UInt8.and_assoc]
    rfl
  rw [heq, List.cons_append, Decoder.parseHeaderFieldRepr, if_neg (by rw [htag 128 rfl]; decide),
    if_neg (by rw [htag 192 rfl]; decide), if_neg ?_, if_neg ?_]
  · exact if_pos hsize
  · intro h
    rw [hpart, h] at hsize
    exact absurd hsize (by decide)
  · intro h
    rw [hpart, h] at hsize
    exact absurd hsize (by decide)

/-- The call of the callback for a field within the bound on strings. -/
def Decoder.deliver (emit : Emit σ) (d : Decoder σ) (f : HeaderField) : Decoder σ :=
  if d.emitEnabled then { d with sink := (emit d.sink f).1, emitEnabled := (emit d.sink f).2 }
  else d

theorem callEmit_of_short (hname : Short d f.name) (hvalue : Short d f.value) :
    d.callEmit emit f = .ok (d.deliver emit f) := by
  rw [Short] at hname hvalue
  rw [Decoder.callEmit, Decoder.deliver, if_neg (by omega)]
  split <;> rfl

theorem unchanged_ok {α : Type} (a : α) : d.unchanged (.ok a) = .ok a := rfl

theorem fieldAt_of_lookupAt (h : Decoder.lookupAt d.dynTab i = some g) :
    d.fieldAt i = .ok g := fieldAt_eq_ok.mpr h

/-- An index is read as the field of its entry. -/
theorem read_indexed (hi : i < 2 ^ 63) (hg : Decoder.lookupAt d.dynTab i = some g)
    (hf : (⟨g.name, g.value, false⟩ : HeaderField) = f) (hname : Short d f.name)
    (hvalue : Short d f.value) (q : Bytes) :
    d.parseHeaderFieldRepr emit (tagged 0x80 7 i ++ q) = .ok (d.deliver emit f, q) := by
  rw [parse_indexed hi, Decoder.parseFieldIndexed, readVarInt_tagged le_rfl hi rfl, unchanged_ok]
  simp only [bind, Except.bind, fieldAt_of_lookupAt hg, hf, callEmit_of_short hname hvalue]
  rfl

/-- A new size of the table. -/
theorem read_resize {v : UInt32} (hv : v ≤ d.dynTab.allowedMaxSize) (q : Bytes) :
    d.parseHeaderFieldRepr emit (tagged 0x20 5 v.toNat ++ q)
      = .ok ({ d with dynTab := d.dynTab.setMaxSize v }, q) := by
  have hlt : v.toNat < 2 ^ 63 := v.toNat_lt.trans (by decide)
  have hle : ¬ d.dynTab.allowedMaxSize.toNat < v.toNat := not_lt.mpr (UInt32.le_iff_toNat_le.mp hv)
  rw [parse_resize hlt, Decoder.parseDynamicTableSizeUpdate,
    readVarInt_tagged (by decide) hlt rfl, unchanged_ok]
  simp only [bind, Except.bind, if_neg hle, UInt32.ofNat_toNat]
  rfl

/-- The bytes of a literal field. The index zero says that the name is there. -/
def literalBytes (t : UInt8) (n idx : Nat) (f : HeaderField) : Bytes :=
  tagged t n idx ++ ((if idx = 0 then appendHpackString [] f.name else [])
    ++ appendHpackString [] f.value)

/-- The decoder after a literal field. -/
def Decoder.afterLiteral (emit : Emit σ) (d : Decoder σ) (it : IndexType) (f : HeaderField) :
    Decoder σ :=
  Decoder.deliver emit
    (if it.indexed then { d with dynTab := d.dynTab.add ⟨f.name, f.value, false⟩ } else d)
    ⟨f.name, f.value, it.sensitive⟩

/-- A field whose strings the decoder takes. -/
structure Decoder.Takes (d : Decoder σ) (f : HeaderField) : Prop where
  name : Short d f.name
  value : Short d f.value
  size : realSize f < 2 ^ 32

theorem readName_literal (hf : d.Takes f)
    (hidx : idx ≠ 0 → ∃ g, Decoder.lookupAt d.dynTab idx = some g ∧ g.name = f.name)
    (wantStr : Bool) (q : Bytes) :
    ∃ name, d.readName wantStr idx ((if idx = 0 then appendHpackString [] f.name else []) ++ q)
      = .ok (name, q) ∧ Short d name ∧ (wantStr = true → name = f.name) := by
  have hsize : f.name.length + f.value.length + 32 < 2 ^ 32 := hf.size
  by_cases hzero : idx = 0
  · refine ⟨if wantStr then f.name else [], ?_, ?_, fun h => if_pos h⟩
    · rw [Decoder.readName, if_neg (by omega), if_pos hzero,
        readString_appendHpackString (by omega) hf.name]
      rfl
    · split
      · exact hf.name
      · exact .inr (Nat.zero_le _)
  · obtain ⟨g, hg, hname⟩ := hidx hzero
    refine ⟨f.name, ?_, hf.name, fun _ => rfl⟩
    rw [Decoder.readName, if_pos (Nat.pos_of_ne_zero hzero), if_neg hzero, fieldAt_of_lookupAt hg,
      ← hname]
    rfl

theorem deliver_of_disabled (h : d.emitEnabled = false) (f : HeaderField) :
    d.deliver emit f = d := by
  rw [Decoder.deliver, h]
  rfl

/-- The callback at the end of a literal field. What is not wanted is not delivered either. -/
theorem callEmit_literal {it : IndexType} (hf : d.Takes f) {name value : Bytes}
    (hshort : Short d name) (hwant : (d.emitEnabled || it.indexed) = true → name = f.name)
    (hvalue : value = if d.emitEnabled || it.indexed then f.value else []) :
    Decoder.callEmit emit
      (if it.indexed then { d with dynTab := d.dynTab.add ⟨name, value, false⟩ } else d)
      ⟨name, value, it.sensitive⟩ = .ok (d.afterLiteral emit it f) := by
  cases hwanted : d.emitEnabled || it.indexed with
  | true =>
    obtain rfl := hwant hwanted
    obtain rfl : value = f.value := by rw [hvalue, hwanted]; rfl
    rw [callEmit_of_short, Decoder.afterLiteral]
    · split
      · exact hf.name
      · exact hf.name
    · split
      · exact hf.value
      · exact hf.value
  | false =>
    obtain ⟨hemit, hindexed⟩ := Bool.or_eq_false_iff.mp hwanted
    obtain rfl : value = [] := by rw [hvalue, hwanted]; rfl
    simp only [hindexed, Bool.false_eq_true, if_false]
    rw [callEmit_of_short hshort (.inr (Nat.zero_le _)), Decoder.afterLiteral, hindexed,
      deliver_of_disabled hemit, if_neg (by decide), deliver_of_disabled hemit]

/-- A literal field is read back. -/
theorem read_literal {t : UInt8} {n : Nat} {it : IndexType} (hn : n ≤ 7)
    (ht : t.toNat % 2 ^ n = 0) (hi : idx < 2 ^ 63) (hf : d.Takes f)
    (hidx : idx ≠ 0 → ∃ g, Decoder.lookupAt d.dynTab idx = some g ∧ g.name = f.name) (q : Bytes) :
    d.parseFieldLiteral emit n it (literalBytes t n idx f ++ q)
      = .ok (d.afterLiteral emit it f, q) := by
  have hsize : f.name.length + f.value.length + 32 < 2 ^ 32 := hf.size
  obtain ⟨name, hname, hshort, hwant⟩ := readName_literal hf hidx (d.emitEnabled || it.indexed)
    (appendHpackString [] f.value ++ q)
  have hnumber := readVarInt_tagged hn hi ht
    ((if idx = 0 then appendHpackString [] f.name else []) ++ (appendHpackString [] f.value ++ q))
  have hvalue := readString_appendHpackString (by omega) hf.value (d.emitEnabled || it.indexed) q
  rw [literalBytes, List.append_assoc, List.append_assoc]
  refine except_bind_eq_ok.mpr ⟨_, congrArg d.unchanged hnumber, ?_⟩
  refine except_bind_eq_ok.mpr ⟨_, hname, ?_⟩
  refine except_bind_eq_ok.mpr ⟨_, congrArg d.unchanged hvalue, ?_⟩
  exact except_bind_eq_ok.mpr ⟨_, callEmit_literal hf hshort hwant rfl, rfl⟩

/-! ### What the encoder writes -/

theorem appendIndexed_eq (dst : Bytes) : appendIndexed dst i = dst ++ tagged 0x80 7 i := by
  rw [appendIndexed, appendVarInt_eq_append]
  exact modify_length_append ..

theorem appendTableSize_eq (dst : Bytes) (v : UInt32) :
    appendTableSize dst v = dst ++ tagged 0x20 5 v.toNat := by
  rw [appendTableSize, appendVarInt_eq_append]
  exact modify_length_append ..

theorem tagged_none {n : Nat} (hn : 1 < 2 ^ n) (t : UInt8) : tagged t n 0 = [t] := by
  rw [tagged, appendVarInt, if_pos (Nat.sub_pos_of_lt hn)]
  exact congrArg (· :: []) UInt8.zero_or

/-- The bits for the index of a literal field. -/
def literalBits (indexing : Bool) : Nat := if indexing then 6 else 4

theorem literal_eq {e : Encoder} (hf : realSize f < 2 ^ 32) (buf : Bytes) (idx : Nat) :
    e.literal f buf idx = buf ++ literalBytes (encodeTypeByte (e.shouldIndex f) f.sensitive)
      (literalBits (e.shouldIndex f)) idx f := by
  rw [realSize] at hf
  have hname : f.name.length < 2 ^ 63 := by omega
  have hvalue : f.value.length < 2 ^ 63 := by omega
  rw [Encoder.literal, literalBytes]
  split
  · rename_i hzero
    have hone : 1 < 2 ^ literalBits (e.shouldIndex f) := by cases e.shouldIndex f <;> decide
    rw [hzero, appendNewName, tagged_none hone, appendHpackString_eq_append _ hvalue,
      appendHpackString_eq_append _ hname]
    simp only [List.append_assoc]
  · rw [appendIndexedName, appendHpackString_eq_append _ hvalue, appendVarInt_eq_append,
      modify_length_append, List.append_assoc]
    rfl

/-- A literal field is told apart by its type, which the decoder gets back. -/
theorem read_field (hindexing : indexing = true → f.sensitive = false) (hi : idx < 2 ^ 63)
    (hf : d.Takes f)
    (hidx : idx ≠ 0 → ∃ g, Decoder.lookupAt d.dynTab idx = some g ∧ g.name = f.name) (q : Bytes) :
    d.parseHeaderFieldRepr emit
        (literalBytes (encodeTypeByte indexing f.sensitive) (literalBits indexing) idx f ++ q)
      = .ok (d.afterLiteral emit (literalType indexing f.sensitive) f, q) := by
  cases indexing with
  | true =>
    rw [hindexing rfl]
    refine Eq.trans ?_ (read_literal (t := 0x40) (n := 6) (by decide) rfl hi hf hidx q)
    simp only [literalBytes, List.append_assoc]
    exact parse_literal_indexed hi _
  | false =>
    have htag : (encodeTypeByte false f.sensitive).toNat % 2 ^ 4 = 0 := by
      cases f.sensitive <;> rfl
    refine Eq.trans ?_ (read_literal (n := 4) (by decide) htag hi hf hidx q)
    simp only [literalBytes, List.append_assoc]
    exact parse_literal_plain f.sensitive hi _

/-- What the decoder adds and delivers is the field that was written. -/
theorem afterLiteral_eq (hindexing : indexing = true → f.sensitive = false) :
    d.afterLiteral emit (literalType indexing f.sensitive) f
      = (if indexing then { d with dynTab := d.dynTab.add f } else d).deliver emit f := by
  obtain ⟨name, value, sensitive⟩ := f
  cases indexing with
  | true =>
    obtain rfl : sensitive = false := hindexing rfl
    rfl
  | false => cases sensitive <;> rfl

/-- A literal field is within what a decoder saves. -/
theorem length_literalBytes_le {t : UInt8} {n L : Nat} (hn : 1 < 2 ^ n) (hidx : idx < 2 ^ 35)
    (hf : realSize f < 2 ^ 32) (hname : f.name.length ≤ L) (hvalue : f.value.length ≤ L) :
    (literalBytes t n idx f).length ≤ 2 * (L + Decoder.varIntOverhead) := by
  rw [realSize] at hf
  have hv := length_appendHpackString_le (s := f.value) (by omega)
  rw [literalBytes, List.length_append, List.length_append, Decoder.varIntOverhead]
  split
  · rename_i hzero
    have hs := length_appendHpackString_le (s := f.name) (by omega)
    rw [hzero, tagged_none hn, List.length_singleton]
    omega
  · have ht := length_tagged_le (t := t) (n := n) hidx
    rw [List.length_nil]
    omega

end IstioVendor.Hpack
