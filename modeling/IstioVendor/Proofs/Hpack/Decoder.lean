import IstioVendor.Hpack.Decode
import IstioVendor.Proofs.Hpack.Huffman
import IstioVendor.Proofs.Hpack.Tables

/-!
# `IstioVendor.Proofs.Hpack.Decoder`: a header block may come in any pieces

`Write` parses representations until one needs more bytes than there are, and keeps the rest for the
next call. The readers are `Local`: what follows a representation does not matter to it, and more
bytes change nothing about an error other than `needMore`. So two pieces give what both together
give (`write_append`), and so do all cuts of a block (`header_block_pieces`). The bound on what is
kept is the one thing that depends on the cut.

`Parsed` is what one representation can do to the decoder, also when it fails.
-/

set_option autoImplicit false

namespace IstioVendor.Hpack

open Lib

/-! ### The readers -/

/-- The error that asks for more bytes. -/
def NeedsMore (e : Err) : Prop := e = .needMore

/-- `errNeedMore` is this error. -/
theorem needsMore_needMore : NeedsMore .needMore := rfl

/-- `readVarIntLoop` as a reader of its first byte. -/
theorem readVarIntLoop_eq (i m : Nat) : readVarIntLoop i m = fun
    | [] => .error .needMore
    | b :: p =>
      if b &&& 128 = 0 then .ok ((i + (b.toNat &&& 127) <<< m) % 2 ^ 64, p)
      else if 63 ≤ m + 7 then .error .varintOverflow
      else readVarIntLoop ((i + (b.toNat &&& 127) <<< m) % 2 ^ 64) (m + 7) p := by
  funext p
  cases p <;> rfl

/-- The loop reads a number from its front. Induction on the bytes. -/
theorem local_readVarIntLoop (i m : Nat) : Local NeedsMore (readVarIntLoop i m) := by
  induction hk : 63 - m using Nat.strongRecOn generalizing i m with
  | _ k ih =>
  rw [readVarIntLoop_eq]
  refine .uncons needsMore_needMore fun b => Local.ite (.pure _) ?_
  by_cases hm : 63 ≤ m + 7
  · simp only [if_pos hm]
    exact .throw _
  · simp only [if_neg hm]
    exact ih (63 - (m + 7)) (by omega) _ _ rfl

/-- `readVarInt` as a reader of its first byte. -/
theorem readVarInt_eq (n : Nat) : readVarInt n = fun
    | [] => .error .needMore
    | b :: p =>
      if lowBits n b < 2 ^ n - 1 then .ok (lowBits n b, p)
      else readVarIntLoop (lowBits n b) 0 p := by
  funext p
  cases p <;> rfl

/-- A number is read from the front. -/
theorem local_readVarInt (n : Nat) : Local NeedsMore (readVarInt n) := by
  exact .uncons needsMore_needMore fun b => .ite (.pure _) (local_readVarIntLoop _ 0)

/-- A number takes at least one byte. -/
theorem shrinks_readVarInt (n : Nat) : Shrinks (readVarInt n) := by
  intro buf i rest h
  cases buf with
  | nil => cases h
  | cons b p =>
    rw [readVarInt] at h
    rw [List.length_cons, Nat.lt_succ_iff]
    split at h
    · cases h
      exact le_rfl
    · exact (local_readVarIntLoop _ 0).length_le h

/-- What `readString` does with a first byte. -/
def readStringAt (maxStrLen : Nat) (wantStr : Bool) (b : UInt8) : Reader Err Bytes := fun p =>
  readVarInt 7 p >>= fun (strLen, p) =>
    if maxStrLen ≠ 0 ∧ maxStrLen < strLen then .error .stringLength
    else if p.length < strLen then .error .needMore
    else stringOf maxStrLen (b &&& 128 ≠ 0) wantStr (p.take strLen) >>= fun s =>
      .ok (s, p.drop strLen)

/-- `readString` as a reader of its first byte. -/
theorem readString_eq (maxStrLen : Nat) (wantStr : Bool) : readString maxStrLen wantStr = fun
    | [] => .error .needMore
    | b :: p => readStringAt maxStrLen wantStr b (b :: p) := by
  funext p
  cases p <;> rfl

/-- The bytes behind the length of a string are read from the front. -/
theorem local_readBody (maxStrLen : Nat) (isHuff wantStr : Bool) (strLen : Nat) :
    Local NeedsMore fun p =>
      if maxStrLen ≠ 0 ∧ maxStrLen < strLen then .error .stringLength
      else if p.length < strLen then .error .needMore
      else stringOf maxStrLen isHuff wantStr (p.take strLen) >>= fun s => .ok (s, p.drop strLen) :=
  .ite (.throw _) (.take needsMore_needMore strLen fun _ => .lift fun s => .pure s)

/-- A string is read from the front. -/
theorem local_readString (maxStrLen : Nat) (wantStr : Bool) :
    Local NeedsMore (readString maxStrLen wantStr) := by
  rw [readString_eq]
  refine .peek needsMore_needMore (fun b => ?_) (fun b => ?_)
  · exact (local_readVarInt 7).bind fun strLen => local_readBody maxStrLen _ wantStr strLen
  · exact (shrinks_readVarInt 7).bind fun strLen => local_readBody maxStrLen _ wantStr strLen

/-! ### The representations -/

variable {buf p rest : Bytes} {e : Err} {f : HeaderField} {it : IndexType} {n nameIdx : Nat}
  {wantStr : Bool} {α : Type}

section
variable {σ : Type} {emit : Emit σ} {d d' : Decoder σ} {I : Decoder σ → Prop}

/-- The error says that the buffer is too short. -/
def StopsForMore (e : Err × Decoder σ) : Prop := NeedsMore e.1

/-- `errNeedMore` stops for more, in any state. -/
theorem stopsForMore_needMore (d : Decoder σ) : StopsForMore (.needMore, d) := rfl

/-- A reader that leaves the decoder as it is stays local. -/
theorem local_unchanged {r : Reader Err α} (h : Local NeedsMore r) :
    Local StopsForMore fun buf => d.unchanged (r buf) := h.mapError fun _ he => he

/-- `callEmit` reads nothing. -/
theorem local_callEmit (hf : HeaderField) :
    Local StopsForMore fun buf => d.callEmit emit hf >>= fun d => .ok (d, buf) :=
  .lift fun d => .pure d

/-- An indexed field is read from the front. -/
theorem local_parseFieldIndexed : Local StopsForMore (d.parseFieldIndexed emit) :=
  (local_unchanged (local_readVarInt 7)).bind fun _ => .lift fun _ => local_callEmit _

/-- A name is read from the front, or from a table. -/
theorem local_readName (wantStr : Bool) (nameIdx : Nat) :
    Local StopsForMore (d.readName wantStr nameIdx) :=
  .ite (.lift fun hf => .pure hf.name) (local_unchanged (local_readString d.maxStrLen wantStr))

/-- A literal field is read from the front. -/
theorem local_parseFieldLiteral (n : Nat) (it : IndexType) :
    Local StopsForMore (d.parseFieldLiteral emit n it) :=
  (local_unchanged (local_readVarInt n)).bind fun nameIdx =>
    (local_readName _ nameIdx).bind fun _ =>
      (local_unchanged (local_readString _ _)).bind fun _ => local_callEmit _

/-- A size update is read from the front. -/
theorem local_parseDynamicTableSizeUpdate : Local StopsForMore d.parseDynamicTableSizeUpdate :=
  (local_unchanged (local_readVarInt 5)).bind fun _ => .ite (.throw _) (.pure _)

/-- A reader that leaves the decoder as it is takes as many bytes. -/
theorem shrinks_unchanged {r : Reader Err α} (h : Shrinks r) :
    Shrinks fun buf => d.unchanged (r buf) := h.mapError

/-- An indexed field takes at least one byte. -/
theorem shrinks_parseFieldIndexed : Shrinks (d.parseFieldIndexed emit) :=
  (shrinks_unchanged (shrinks_readVarInt 7)).bind fun _ => .lift fun _ => local_callEmit _

/-- A literal field takes at least one byte. -/
theorem shrinks_parseFieldLiteral (n : Nat) (it : IndexType) :
    Shrinks (d.parseFieldLiteral emit n it) :=
  (shrinks_unchanged (shrinks_readVarInt n)).bind fun nameIdx =>
    (local_readName _ nameIdx).bind fun _ =>
      (local_unchanged (local_readString _ _)).bind fun _ => local_callEmit _

/-- A size update takes at least one byte. -/
theorem shrinks_parseDynamicTableSizeUpdate : Shrinks d.parseDynamicTableSizeUpdate :=
  (shrinks_unchanged (shrinks_readVarInt 5)).bind fun _ =>
    (.ite (.throw _) (.pure _) : Local StopsForMore _)

/-- What `parseHeaderFieldRepr` does with a first byte. -/
def reprAt (emit : Emit σ) (d : Decoder σ) (b : UInt8) : Reader (Err × Decoder σ) (Decoder σ) :=
  fun buf =>
    if b &&& 128 ≠ 0 then d.parseFieldIndexed emit buf
    else if b &&& 192 = 64 then d.parseFieldLiteral emit 6 .indexedTrue buf
    else if b &&& 240 = 0 then d.parseFieldLiteral emit 4 .indexedFalse buf
    else if b &&& 240 = 16 then d.parseFieldLiteral emit 4 .indexedNever buf
    else if b &&& 224 = 32 then d.parseDynamicTableSizeUpdate buf
    else .error (.invalidEncoding, d)

/-- The first byte decides which representation is read. -/
theorem parseHeaderFieldRepr_eq : d.parseHeaderFieldRepr emit = fun
    | [] => .error (.needMore, d)
    | b :: buf => reprAt emit d b (b :: buf) := by
  funext buf
  cases buf <;> rfl

/-- Each of the five representations is read from the front. -/
theorem local_reprAt (b : UInt8) : Local StopsForMore (reprAt emit d b) :=
  .ite local_parseFieldIndexed (.ite (local_parseFieldLiteral 6 _) (.ite
    (local_parseFieldLiteral 4 _) (.ite (local_parseFieldLiteral 4 _) (.ite
      local_parseDynamicTableSizeUpdate (.throw _)))))

/-- Each of them takes at least one byte. -/
theorem shrinks_reprAt (b : UInt8) : Shrinks (reprAt emit d b) :=
  .ite shrinks_parseFieldIndexed (.ite (shrinks_parseFieldLiteral 6 _) (.ite
    (shrinks_parseFieldLiteral 4 _) (.ite (shrinks_parseFieldLiteral 4 _) (.ite
      shrinks_parseDynamicTableSizeUpdate (shrinks_throw _)))))

/-- What is read from a part of the data is read from all of it. -/
theorem local_parseHeaderFieldRepr (d : Decoder σ) :
    Local StopsForMore (d.parseHeaderFieldRepr emit) := by
  exact .peek (stopsForMore_needMore d) local_reprAt shrinks_reprAt

/-- A pass of the loop of `Write` takes at least one byte. -/
theorem shrinks_parseHeaderFieldRepr (d : Decoder σ) : Shrinks (d.parseHeaderFieldRepr emit) := by
  intro buf d' rest h
  cases buf with
  | nil => cases h
  | cons b buf => exact shrinks_reprAt b _ _ _ h

/-! ### What a representation changes -/

/-- The string is not longer than the decoder allows. -/
def Short (d : Decoder σ) (s : Bytes) : Prop := d.maxStrLen = 0 ∨ s.length ≤ d.maxStrLen

/-- What a representation does to the table. -/
inductive TableChange (d : Decoder σ) : DynamicTable → Prop where
  | same : TableChange d d.dynTab
  | add {name value : Bytes} :
      (Short d name ∨ ∃ i g, Decoder.lookupAt d.dynTab i = some g ∧ g.name = name) →
      Short d value → TableChange d (d.dynTab.add ⟨name, value, false⟩)
  | resize {v : UInt32} : v ≤ d.dynTab.allowedMaxSize → TableChange d (d.dynTab.setMaxSize v)

/-- The allowed size of the table is set from outside only. -/
theorem TableChange.allowedMaxSize {D : DynamicTable} (h : TableChange d D) :
    D.allowedMaxSize = d.dynTab.allowedMaxSize := by
  cases h <;> rfl

/-- What a representation does to the decoder. The callback may be called once. -/
structure Parsed (emit : Emit σ) (d d' : Decoder σ) : Prop where
  table : TableChange d d'.dynTab
  saveBuf : d'.saveBuf = d.saveBuf
  maxStrLen : d'.maxStrLen = d.maxStrLen
  sink : (d'.sink, d'.emitEnabled) = (d.sink, d.emitEnabled) ∨
    ∃ f, Short d f.name ∧ Short d f.value ∧ (d'.sink, d'.emitEnabled) = emit d.sink f

/-- A decoder that did nothing. -/
theorem parsed_refl (d : Decoder σ) : Parsed emit d d := ⟨.same, rfl, rfl, .inl rfl⟩

/-- An error of a reader that leaves the decoder as it is. -/
theorem unchanged_eq_error {x : Except Err α} :
    d.unchanged x = .error (e, d') ↔ x = .error e ∧ d' = d := by
  rw [Decoder.unchanged, except_mapError_eq_error]
  constructor
  · rintro ⟨e', hx, he⟩
    cases he
    exact ⟨hx, rfl⟩
  · rintro ⟨hx, rfl⟩
    exact ⟨e, hx, rfl⟩

/-- An index is read when there is an entry for it. -/
theorem fieldAt_eq_ok {i : Nat} : d.fieldAt i = .ok f ↔ Decoder.lookupAt d.dynTab i = some f := by
  rw [Decoder.fieldAt]
  cases Decoder.lookupAt d.dynTab i with
  | none => exact ⟨nofun, nofun⟩
  | some g => exact ⟨fun h => congrArg _ (Except.ok.inj h), fun h => congrArg _ (Option.some.inj h)⟩

/-- The error of an index without an entry. -/
theorem fieldAt_eq_error {i : Nat} (h : d.fieldAt i = .error (e, d')) :
    e = .invalidIndex i ∧ d' = d := by
  rw [Decoder.fieldAt] at h
  split at h
  · cases h
    exact ⟨rfl, rfl⟩
  · cases h

/-- `callEmit` passes a field on that is not too long, unless emitting is off. -/
theorem callEmit_eq_ok (h : d.callEmit emit f = .ok d') :
    Short d f.name ∧ Short d f.value ∧
      d' = if d.emitEnabled then
        { d with sink := (emit d.sink f).1, emitEnabled := (emit d.sink f).2 } else d := by
  rw [Decoder.callEmit] at h
  split at h
  · cases h
  · rename_i hshort
    refine ⟨by rw [Short]; omega, by rw [Short]; omega, ?_⟩
    split at h
    · rename_i henabled
      rw [if_pos henabled]
      exact (Except.ok.inj h).symm
    · rename_i henabled
      rw [if_neg henabled]
      exact (Except.ok.inj h).symm

/-- The error of `callEmit` is that of a string that is too long. -/
theorem callEmit_eq_error (h : d.callEmit emit f = .error (e, d')) :
    e = .stringLength ∧ d' = d := by
  rw [Decoder.callEmit] at h
  split at h
  · cases h
    exact ⟨rfl, rfl⟩
  · split at h <;> cases h

/-- The text of a string within the limit is within the limit. -/
theorem stringOf_short {isHuff : Bool} {s t : Bytes}
    (h : stringOf d.maxStrLen isHuff wantStr s = .ok t) (hs : Short d s) : Short d t := by
  rw [stringOf] at h
  split at h
  · cases h
    cases wantStr with
    | true => exact hs
    | false => exact .inr (Nat.zero_le _)
  · split at h
    · exact ((huffmanDecode_eq_ok_iff _ _ _).mp h).fits
    · cases h
      exact .inr (Nat.zero_le _)

/-- A string that is read is within the limit. -/
theorem readString_short {s : Bytes} (h : readString d.maxStrLen wantStr buf = .ok (s, rest)) :
    Short d s := by
  cases buf with
  | nil => cases h
  | cons b p =>
    obtain ⟨⟨strLen, p'⟩, -, h⟩ := except_bind_eq_ok.mp h
    simp only at h
    split at h
    · cases h
    · rename_i hmax
      split at h
      · cases h
      · obtain ⟨t, ht, ⟨⟩⟩ := except_bind_eq_ok.mp h
        refine stringOf_short ht ?_
        rw [Short, List.length_take]
        omega

/-- A name is within the limit, or it is that of an entry. -/
theorem readName_eq_ok {name : Bytes} (h : d.readName wantStr nameIdx buf = .ok (name, rest)) :
    Short d name ∨ ∃ i g, Decoder.lookupAt d.dynTab i = some g ∧ g.name = name := by
  rw [Decoder.readName] at h
  split at h
  · obtain ⟨g, hg, ⟨⟩⟩ := except_bind_eq_ok.mp h
    exact .inr ⟨nameIdx, g, fieldAt_eq_ok.mp hg, rfl⟩
  · exact .inl (readString_short (except_mapError_eq_ok.mp h))

/-- A name that cannot be read changes nothing. -/
theorem readName_eq_error (h : d.readName wantStr nameIdx buf = .error (e, d')) : d' = d := by
  rw [Decoder.readName] at h
  split at h
  · obtain h | ⟨g, -, h⟩ := except_bind_eq_error.mp h
    · exact (fieldAt_eq_error h).2
    · cases h
  · exact (unchanged_eq_error.mp h).2

/-- The call of the callback behind a change of the table. -/
theorem Parsed.callEmit {d₁ : Decoder σ} (htable : TableChange d d₁.dynTab)
    (hd₁ : d₁ = { d with dynTab := d₁.dynTab }) (h : d₁.callEmit emit f = .ok d') :
    Parsed emit d d' := by
  obtain ⟨hname, hvalue, rfl⟩ := callEmit_eq_ok h
  have hshort : ∀ s, Short d₁ s → Short d s := fun s hs => by rw [hd₁] at hs; exact hs
  split
  · refine ⟨htable, by rw [hd₁], by rw [hd₁], .inr ⟨f, hshort _ hname, hshort _ hvalue, ?_⟩⟩
    rw [hd₁]
  · exact ⟨htable, by rw [hd₁], by rw [hd₁], .inl (by rw [hd₁])⟩

/-- What an indexed field does to the decoder. -/
theorem parsed_parseFieldIndexed (h : d.parseFieldIndexed emit buf = .ok (d', rest)) :
    Parsed emit d d' := by
  obtain ⟨⟨idx, buf'⟩, -, h⟩ := except_bind_eq_ok.mp h
  obtain ⟨f, -, h⟩ := except_bind_eq_ok.mp h
  obtain ⟨d₁, hemit, ⟨⟩⟩ := except_bind_eq_ok.mp h
  exact Parsed.callEmit .same rfl hemit

/-- An indexed field that fails changes nothing. -/
theorem error_parseFieldIndexed (h : d.parseFieldIndexed emit buf = .error (e, d')) : d' = d := by
  obtain h | ⟨⟨idx, buf'⟩, -, h⟩ := except_bind_eq_error.mp h
  · exact (unchanged_eq_error.mp h).2
  obtain h | ⟨f, -, h⟩ := except_bind_eq_error.mp h
  · exact (fieldAt_eq_error h).2
  obtain h | ⟨d₁, -, h⟩ := except_bind_eq_error.mp h
  · exact (callEmit_eq_error h).2
  · cases h

/-- A literal field adds an entry within the limit, or none. -/
theorem tableChange_literal {buf' buf'' name value : Bytes}
    (hname : d.readName wantStr nameIdx buf = .ok (name, buf'))
    (hvalue : d.unchanged (readString d.maxStrLen wantStr buf'') = .ok (value, rest)) :
    let d₁ := if it.indexed then { d with dynTab := d.dynTab.add ⟨name, value, false⟩ } else d
    TableChange d d₁.dynTab ∧ d₁ = { d with dynTab := d₁.dynTab } := by
  have hshort := readString_short (except_mapError_eq_ok.mp hvalue)
  cases it.indexed with
  | false => exact ⟨.same, rfl⟩
  | true => exact ⟨.add (readName_eq_ok hname) hshort, rfl⟩

/-- What a literal field does to the decoder. -/
theorem parsed_parseFieldLiteral (h : d.parseFieldLiteral emit n it buf = .ok (d', rest)) :
    Parsed emit d d' := by
  obtain ⟨⟨nameIdx, buf₁⟩, -, h⟩ := except_bind_eq_ok.mp h
  obtain ⟨⟨name, buf₂⟩, hname, h⟩ := except_bind_eq_ok.mp h
  obtain ⟨⟨value, buf₃⟩, hvalue, h⟩ := except_bind_eq_ok.mp h
  obtain ⟨d₁, hemit, ⟨⟩⟩ := except_bind_eq_ok.mp h
  obtain ⟨htable, hd₁⟩ := tableChange_literal hname hvalue
  exact Parsed.callEmit htable hd₁ hemit

/-- A literal field that fails may have added its entry, but not when bytes are missing. -/
theorem error_parseFieldLiteral (h : d.parseFieldLiteral emit n it buf = .error (e, d')) :
    Parsed emit d d' ∧ (e = .needMore → d' = d) := by
  have hsame : d' = d → Parsed emit d d' ∧ (e = .needMore → d' = d) := by
    rintro rfl
    exact ⟨parsed_refl d', fun _ => rfl⟩
  obtain h | ⟨⟨nameIdx, buf₁⟩, -, h⟩ := except_bind_eq_error.mp h
  · exact hsame (unchanged_eq_error.mp h).2
  obtain h | ⟨⟨name, buf₂⟩, hname, h⟩ := except_bind_eq_error.mp h
  · exact hsame (readName_eq_error h)
  obtain h | ⟨⟨value, buf₃⟩, hvalue, h⟩ := except_bind_eq_error.mp h
  · exact hsame (unchanged_eq_error.mp h).2
  obtain h | ⟨d₁, -, h⟩ := except_bind_eq_error.mp h
  · -- The field is in the table already when the callback refuses it.
    obtain ⟨rfl, rfl⟩ := callEmit_eq_error h
    obtain ⟨htable, hd₁⟩ := tableChange_literal hname hvalue
    refine ⟨⟨htable, ?_, ?_, .inl ?_⟩, nofun⟩ <;> rw [hd₁]
  · cases h

/-- What a size update does to the decoder. -/
theorem parsed_parseDynamicTableSizeUpdate
    (h : d.parseDynamicTableSizeUpdate buf = .ok (d', rest)) : Parsed emit d d' := by
  obtain ⟨⟨size, buf'⟩, -, h⟩ := except_bind_eq_ok.mp h
  simp only at h
  split at h
  · cases h
  · rename_i hle
    cases h
    refine ⟨.resize (UInt32.le_iff_toNat_le.mpr ?_), rfl, rfl, .inl rfl⟩
    exact (Nat.mod_le _ _).trans (not_lt.mp hle)

/-- A size update that fails changes nothing. -/
theorem error_parseDynamicTableSizeUpdate (h : d.parseDynamicTableSizeUpdate buf = .error (e, d')) :
    d' = d := by
  obtain h | ⟨⟨size, buf'⟩, -, h⟩ := except_bind_eq_error.mp h
  · exact (unchanged_eq_error.mp h).2
  · simp only at h
    split at h
    · cases h
      rfl
    · cases h

/-- What a representation does that is accepted. -/
theorem parsed_of_ok (h : d.parseHeaderFieldRepr emit buf = .ok (d', rest)) : Parsed emit d d' := by
  cases buf with
  | nil => cases h
  | cons b buf =>
    rw [Decoder.parseHeaderFieldRepr] at h
    split_ifs at h
    · exact parsed_parseFieldIndexed h
    · exact parsed_parseFieldLiteral h
    · exact parsed_parseFieldLiteral h
    · exact parsed_parseFieldLiteral h
    · exact parsed_parseDynamicTableSizeUpdate h

/-- What a representation does that is not accepted. Nothing, when more text is needed. -/
theorem parsed_of_error (h : d.parseHeaderFieldRepr emit buf = .error (e, d')) :
    Parsed emit d d' ∧ (e = .needMore → d' = d) := by
  have hsame : d' = d → Parsed emit d d' ∧ (e = .needMore → d' = d) := by
    rintro rfl
    exact ⟨parsed_refl d', fun _ => rfl⟩
  cases buf with
  | nil =>
    cases h
    exact hsame rfl
  | cons b buf =>
    rw [Decoder.parseHeaderFieldRepr] at h
    split_ifs at h
    · exact hsame (error_parseFieldIndexed h)
    · exact error_parseFieldLiteral h
    · exact error_parseFieldLiteral h
    · exact error_parseFieldLiteral h
    · exact hsame (error_parseDynamicTableSizeUpdate h)
    · cases h
      exact hsame rfl

/-! ### Pieces -/

/-- The items of a buffer, from a decoder that has nothing saved. -/
def readItems (emit : Emit σ) (d : Decoder σ) (buf : Bytes) :
    Except ((Err × Decoder σ) × Bytes) (Decoder σ) :=
  drain (Decoder.parseHeaderFieldRepr emit) buf.length d buf

/-- What the items keep. -/
structure Kept (d d' : Decoder σ) : Prop where
  saveBuf : d'.saveBuf = d.saveBuf
  maxStrLen : d'.maxStrLen = d.maxStrLen

/-- A pass keeps the buffer and the limit. -/
theorem Parsed.kept (h : Parsed emit d d') : Kept d d' := ⟨h.saveBuf, h.maxStrLen⟩

/-- Several passes keep them too. -/
theorem Kept.trans {d'' : Decoder σ} (h : Kept d d') (h' : Kept d' d'') : Kept d d'' :=
  ⟨h'.saveBuf.trans h.saveBuf, h'.maxStrLen.trans h.maxStrLen⟩

/-- What every representation keeps, the items of a buffer keep. -/
theorem readItems_inv (hstep : ∀ d d', I d → Parsed emit d d' → I d') (h : I d) (buf : Bytes) :
    (∀ d', readItems emit d buf = .ok d' → I d') ∧
      ∀ e d' rest, readItems emit d buf = .error ((e, d'), rest) → I d' := by
  have hok : ∀ d buf d' rest, I d →
      Decoder.parseHeaderFieldRepr emit d buf = .ok (d', rest) → I d' :=
    fun d _ d' _ hd hparse => hstep d d' hd (parsed_of_ok hparse)
  refine ⟨(drain_inv hok h).1, fun e d' rest herr => ?_⟩
  obtain ⟨d₁, hd₁, herr⟩ := (drain_inv hok h).2 _ _ herr
  exact hstep _ _ hd₁ (parsed_of_error herr).1

/-- The loop of `Write` keeps the buffer and the limit. -/
theorem kept_of_readItems (d : Decoder σ) (buf : Bytes) :
    (∀ d', readItems emit d buf = .ok d' → Kept d d') ∧
      ∀ e d' rest, readItems emit d buf = .error ((e, d'), rest) → Kept d d' :=
  readItems_inv (fun _ _ hk hd => hk.trans hd.kept) ⟨rfl, rfl⟩ buf

/-- The buffer that is saved is too long. -/
def TooLong (d : Decoder σ) (buf : Bytes) : Prop :=
  d.maxStrLen ≠ 0 ∧ 2 * (d.maxStrLen + Decoder.varIntOverhead) < buf.length

/-- The decoder at the start of a `Write`, and the buffer that it parses. -/
def Decoder.started (d : Decoder σ) : Decoder σ := { d with saveBuf := [] }

/-- The buffer is taken out at the start of the next `Write`. -/
theorem started_saved (h : d'.saveBuf = []) (s : Bytes) :
    Decoder.started { d' with saveBuf := s } = d' := by
  obtain ⟨dynTab, emitEnabled, maxStrLen, saveBuf, sink⟩ := d'
  cases h
  rfl

/-- `Write` of data that ends with a representation. -/
theorem write_of_ok (hp : p ≠ []) (h : readItems emit d.started (d.saveBuf ++ p) = .ok d') :
    d.write emit p = (d', p.length, none) := by
  rw [Decoder.write, if_neg hp]
  simp only
  rw [readItems, Decoder.started] at h
  rw [h]

/-- `Write` of data with an error in it. -/
theorem write_of_error (hp : p ≠ [])
    (h : readItems emit d.started (d.saveBuf ++ p) = .error ((e, d'), rest)) (he : e ≠ .needMore) :
    d.write emit p = (d', p.length, some e) := by
  rw [Decoder.write, if_neg hp]
  simp only
  rw [readItems, Decoder.started] at h
  rw [h]
  exact if_pos he

/-- `Write` of data that ends inside a representation: it is kept, unless it is too long. -/
theorem write_of_more (hp : p ≠ [])
    (h : readItems emit d.started (d.saveBuf ++ p) = .error ((.needMore, d'), rest)) :
    (TooLong d' rest → d.write emit p = (d', 0, some .stringLength)) ∧
      (¬ TooLong d' rest → d.write emit p = ({ d' with saveBuf := rest }, p.length, none)) := by
  rw [Decoder.write, if_neg hp]
  simp only
  rw [readItems, Decoder.started] at h
  rw [h]
  exact ⟨fun hlong => if_pos hlong, fun hlong => if_neg hlong⟩

/-- A second piece goes on where the first one ended. -/
theorem readItems_append (hp : p ≠ []) (h : (d.write emit p).2.2 = none) (q : Bytes) :
    Kept d.started (d.write emit p).1.started ∧
      readItems emit d.started (d.saveBuf ++ (p ++ q))
        = readItems emit (d.write emit p).1.started ((d.write emit p).1.saveBuf ++ q) := by
  rw [← List.append_assoc]
  cases hitems : readItems emit d.started (d.saveBuf ++ p) with
  | ok d' =>
    have hk := (kept_of_readItems _ _).1 _ hitems
    have hstarted : d'.started = d' := started_saved hk.saveBuf d'.saveBuf
    have hsave : d'.saveBuf = [] := hk.saveBuf
    rw [write_of_ok hp hitems, hstarted, hsave, List.nil_append]
    exact ⟨hk, drain_append_of_ok shrinks_parseHeaderFieldRepr local_parseHeaderFieldRepr hitems q⟩
  | error out =>
    obtain ⟨⟨e, d'⟩, rest⟩ := out
    have hk := (kept_of_readItems _ _).2 _ _ _ hitems
    by_cases he : e = .needMore
    · subst he
      by_cases hlong : TooLong d' rest
      · rw [(write_of_more hp hitems).1 hlong] at h
        cases h
      · rw [(write_of_more hp hitems).2 hlong]
        obtain ⟨d₁, hstep, -, hdrain⟩ := drain_append_of_more shrinks_parseHeaderFieldRepr
          local_parseHeaderFieldRepr hitems
        obtain rfl := (parsed_of_error hstep).2 rfl
        rw [started_saved hk.saveBuf]
        exact ⟨hk, hdrain q⟩
    · rw [write_of_error hp hitems he] at h
      cases h

/-- The decoder and the error after a `Write`. -/
def outcome (out : Decoder σ × Nat × Option Err) : Decoder σ × Option Err := (out.1, out.2.2)

/-- What `Write` does depends on the items only. -/
theorem outcome_write_congr {p' : Bytes} (hp : p ≠ []) (hp' : p' ≠ [])
    (h : readItems emit d.started (d.saveBuf ++ p) = readItems emit d'.started (d'.saveBuf ++ p')) :
    outcome (d.write emit p) = outcome (d'.write emit p') := by
  cases hitems : readItems emit d'.started (d'.saveBuf ++ p') with
  | ok d₁ => rw [write_of_ok hp (h.trans hitems), write_of_ok hp' hitems]; rfl
  | error out =>
    obtain ⟨⟨e, d₁⟩, rest⟩ := out
    by_cases he : e = .needMore
    · subst he
      by_cases hlong : TooLong d₁ rest
      · rw [(write_of_more hp (h.trans hitems)).1 hlong, (write_of_more hp' hitems).1 hlong]
      · rw [(write_of_more hp (h.trans hitems)).2 hlong, (write_of_more hp' hitems).2 hlong]
        rfl
    · rw [write_of_error hp (h.trans hitems) he, write_of_error hp' hitems he]
      rfl

/-- `Write` of nothing. -/
theorem write_nil (d : Decoder σ) : d.write emit [] = (d, 0, none) := if_pos rfl

/-- Two calls of `Write` come to what one call with all bytes comes to. -/
theorem write_append (h : (d.write emit p).2.2 = none) (q : Bytes) :
    outcome ((d.write emit p).1.write emit q) = outcome (d.write emit (p ++ q)) := by
  by_cases hp : p = []
  · rw [hp, write_nil, List.nil_append]
  · by_cases hq : q = []
    · rw [hq, write_nil, List.append_nil, outcome, outcome, h]
    · exact outcome_write_congr hq (by simp [hp]) (readItems_append hp h q).2.symm

/-- An error in the first piece is an error of the whole. The bound on what is saved is apart. -/
theorem write_append_of_error (h : (d.write emit p).2.2 = some e) (hmax : d.maxStrLen = 0)
    (q : Bytes) : outcome (d.write emit (p ++ q)) = outcome (d.write emit p) := by
  have hp : p ≠ [] := by
    rintro rfl
    cases h
  cases hitems : readItems emit d.started (d.saveBuf ++ p) with
  | ok d' =>
    rw [write_of_ok hp hitems] at h
    cases h
  | error out =>
    obtain ⟨⟨e', d'⟩, rest⟩ := out
    by_cases he : e' = .needMore
    · subst he
      have hlong : ¬ TooLong d' rest := fun hlong =>
        hlong.1 (((kept_of_readItems _ _).2 _ _ _ hitems).maxStrLen.trans hmax)
      rw [(write_of_more hp hitems).2 hlong] at h
      cases h
    · have happend := drain_append_of_fail shrinks_parseHeaderFieldRepr local_parseHeaderFieldRepr
        hitems he q
      rw [List.append_assoc] at happend
      rw [write_of_error hp hitems he, write_of_error (by simp [hp]) happend he]
      rfl

/-- What every representation keeps holds after a `Write`, which may then save the rest. -/
theorem write_inv (hstep : ∀ d d', I d → Parsed emit d d' → I d') (hp : p ≠ []) (h : I d.started) :
    ∃ d', I d' ∧ ((d.write emit p).1 = d' ∨
      ∃ rest, ¬ TooLong d' rest ∧ (d.write emit p).1 = { d' with saveBuf := rest }) := by
  have hitems := readItems_inv hstep h (d.saveBuf ++ p)
  cases hread : readItems emit d.started (d.saveBuf ++ p) with
  | ok d' =>
    refine ⟨d', hitems.1 d' hread, .inl ?_⟩
    rw [write_of_ok hp hread]
  | error out =>
    obtain ⟨⟨e, d'⟩, rest⟩ := out
    refine ⟨d', hitems.2 _ _ _ hread, ?_⟩
    by_cases he : e = .needMore
    · subst he
      by_cases hlong : TooLong d' rest
      · left
        rw [(write_of_more hp hread).1 hlong]
      · right
        exact ⟨rest, hlong, by rw [(write_of_more hp hread).2 hlong]⟩
    · left
      rw [write_of_error hp hread he]

/-- `Write` does not change the limit. -/
theorem maxStrLen_write (d : Decoder σ) (p : Bytes) :
    (d.write emit p).1.maxStrLen = d.maxStrLen := by
  by_cases hp : p = []
  · rw [hp, write_nil]
  · obtain ⟨d', hd', heq | ⟨rest, -, heq⟩⟩ := write_inv (d := d)
      (I := fun d' => d'.maxStrLen = d.maxStrLen) (fun _ _ h hs => hs.maxStrLen.trans h) hp rfl
    · rw [heq]
      exact hd'
    · rw [heq]
      exact hd'

/-- Writes piece after piece, up to the first error. -/
def writeAll (emit : Emit σ) : Decoder σ → List Bytes → Decoder σ × Option Err
  | d, [] => (d, none)
  | d, p :: ps =>
    match d.write emit p with
    | (d, _, none) => writeAll emit d ps
    | (d, _, some e) => (d, some e)

/-- The calls go on after one without an error. -/
theorem writeAll_cons_of_none (h : (d.write emit p).2.2 = none) (ps : List Bytes) :
    writeAll emit d (p :: ps) = writeAll emit (d.write emit p).1 ps := by
  rw [writeAll]
  generalize d.write emit p = out at h
  obtain ⟨d', n, e⟩ := out
  cases h
  rfl

/-- The calls end with the first error. -/
theorem writeAll_cons_of_some (h : (d.write emit p).2.2 = some e) (ps : List Bytes) :
    writeAll emit d (p :: ps) = outcome (d.write emit p) := by
  rw [writeAll]
  generalize d.write emit p = out at h
  obtain ⟨d', n, e'⟩ := out
  cases h
  rfl

/-- The run lemma: the calls come to one call with all bytes. Induction on the calls. -/
theorem writeAll_eq_write (emit : Emit σ) (d : Decoder σ) (ps : List Bytes)
    (h : (writeAll emit d ps).2 = none ∨ d.maxStrLen = 0) :
    writeAll emit d ps = outcome (d.write emit ps.flatten) := by
  induction ps generalizing d with
  | nil => rw [List.flatten_nil, write_nil]; rfl
  | cons p ps ih =>
    rw [List.flatten_cons]
    cases hwrite : (d.write emit p).2.2 with
    | none =>
      rw [writeAll_cons_of_none hwrite] at h ⊢
      rw [← write_append hwrite]
      exact ih _ (h.imp_right fun hmax => (maxStrLen_write d p).trans hmax)
    | some e =>
      -- The whole block fails too, but for the bound on what is saved.
      rw [writeAll_cons_of_some hwrite] at h ⊢
      have hmax : d.maxStrLen = 0 := h.resolve_left (by rw [outcome, hwrite]; nofun)
      exact (write_append_of_error hwrite hmax _).symm

/-- How a header block is cut into pieces does not matter: not at all without a bound on the
strings, and otherwise not for blocks that are accepted. -/
theorem header_block_pieces (emit : Emit σ) (d : Decoder σ) {ps qs : List Bytes}
    (h : ps.flatten = qs.flatten)
    (hok : d.maxStrLen = 0 ∨ (writeAll emit d ps).2 = none ∧ (writeAll emit d qs).2 = none) :
    writeAll emit d ps = writeAll emit d qs := by
  rw [writeAll_eq_write emit d ps (hok.symm.imp_left And.left),
    writeAll_eq_write emit d qs (hok.symm.imp_left And.right), h]

/-- A callback that keeps all fields. -/
def collect : Emit (List HeaderField) := fun fs f => (fs ++ [f], true)

/-- A literal field and an indexed one. The cuts are inside the strings of the literal field, and the
strings are limited. -/
theorem header_block_pieces_twoFields :
    let d := (newDecoder 4096 []).setMaxStringLength 8
    writeAll collect d [[0x40, 0x01, 0x61, 0x02, 0x62, 0x63, 0x82]]
      = writeAll collect d [[0x40, 0x01], [0x61, 0x02, 0x62], [], [0x63, 0x82]] ∧
    (writeAll collect d [[0x40, 0x01], [0x61, 0x02, 0x62], [], [0x63, 0x82]]).1.sink
      = [⟨[0x61], [0x62, 0x63], false⟩, ⟨ascii ":method", ascii "GET", false⟩] := by
  refine ⟨header_block_pieces collect _ rfl (.inr ⟨?_, ?_⟩), ?_⟩
  · decide +kernel
  · decide +kernel
  · decide +kernel

end

end IstioVendor.Hpack
