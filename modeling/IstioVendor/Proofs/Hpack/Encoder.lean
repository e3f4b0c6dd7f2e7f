import IstioVendor.Hpack.Decode
import IstioVendor.Hpack.Encode
import IstioVendor.Proofs.Hpack.Tables

/-!
# `IstioVendor.Proofs.Hpack.Encoder`: the encoder uses an index whenever there is one

The index of an entry is what the decoder looks up, `lookupAt`. `Finds` says what `searchTable`
returns in these terms, and `Wrote` what `WriteField` does with it: an index, or a literal field
that goes into the table or not. `Sound` holds after all calls. Every entry is a field that was
written, so with fewer than `2 ^ 64` of them the encoder does not panic (`encoder_search_exact`).
-/

set_option autoImplicit false

namespace IstioVendor.Hpack

open Lib

/-! ### Indices -/

theorem lookupAt_eq (dt : DynamicTable) (i : Nat) :
    Decoder.lookupAt dt i =
      if i = 0 then none
      else if i ≤ staticTable.len then staticTable.ents[i - 1]?
      else if Decoder.maxTableIndex dt < i then none
      else dt.table.ents[dt.table.len - (i - staticTable.len)]? := by
  rw [Decoder.lookupAt]
  split_ifs
  · rfl
  · exact (List.getElem?_eq_getElem _).symm
  · rfl
  · exact (List.getElem?_eq_getElem _).symm

variable {dt : DynamicTable} {g f : HeaderField} {i : Nat} {e e' : Encoder} {ws : List HeaderField}

theorem le_maxTableIndex_of_lookupAt (h : Decoder.lookupAt dt i = some g) :
    i ≤ Decoder.maxTableIndex dt := by
  rw [lookupAt_eq] at h
  split_ifs at h with h0 hstatic hmax
  · rw [Decoder.maxTableIndex]
    omega
  · exact not_lt.mp hmax

theorem lookupAt_static {old new : List HeaderField} (h : staticTable.ents = old ++ g :: new)
    (dt : DynamicTable) : Decoder.lookupAt dt (old.length + 1) = some g := by
  have hlen : old.length + 1 ≤ staticTable.len := by
    rw [HeaderFieldTable.len, h, List.length_append, List.length_cons]
    omega
  rw [lookupAt_eq, if_neg (Nat.succ_ne_zero _), if_pos hlen, Nat.add_sub_cancel, h]
  simp

theorem lookupAt_dynamic {old new : List HeaderField} (h : dt.table.ents = old ++ g :: new) :
    Decoder.lookupAt dt (new.length + 1 + staticTable.len) = some g := by
  have hlen : dt.table.len = old.length + (new.length + 1) := by
    rw [HeaderFieldTable.len, h, List.length_append, List.length_cons]
  have hindex : old.length + (new.length + 1) - (new.length + 1 + staticTable.len - staticTable.len)
      = old.length := by omega
  rw [lookupAt_eq, if_neg (by omega), if_neg (by omega), Decoder.maxTableIndex, hlen,
    if_neg (by omega), hindex, h]
  simp

/-- The indices of a table go on in a table of which it is the newest part. -/
theorem lookupAt_of_suffix {dt' : DynamicTable} (h : dt.table.ents <:+ dt'.table.ents)
    (hi : Decoder.lookupAt dt i = some g) : Decoder.lookupAt dt' i = some g := by
  obtain ⟨pre, hpre⟩ := h
  have hlen : dt'.table.len = pre.length + dt.table.len := by
    rw [HeaderFieldTable.len, ← hpre, List.length_append]
    rfl
  rw [lookupAt_eq] at hi ⊢
  split_ifs at hi with h0 hstatic hmax
  · rw [if_neg h0, if_pos hstatic]
    exact hi
  · rw [Decoder.maxTableIndex] at hmax
    have hindex : pre.length + dt.table.len - (i - staticTable.len)
        = pre.length + (dt.table.len - (i - staticTable.len)) := by omega
    rw [if_neg h0, if_neg hstatic, Decoder.maxTableIndex, hlen, if_neg (by omega), ← hpre, hindex,
      List.getElem?_append_right (Nat.le_add_right ..), Nat.add_sub_cancel_left]
    exact hi

/-! ### Searches -/

/-- What `searchTable` finds. -/
structure Encoder.Finds (e : Encoder) (f : HeaderField) (i : Nat) (m : Bool) : Prop where
  /-- The index is that of an entry with the name and the value, or with the name. -/
  entry : i ≠ 0 → ∃ g, Decoder.lookupAt e.dynTab i = some g ∧ g.name = f.name ∧
    (m = true → g.value = f.value)
  found : m = true → i ≠ 0 ∧ f.sensitive = false
  /-- Without a match there is no entry with the name and the value, but for a sensitive field. -/
  noPair : m = false → f.sensitive = true ∨
    ∀ g, g ∈ staticTable.ents ∨ g ∈ e.dynTab.table.ents → g.pair ≠ f.pair
  /-- The index is zero when no entry has the name. -/
  noName : i = 0 → ∀ g, g ∈ staticTable.ents ∨ g ∈ e.dynTab.table.ents → g.name ≠ f.name

/-- The index of an entry of the static table that `search` found. -/
theorem entry_of_static {m : Bool} (h : staticTable.Found true f i m) (hi : i ≠ 0)
    (dt : DynamicTable) :
    ∃ g, Decoder.lookupAt dt i = some g ∧ g.name = f.name ∧ (m = true → g.value = f.value) := by
  cases h with
  | field _ hents hg _ =>
    exact ⟨_, lookupAt_static hents dt, congrArg Prod.fst hg, fun _ => congrArg Prod.snd hg⟩
  | name _ hents hg _ => exact ⟨_, lookupAt_static hents dt, hg, nofun⟩
  | nothing _ => exact absurd rfl hi

/-- The index of an entry of the dynamic table that `search` found. -/
theorem entry_of_dynamic {m : Bool} (h : dt.table.Found false f i m) (hi : i ≠ 0) :
    ∃ g, Decoder.lookupAt dt (i + staticTable.len) = some g ∧ g.name = f.name ∧
      (m = true → g.value = f.value) := by
  cases h with
  | field _ hents hg _ =>
    exact ⟨_, lookupAt_dynamic hents, congrArg Prod.fst hg, fun _ => congrArg Prod.snd hg⟩
  | name _ hents hg _ => exact ⟨_, lookupAt_dynamic hents, hg, nofun⟩
  | nothing _ => exact absurd rfl hi

namespace HeaderFieldTable.Found

variable {t : HeaderFieldTable} {isStatic : Bool} {f : HeaderField} {i : Nat}

theorem of_true (h : t.Found isStatic f i true) : i ≠ 0 ∧ f.sensitive = false := by
  cases h with
  | field hs _ _ _ =>
    refine ⟨?_, hs⟩
    rw [indexOf]
    split <;> exact Nat.succ_ne_zero _

theorem noPair (h : t.Found isStatic f i false) :
    f.sensitive = true ∨ ∀ g ∈ t.ents, g.pair ≠ f.pair := by
  cases h with
  | name hno _ _ _ => exact hno
  | nothing hno => exact .inr fun g hg hpair => hno g hg (congrArg Prod.fst hpair)

theorem noName (h : t.Found isStatic f 0 false) : ∀ g ∈ t.ents, g.name ≠ f.name := by
  generalize hi : 0 = j at h
  cases h with
  | name _ _ _ _ =>
    rw [indexOf] at hi
    split at hi <;> exact absurd hi.symm (Nat.succ_ne_zero _)
  | nothing hno => exact hno

end HeaderFieldTable.Found

/-- A search in both tables does not panic. -/
theorem Encoder.searchTable_spec (h : e.dynTab.table.Indexed) (f : HeaderField) :
    ∃ i m, e.searchTable f = some (i, m) ∧ e.Finds f i m := by
  obtain ⟨i, m, hstatic, hi⟩ := indexed_staticTable.search true f
  rw [Encoder.searchTable, hstatic]
  cases m with
  | true =>
    refine ⟨i, true, rfl, ⟨fun hne => entry_of_static hi hne _, fun _ => hi.of_true, nofun, ?_⟩⟩
    exact fun hzero => absurd hzero hi.of_true.1
  | false =>
    obtain ⟨j, m', hdynamic, hj⟩ := h.search false f
    simp only [Option.bind_eq_bind, Option.bind_some, hdynamic]
    cases m' with
    | true =>
      refine ⟨j + staticTable.len, true, rfl,
        ⟨fun _ => entry_of_dynamic hj hj.of_true.1, fun _ => ?_, nofun, fun hzero => ?_⟩⟩
      · exact ⟨by have := hj.of_true.1; omega, hj.of_true.2⟩
      · exact absurd (Nat.eq_zero_of_add_eq_zero_right hzero) hj.of_true.1
    | false =>
      -- Neither table has the field. An index of the static table comes first for the name.
      have hno : f.sensitive = true ∨
          ∀ g, g ∈ staticTable.ents ∨ g ∈ e.dynTab.table.ents → g.pair ≠ f.pair := by
        rcases hi.noPair with hs | hi
        · exact .inl hs
        · exact hj.noPair.imp_right fun hj g hg => hg.elim (hi g) (hj g)
      by_cases huse : i = 0 ∧ j ≠ 0
      · refine ⟨j + staticTable.len, false, by simp [huse],
          ⟨fun _ => entry_of_dynamic hj huse.2,
          nofun, fun _ => hno, fun hzero => ?_⟩⟩
        exact absurd (Nat.eq_zero_of_add_eq_zero_right hzero) huse.2
      · refine ⟨i, false, by simp [huse], ⟨fun hne => entry_of_static hi hne _, nofun,
          fun _ => hno, ?_⟩⟩
        rintro rfl
        obtain rfl : j = 0 := by
          by_contra hne
          exact huse ⟨rfl, hne⟩
        exact fun g hg => hg.elim (hi.noName g) (hj.noName g)

/-! ### Runs -/

/-- A call of a method of the encoder. -/
inductive EncoderCall where
  | writeField (f : HeaderField)
  | setMaxDynamicTableSize (v : UInt32)
  | setMaxDynamicTableSizeLimit (v : UInt32)

/-- A call, and the bytes that it writes. -/
def Encoder.call (e : Encoder) : EncoderCall → Option (Encoder × Bytes)
  | .writeField f => e.writeField f
  | .setMaxDynamicTableSize v => some (e.setMaxDynamicTableSize v, [])
  | .setMaxDynamicTableSizeLimit v => some (e.setMaxDynamicTableSizeLimit v, [])

/-- Call after call, and all bytes. -/
def Encoder.run (e : Encoder) : List EncoderCall → Option (Encoder × Bytes)
  | [] => some (e, [])
  | c :: cs => do
      let (e, bytes) ← e.call c
      let (e, rest) ← e.run cs
      return (e, bytes ++ rest)

/-- The fields that are written. -/
def fieldsOf (calls : List EncoderCall) : List HeaderField :=
  calls.filterMap fun
    | .writeField f => some f
    | _ => none

@[simp] theorem dynTab_updateSize (e : Encoder) : e.updateSize.1.dynTab = e.dynTab := by
  rw [Encoder.updateSize]
  split <;> rfl

/-- The bits of a representation that says what is done with the field. -/
def Encoder.literal (e : Encoder) (f : HeaderField) (buf : Bytes) (idx : Nat) : Bytes :=
  if idx = 0 then appendNewName buf f (e.shouldIndex f)
  else appendIndexedName buf f idx (e.shouldIndex f)

/-- What `WriteField` does. -/
inductive Wrote (e : Encoder) (f : HeaderField) : Encoder → Bytes → Prop where
  /-- A field that is in a table is written as its index. -/
  | index {idx : Nat} : e.updateSize.1.Finds f idx true →
      Wrote e f e.updateSize.1 (appendIndexed e.updateSize.2 idx)
  /-- A literal field that goes into the table. -/
  | indexed {idx : Nat} : e.updateSize.1.Finds f idx false → e.updateSize.1.shouldIndex f = true →
      Wrote e f { e.updateSize.1 with dynTab := e.dynTab.add f }
        (e.updateSize.1.literal f e.updateSize.2 idx)
  /-- Another literal field. -/
  | literal {idx : Nat} : e.updateSize.1.Finds f idx false → e.updateSize.1.shouldIndex f = false →
      Wrote e f e.updateSize.1 (e.updateSize.1.literal f e.updateSize.2 idx)

theorem wrote_of_writeField (h : e.dynTab.table.Indexed) (f : HeaderField) :
    ∃ e' bytes, e.writeField f = some (e', bytes) ∧ Wrote e f e' bytes := by
  obtain ⟨idx, m, hsearch, hfinds⟩ :=
    Encoder.searchTable_spec (e := e.updateSize.1) (by rwa [dynTab_updateSize]) f
  rw [Encoder.writeField]
  simp only [hsearch, Option.bind_eq_bind, Option.bind_some]
  cases m with
  | true => exact ⟨_, _, rfl, .index hfinds⟩
  | false =>
    cases hindex : e.updateSize.1.shouldIndex f with
    | true =>
      refine ⟨_, _, rfl, ?_⟩
      have hwrote := Wrote.indexed hfinds hindex
      simpa only [Encoder.literal, hindex, dynTab_updateSize, if_true, Bool.false_eq_true,
        if_false]
        using hwrote
    | false =>
      refine ⟨_, _, rfl, ?_⟩
      have hwrote := Wrote.literal hfinds hindex
      simpa only [Encoder.literal, hindex, Bool.false_eq_true, if_false] using hwrote

/-- What holds of an encoder after the fields `written`. -/
structure Encoder.Sound (e : Encoder) (written : List HeaderField) : Prop where
  table : e.dynTab.Bounded
  entries : ∀ g ∈ e.dynTab.table.ents, g ∈ written ∧ g.sensitive = false
  added : e.dynTab.table.added ≤ written.length

theorem sound_newEncoder : newEncoder.Sound [] :=
  ⟨DynamicTable.bounded_empty 0 initialHeaderTableSize, nofun, Nat.le_refl 0⟩

theorem Encoder.Sound.mono (h : e.Sound ws) (fs : List HeaderField) : e.Sound (ws ++ fs) where
  table := h.table
  entries g hg := ⟨List.mem_append_left _ (h.entries g hg).1, (h.entries g hg).2⟩
  added := h.added.trans (by rw [List.length_append]; exact Nat.le_add_right ..)

theorem Encoder.Sound.setMaxSize (h : e.Sound ws) (v : UInt32)
    (he' : e'.dynTab = e.dynTab.setMaxSize v) : e'.Sound ws where
  table := he' ▸ h.table.setMaxSize v
  entries g hg := h.entries g (DynamicTable.mem_setMaxSize (he' ▸ hg))
  added := by
    rw [he', DynamicTable.added_setMaxSize]
    exact h.added

theorem shouldIndex_eq_true (h : e.shouldIndex f = true) :
    f.sensitive = false ∧ f.size ≤ e.dynTab.maxSize := by
  simpa [Encoder.shouldIndex] using h

theorem Encoder.Sound.wrote {bytes : Bytes} (h : e.Sound ws) (hw : Wrote e f e' bytes) :
    e'.Sound (ws ++ [f]) := by
  have hsame : e.updateSize.1.Sound (ws ++ [f]) := by
    refine ⟨?_, ?_, ?_⟩ <;> rw [dynTab_updateSize]
    · exact h.table
    · exact (h.mono [f]).entries
    · exact (h.mono [f]).added
  cases hw with
  | index _ => exact hsame
  | literal _ _ => exact hsame
  | indexed _ hindex =>
    refine ⟨h.table.add f, fun g hg => ?_, ?_⟩
    · rcases DynamicTable.mem_add hg with hold | rfl
      · exact (h.mono [f]).entries g hold
      · exact ⟨by simp, (shouldIndex_eq_true hindex).1⟩
    · rw [DynamicTable.added_add, List.length_append]
      exact Nat.add_le_add_right h.added 1

theorem Encoder.Sound.call (h : e.Sound ws) (c : EncoderCall) :
    ∃ e' bytes, e.call c = some (e', bytes) ∧ e'.Sound (ws ++ fieldsOf [c]) := by
  cases c with
  | writeField f =>
    obtain ⟨e', bytes, heq, hwrote⟩ := wrote_of_writeField h.table.indexed f
    exact ⟨e', bytes, heq, h.wrote hwrote⟩
  | setMaxDynamicTableSize v =>
    exact ⟨_, _, rfl, (h.setMaxSize _ rfl).mono _⟩
  | setMaxDynamicTableSizeLimit v =>
    refine ⟨_, _, rfl, Encoder.Sound.mono ?_ _⟩
    rw [Encoder.setMaxDynamicTableSizeLimit]
    split
    · exact h.setMaxSize v rfl
    · exact ⟨h.table, h.entries, h.added⟩

theorem fieldsOf_append (cs cs' : List EncoderCall) :
    fieldsOf (cs ++ cs') = fieldsOf cs ++ fieldsOf cs' := List.filterMap_append

theorem fieldsOf_cons (c : EncoderCall) (cs : List EncoderCall) :
    fieldsOf (c :: cs) = fieldsOf [c] ++ fieldsOf cs := fieldsOf_append [c] cs

theorem Encoder.Sound.run (h : e.Sound ws) (calls : List EncoderCall) :
    ∃ e' bytes, e.run calls = some (e', bytes) ∧ e'.Sound (ws ++ fieldsOf calls) := by
  induction calls generalizing e ws with
  | nil => exact ⟨e, [], rfl, h.mono _⟩
  | cons c cs ih =>
    obtain ⟨e₁, bytes, hcall, h₁⟩ := h.call c
    obtain ⟨e', rest, hrun, h'⟩ := ih h₁
    refine ⟨e', bytes ++ rest, ?_, ?_⟩
    · rw [Encoder.run, hcall]
      simp [hrun]
    · rw [fieldsOf_cons, ← List.append_assoc]
      exact h'

/-- With fewer than `2 ^ 64` fields the encoder does not panic, neither in a search nor when it
evicts entries, and the ids of its entries fit 64 bits. After the calls a search finds the index of
the field when it is in a table and not sensitive, and else the index of its name when that is in a
table. -/
theorem encoder_search_exact (calls : List EncoderCall) (hcalls : (fieldsOf calls).length < 2 ^ 64)
    (f : HeaderField) :
    ∃ e bytes i m, newEncoder.run calls = some (e, bytes) ∧ e.dynTab.table.panicked = false ∧
      e.dynTab.table.added < 2 ^ 64 ∧ e.searchTable f = some (i, m) ∧ e.Finds f i m := by
  obtain ⟨e, bytes, hrun, h⟩ := sound_newEncoder.run calls
  obtain ⟨i, m, hsearch, hfinds⟩ := Encoder.searchTable_spec h.table.indexed f
  have hadded : e.dynTab.table.added < 2 ^ 64 := h.added.trans_lt hcalls
  exact ⟨e, bytes, i, m, hrun, h.table.counted.not_panicked hadded, hadded, hsearch, hfinds⟩

/-- Two fields of one name, with a table between them that is too small for any entry. -/
def twoWrites : List EncoderCall :=
  [.writeField ⟨[0x61], [0x62], false⟩, .setMaxDynamicTableSize 0, .setMaxDynamicTableSize 100,
    .writeField ⟨[0x61], [0x63], false⟩]

/-- The first field is not in the table any more, but its name is. -/
theorem encoder_search_exact_twoWrites :
    ∃ e bytes i m, newEncoder.run twoWrites = some (e, bytes) ∧ e.dynTab.table.panicked = false ∧
      e.dynTab.table.evictCount = 1 ∧ e.searchTable ⟨[0x61], [0x62], false⟩ = some (i, m) ∧
      i = 62 ∧ m = false ∧ e.Finds ⟨[0x61], [0x62], false⟩ i m := by
  obtain ⟨e, bytes, i, m, hrun, hpanicked, -, hsearch, hfinds⟩ :=
    encoder_search_exact twoWrites (by decide) ⟨[0x61], [0x62], false⟩
  have hcheck : (newEncoder.run twoWrites).any (fun out =>
      decide (out.1.dynTab.table.evictCount = 1 ∧
        out.1.searchTable ⟨[0x61], [0x62], false⟩ = some (62, false))) = true := by
    decide +kernel
  rw [hrun, Option.any_some, decide_eq_true_eq, hsearch] at hcheck
  obtain ⟨hcount, hsame⟩ := hcheck
  cases Option.some.inj hsame
  exact ⟨e, bytes, 62, false, hrun, hpanicked, hcount, hsearch, rfl, rfl, hfinds⟩

end IstioVendor.Hpack
