import IstioVendor.Proofs.Hpack.Representation

/-!
# `IstioVendor.Proofs.Hpack.Connection`: a decoder reads what the encoder of its peer writes

An `Encoder` and the `Decoder` at its peer have a table each, and an index on the wire is looked up
in the other one. `Synced` is what keeps that right: the entries of the encoder are the newest ones
of the decoder. The tables need not be equal. The encoder may have dropped entries for a smaller
size that it has not told yet, or never tells (`SetMaxDynamicTableSizeLimit` does not lower
`minSize`).

- `Items` are bytes that are representations in a row. They are accepted in any pieces
  (`Items.writeAll`), because a representation that is cut short only waits for more.
- Every call keeps `Synced` and writes items (`Synced.call`), and so do header blocks in a row
  (`Synced.runBlocks`), which gives `connection_round_trip`.
- `sensitive_stays_out` is about the fields that must not be in a table.
-/

set_option autoImplicit false

namespace IstioVendor.Hpack

open Lib

variable {σ : Type} {emit : Emit σ} {d d' d₁ : Decoder σ} {r bs p : Bytes} {ps : List Bytes}
  {f : HeaderField} {v M : UInt32}

/-! ### Items in pieces -/

/-- A representation that is read whatever follows, and that is short enough to be saved. -/
structure Reads (emit : Emit σ) (d : Decoder σ) (r : Bytes) (d' : Decoder σ) : Prop where
  parse : ∀ q, d.parseHeaderFieldRepr emit (r ++ q) = .ok (d', q)
  short : d.maxStrLen = 0 ∨ r.length ≤ 2 * (d.maxStrLen + Decoder.varIntOverhead)

theorem Reads.ne_nil (h : Reads emit d r d') : r ≠ [] := by
  rintro rfl
  exact absurd (shrinks_parseHeaderFieldRepr _ _ _ _ (h.parse [])) (lt_irrefl _)

/-- Bytes that are such representations. -/
inductive Items (emit : Emit σ) : Decoder σ → Bytes → Decoder σ → Prop where
  | nil (d : Decoder σ) : Items emit d [] d
  | cons {d d₁ d' : Decoder σ} {r rest : Bytes} : Reads emit d r d₁ → Items emit d₁ rest d' →
      Items emit d (r ++ rest) d'

theorem Items.single (h : Reads emit d r d') : Items emit d r d' := by
  have hitems := Items.cons h (.nil d')
  rwa [List.append_nil] at hitems

theorem Items.append {d₂ : Decoder σ} {bs' : Bytes} (h : Items emit d bs d₁)
    (h' : Items emit d₁ bs' d₂) : Items emit d (bs ++ bs') d₂ := by
  induction h with
  | nil _ => exact h'
  | cons hr _ ih =>
    rw [List.append_assoc]
    exact .cons hr (ih h')

theorem Items.kept (h : Items emit d bs d') : Kept d d' := by
  induction h with
  | nil _ => exact ⟨rfl, rfl⟩
  | cons hr _ ih => exact (parsed_of_ok (hr.parse [])).kept.trans ih

theorem Items.allowedMaxSize (h : Items emit d bs d') :
    d'.dynTab.allowedMaxSize = d.dynTab.allowedMaxSize := by
  induction h with
  | nil _ => rfl
  | cons hr _ ih => exact ih.trans (parsed_of_ok (hr.parse [])).table.allowedMaxSize

/-- A representation that is cut short waits for more. -/
theorem Reads.cut {c : Bytes} (h : Reads emit d (p ++ c) d') (hc : c ≠ []) :
    d.parseHeaderFieldRepr emit p = .error (.needMore, d) := by
  have hread := h.parse []
  rw [List.append_nil] at hread
  obtain ⟨⟨e, d₁⟩, hmore, herr⟩ := (local_parseHeaderFieldRepr d).more_of_cut hread hc
  obtain rfl : e = .needMore := hmore
  obtain rfl := (parsed_of_error herr).2 rfl
  exact herr

theorem Reads.readItems (h : Reads emit d r d₁) (q : Bytes) :
    readItems emit d (r ++ q) = readItems emit d₁ q :=
  drain_of_ok shrinks_parseHeaderFieldRepr (by simp [h.ne_nil]) (h.parse q)

theorem readItems_nil (emit : Emit σ) (d : Decoder σ) : readItems emit d [] = .ok d := drain_nil ..

theorem Items.readItems (h : Items emit d bs d') : readItems emit d bs = .ok d' := by
  induction h with
  | nil d => exact readItems_nil emit d
  | cons hr _ ih => exact (hr.readItems _).trans ih

/-- What is left of items after a first part of the bytes. -/
inductive Resumes (emit : Emit σ) (d : Decoder σ) (p rest : Bytes) (d' : Decoder σ) : Prop where
  | between {d₁ : Decoder σ} : readItems emit d p = .ok d₁ → Items emit d₁ rest d' →
      Resumes emit d p rest d'
  | within {d₁ : Decoder σ} {s : Bytes} : readItems emit d p = .error ((.needMore, d₁), s) →
      ¬ TooLong d₁ s → Items emit d₁ (s ++ rest) d' → Resumes emit d p rest d'

theorem Reads.resumes {c rest : Bytes} (h : Reads emit d (p ++ c) d₁) (hc : c ≠ [])
    (hrest : Items emit d₁ rest d') : Resumes emit d p (c ++ rest) d' := by
  have hitems : Items emit d (p ++ (c ++ rest)) d' := by
    rw [← List.append_assoc]
    exact .cons h hrest
  by_cases hp : p = []
  · subst hp
    exact .between (readItems_nil emit d) hitems
  · refine .within (drain_of_error hp (h.cut hc)) (fun hlong => ?_) hitems
    have hshort := h.short.resolve_left hlong.1
    rw [List.length_append] at hshort
    exact absurd hlong.2 (by omega)

theorem Items.resumes {rest : Bytes} (h : Items emit d bs d') (hbs : bs = p ++ rest) :
    Resumes emit d p rest d' := by
  induction h generalizing p with
  | nil d =>
    obtain ⟨rfl, rfl⟩ := List.append_eq_nil_iff.mp hbs.symm
    exact .between (readItems_nil emit d) (.nil d)
  | cons hr hitems ih =>
    -- The cut is behind the first item, or in it, where `c` is what is missing of it.
    rcases List.append_eq_append_iff.mp hbs with ⟨a, rfl, hrest⟩ | ⟨c, rfl, rfl⟩
    · cases ih hrest with
      | between hread h' => exact .between ((hr.readItems a).trans hread) h'
      | within hread hlong h' => exact .within ((hr.readItems a).trans hread) hlong h'
    · by_cases hc : c = []
      · subst hc
        rw [List.append_nil] at hr
        have hread := hr.readItems []
        rw [List.append_nil, readItems_nil] at hread
        exact .between hread hitems
      · exact hr.resumes hc hitems

theorem started_of_saveBuf (h : d.saveBuf = []) : d.started = d := started_saved h d.saveBuf

/-- A piece of items is accepted, and what is saved with the rest is items again. -/
theorem Items.write {rest : Bytes} (h : Items emit d.started (d.saveBuf ++ (p ++ rest)) d') :
    (d.write emit p).2.2 = none ∧
      Items emit (d.write emit p).1.started ((d.write emit p).1.saveBuf ++ rest) d' := by
  by_cases hp : p = []
  · subst hp
    exact ⟨rfl, h⟩
  · cases h.resumes (List.append_assoc ..).symm with
    | between hread h' =>
      have hsave := ((kept_of_readItems _ _).1 _ hread).saveBuf
      rw [write_of_ok hp hread]
      refine ⟨rfl, ?_⟩
      rw [hsave, started_of_saveBuf hsave]
      exact h'
    | within hread hlong h' =>
      have hsave := ((kept_of_readItems _ _).2 _ _ _ hread).saveBuf
      rw [(write_of_more hp hread).2 hlong]
      refine ⟨rfl, ?_⟩
      rw [started_saved hsave]
      exact h'

theorem Items.writeAll_none (h : Items emit d.started (d.saveBuf ++ ps.flatten) d') :
    (writeAll emit d ps).2 = none := by
  induction ps generalizing d with
  | nil => rfl
  | cons p ps ih =>
    obtain ⟨hnone, hitems⟩ := Items.write h
    rw [writeAll_cons_of_none hnone]
    exact ih hitems

/-- Items are accepted in any pieces. -/
theorem Items.writeAll (hsave : d.saveBuf = []) (h : Items emit d ps.flatten d') :
    writeAll emit d ps = (d', none) := by
  have hstarted : Items emit d.started (d.saveBuf ++ ps.flatten) d' := by
    rwa [started_of_saveBuf hsave, hsave]
  -- No piece is refused, so the pieces do what the whole does.
  rw [writeAll_eq_write emit d ps (.inl hstarted.writeAll_none)]
  by_cases hp : ps.flatten = []
  · have hread := h.readItems
    rw [hp, readItems_nil] at hread
    rw [hp, write_nil, Except.ok.inj hread]
    rfl
  · rw [write_of_ok hp hstarted.readItems]
    rfl

/-! ### Two tables -/

theorem le_uint32Max (v : UInt32) : v.toNat ≤ uint32Max.toNat := by
  have hlt := v.toNat_lt
  show v.toNat ≤ 4294967295
  omega

/-- What holds of an encoder and of the table of the decoder at its peer after the fields `ws`: the
entries of the encoder are the newest ones of the decoder, so an index means the same to both. -/
structure Synced (e : Encoder) (D : DynamicTable) (ws : List HeaderField) : Prop where
  enc : e.dynTab.Exact
  dec : D.Exact
  suffix : e.dynTab.table.ents <:+ D.table.ents
  /-- The entries went through the smallest size since the last update that was written. -/
  min : weight fieldSize e.dynTab.table.ents ≤ e.minSize.toNat
  settled : e.tableSizeUpdate = false → e.minSize = uint32Max ∧ e.dynTab.maxSize ≤ D.maxSize
  max_le : e.dynTab.maxSize ≤ e.maxSizeLimit
  limit_le : e.maxSizeLimit ≤ D.allowedMaxSize
  decMax_le : D.maxSize ≤ D.allowedMaxSize
  allowed_lt : D.allowedMaxSize.toNat < 2 ^ 31
  small : ∀ g ∈ e.dynTab.table.ents, realSize g < 2 ^ 32
  entries : ∀ g ∈ D.table.ents, g ∈ ws ∧ g.sensitive = false
  encAdded : e.dynTab.table.added ≤ ws.length
  decAdded : D.table.added ≤ ws.length

namespace Synced

variable {e : Encoder} {D : DynamicTable} {ws : List HeaderField}

section
variable (h : Synced e D ws)
include h

theorem mono (fs : List HeaderField) : Synced e D (ws ++ fs) :=
  have hle : ws.length ≤ (ws ++ fs).length := (List.sublist_append_left ws fs).length_le
  { h with
    entries := fun g hg => ⟨List.mem_append_left _ (h.entries g hg).1, (h.entries g hg).2⟩
    encAdded := h.encAdded.trans hle
    decAdded := h.decAdded.trans hle }

/-- Neither table panics when fewer than `2 ^ 64` fields are written: each of them adds one entry at
most. -/
theorem not_panicked (hlt : ws.length < 2 ^ 64) :
    e.dynTab.table.panicked = false ∧ D.table.panicked = false :=
  ⟨h.enc.counted.not_panicked (h.encAdded.trans_lt hlt),
    h.dec.counted.not_panicked (h.decAdded.trans_lt hlt)⟩

/-- A size that the encoder tells while an update is pending. -/
theorem resize (hpending : e.tableSizeUpdate = true)
    (hmin : weight fieldSize e.dynTab.table.ents ≤ v.toNat) (hv : v ≤ D.allowedMaxSize) :
    Synced e (D.setMaxSize v) ws :=
  { h with
    dec := (h.dec.setMaxSize v).1
    suffix := (h.dec.setMaxSize v).2 ▸ suffix_trim h.suffix hmin
    settled hno := absurd (hno.symm.trans hpending) Bool.false_ne_true
    decMax_le := hv
    entries g hg := h.entries g (DynamicTable.mem_setMaxSize hg)
    decAdded := (DynamicTable.added_setMaxSize D v).trans_le h.decAdded }

/-- The update is written. -/
theorem told (hmax : e.dynTab.maxSize ≤ D.maxSize) :
    Synced { e with tableSizeUpdate := false, minSize := uint32Max } D ws :=
  { h with
    min := h.enc.weight_le.trans (le_uint32Max _)
    settled _ := ⟨rfl, hmax⟩ }

/-- A field that both add. -/
theorem add (hsettled : e.tableSizeUpdate = false) (hf : realSize f < 2 ^ 32)
    (hindex : e.shouldIndex f = true) :
    Synced { e with dynTab := e.dynTab.add f } (D.add f) (ws ++ [f]) := by
  obtain ⟨hsensitive, hsize⟩ := shouldIndex_eq_true hindex
  have hmax := (h.settled hsettled).2
  have hallowed := h.allowed_lt
  -- The field is not larger than the table, and tables have less than `2 ^ 31` bytes: no sum wraps.
  have hsum : e.dynTab.maxSize.toNat + fieldSize f < 2 ^ 32 ∧
      D.maxSize.toNat + fieldSize f < 2 ^ 32 := by
    have hle : fieldSize f ≤ e.dynTab.maxSize.toNat := UInt32.le_iff_toNat_le.mp hsize
    have hdec := UInt32.le_iff_toNat_le.mp h.decMax_le
    have henc := UInt32.le_iff_toNat_le.mp hmax
    omega
  obtain ⟨henc, hents⟩ := h.enc.add hsum.1
  obtain ⟨hdec, hents'⟩ := h.dec.add hsum.2
  have hadded : ∀ dt : DynamicTable, dt.table.added ≤ ws.length →
      (dt.add f).table.added ≤ (ws ++ [f]).length := by
    intro dt hle
    rw [DynamicTable.added_add, List.length_append]
    exact Nat.add_le_add_right hle 1
  exact
    { enc := henc
      dec := hdec
      suffix := by
        rw [hents, hents']
        exact trim_mono ((List.suffix_append_self_iff ..).mpr h.suffix)
          (UInt32.le_iff_toNat_le.mp hmax)
      min := henc.weight_le.trans (by
        rw [(h.settled hsettled).1]
        exact le_uint32Max _)
      settled := h.settled
      max_le := h.max_le
      limit_le := h.limit_le
      decMax_le := h.decMax_le
      allowed_lt := h.allowed_lt
      small := fun g hg => by
        rcases DynamicTable.mem_add hg with hold | rfl
        · exact h.small g hold
        · exact hf
      entries := fun g hg => by
        rcases DynamicTable.mem_add hg with hold | rfl
        · exact (h.mono [f]).entries g hold
        · exact ⟨by simp, hsensitive⟩
      encAdded := hadded _ h.encAdded
      decAdded := hadded _ h.decAdded }

/-- The table of the encoder gets another size, which is not told yet. Entries that are dropped are
the oldest ones, so the others are still the newest ones of the decoder. -/
theorem setMaxSize {e' : Encoder} (htable : e'.dynTab = e.dynTab.setMaxSize v)
    (hpending : e'.tableSizeUpdate = true)
    (hmin : weight fieldSize (trim fieldSize v.toNat e.dynTab.table.ents) ≤ e'.minSize.toNat)
    (hle : v ≤ e'.maxSizeLimit) (hlimit : e'.maxSizeLimit ≤ D.allowedMaxSize) : Synced e' D ws := by
  obtain ⟨henc, hents⟩ := h.enc.setMaxSize v
  rw [← htable] at henc hents
  exact
    { enc := henc
      dec := h.dec
      suffix := hents ▸ (trim_suffix ..).trans h.suffix
      min := hents ▸ hmin
      settled := fun hno => absurd (hno.symm.trans hpending) Bool.false_ne_true
      max_le := htable ▸ hle
      limit_le := hlimit
      decMax_le := h.decMax_le
      allowed_lt := h.allowed_lt
      small := fun g hg => h.small g (DynamicTable.mem_setMaxSize (htable ▸ hg))
      entries := h.entries
      encAdded := by
        rw [htable, DynamicTable.added_setMaxSize]
        exact h.encAdded
      decAdded := h.decAdded }

theorem weight_trim_le_min (v : UInt32) :
    weight fieldSize (trim fieldSize v.toNat e.dynTab.table.ents) ≤ e.minSize.toNat :=
  (weight_le_of_suffix (trim_suffix ..)).trans h.min

/-- The encoder takes a smaller or a larger size. -/
theorem setMaxDynamicTableSize (v : UInt32) : Synced (e.setMaxDynamicTableSize v) D ws := by
  rw [Encoder.setMaxDynamicTableSize]
  generalize hw : (if e.maxSizeLimit < v then e.maxSizeLimit else v) = w
  have hle : w ≤ e.maxSizeLimit := by
    subst hw
    split
    · exact UInt32.le_refl _
    · exact UInt32.not_lt.mp ‹_›
  refine h.setMaxSize rfl rfl ?_ hle h.limit_le
  split
  · exact weight_trim_le ..
  · exact h.weight_trim_le_min w

/-- The peer announces another limit. -/
theorem setMaxDynamicTableSizeLimit (hv : v ≤ D.allowedMaxSize) :
    Synced (e.setMaxDynamicTableSizeLimit v) D ws := by
  rw [Encoder.setMaxDynamicTableSizeLimit]
  split
  · exact h.setMaxSize rfl rfl (h.weight_trim_le_min v) (UInt32.le_refl v) hv
  · exact { h with max_le := UInt32.not_lt.mp ‹_›, limit_le := hv }

/-- An index of the encoder is the same entry for the decoder. -/
theorem lookup {i : Nat} {g : HeaderField} (hi : Decoder.lookupAt e.dynTab i = some g) :
    Decoder.lookupAt D i = some g ∧ i < 2 ^ 35 := by
  refine ⟨lookupAt_of_suffix h.suffix hi, ?_⟩
  have hindex := le_maxTableIndex_of_lookupAt hi
  -- There are not more entries than bytes in the table, so the index is not long on the wire.
  have hsize : ∀ g ∈ e.dynTab.table.ents, 1 ≤ fieldSize g := by
    intro g hg
    rw [fieldSize_eq_realSize (h.small g hg), realSize]
    omega
  have hlen := length_le_weight hsize
  have hmax := h.enc.weight_le
  have hlt := e.dynTab.maxSize.toNat_lt
  rw [Decoder.maxTableIndex, HeaderFieldTable.len, len_staticTable] at hindex
  omega

end

end Synced

/-! ### A field -/

section Field

variable {e : Encoder} {ws : List HeaderField}

/-- The callback for fields in a row, and whether it is still called. -/
def deliverAll (emit : Emit σ) (st : σ × Bool) (fs : List HeaderField) : σ × Bool :=
  fs.foldl (fun st f => if st.2 then emit st.1 f else st) st

/-- What the callback and `SetEmitEnabled` have changed. -/
def Decoder.emission (d : Decoder σ) : σ × Bool := (d.sink, d.emitEnabled)

theorem emission_deliver (f : HeaderField) :
    (d.deliver emit f).emission = deliverAll emit d.emission [f] := by
  rw [Decoder.deliver, Decoder.emission, Decoder.emission, deliverAll, List.foldl_cons,
    List.foldl_nil]
  split <;> rfl

@[simp] theorem dynTab_deliver (f : HeaderField) : (d.deliver emit f).dynTab = d.dynTab := by
  rw [Decoder.deliver]
  split <;> rfl

theorem reads_resize (hv : v ≤ d.dynTab.allowedMaxSize) :
    Reads emit d (tagged 0x20 5 v.toNat) { d with dynTab := d.dynTab.setMaxSize v } := by
  refine ⟨read_resize hv, .inr ?_⟩
  have hle := length_tagged_le (t := 0x20) (n := 5) (v.toNat_lt.trans (by decide))
  rw [Decoder.varIntOverhead]
  omega

/-- The update of the size that comes before a field. -/
theorem Synced.updateSize (emit : Emit σ) (h : Synced e d.dynTab ws) :
    ∃ D, Items emit d e.updateSize.2 { d with dynTab := D } ∧ Synced e.updateSize.1 D ws ∧
      e.updateSize.1.tableSizeUpdate = false := by
  rw [Encoder.updateSize]
  cases hpending : e.tableSizeUpdate with
  | false => exact ⟨d.dynTab, .nil d, h, hpending⟩
  | true =>
    have hmax : e.dynTab.maxSize ≤ d.dynTab.allowedMaxSize := UInt32.le_trans h.max_le h.limit_le
    simp only [if_true]
    split
    · -- The smallest size first.
      rename_i hlt
      have hmin : e.minSize ≤ d.dynTab.allowedMaxSize :=
        UInt32.le_trans (UInt32.le_of_lt hlt) hmax
      have hsmall := h.resize hpending h.min hmin
      have hboth := (hsmall.resize hpending h.enc.weight_le hmax).told (UInt32.le_refl _)
      refine ⟨_, ?_, hboth, trivial⟩
      rw [appendTableSize_eq, appendTableSize_eq, List.nil_append]
      exact .cons (reads_resize hmin) (.single (reads_resize hmax))
    · refine ⟨_, ?_, (h.resize hpending h.enc.weight_le hmax).told (UInt32.le_refl _), trivial⟩
      exact .single (reads_resize hmax)

/-- The field itself, which is an index. -/
theorem Synced.reads_index (h : Synced e d.dynTab ws) (hf : d.Takes f) {idx : Nat}
    (hfinds : e.Finds f idx true) : Reads emit d (tagged 0x80 7 idx) (d.deliver emit f) := by
  obtain ⟨hne, hsensitive⟩ := hfinds.found rfl
  obtain ⟨g, hg, hname, hvalue⟩ := hfinds.entry hne
  obtain ⟨hg, hlt⟩ := h.lookup hg
  have hfield : (⟨g.name, g.value, false⟩ : HeaderField) = f := by
    rw [hname, hvalue rfl, ← hsensitive]
  refine ⟨read_indexed (hlt.trans (by decide)) hg hfield hf.name hf.value, .inr ?_⟩
  have hle := length_tagged_le (t := 0x80) (n := 7) hlt
  rw [Decoder.varIntOverhead]
  omega

/-- The field itself, which is a literal. -/
theorem Synced.reads_literal (h : Synced e d.dynTab ws) (hf : d.Takes f) {idx : Nat}
    (hfinds : e.Finds f idx false) {indexing : Bool}
    (hindexing : indexing = true → f.sensitive = false) :
    Reads emit d (literalBytes (encodeTypeByte indexing f.sensitive) (literalBits indexing) idx f)
      ((if indexing then { d with dynTab := d.dynTab.add f } else d).deliver emit f) := by
  have hentry : idx ≠ 0 → ∃ g, Decoder.lookupAt d.dynTab idx = some g ∧ g.name = f.name := by
    intro hne
    obtain ⟨g, hg, hname, -⟩ := hfinds.entry hne
    exact ⟨g, (h.lookup hg).1, hname⟩
  have hlt : idx < 2 ^ 35 := by
    by_cases hzero : idx = 0
    · omega
    · obtain ⟨g, hg, -⟩ := hfinds.entry hzero
      exact (h.lookup hg).2
  refine ⟨fun q => ?_, ?_⟩
  · rw [read_field hindexing (hlt.trans (by decide)) hf hentry, afterLiteral_eq hindexing]
  · by_cases hzero : d.maxStrLen = 0
    · exact .inl hzero
    · refine .inr (length_literalBytes_le ?_ hlt hf.size (hf.name.resolve_left hzero)
        (hf.value.resolve_left hzero))
      cases indexing <;> decide

/-- A field that is written is delivered, and the tables agree after it. -/
theorem Synced.writeField (h : Synced e d.dynTab ws) (hf : d.Takes f) :
    ∃ e' bytes d', e.writeField f = some (e', bytes) ∧ Items emit d bytes d' ∧
      Synced e' d'.dynTab (ws ++ [f]) ∧ d'.emission = deliverAll emit d.emission [f] := by
  obtain ⟨e', bytes, hwrite, hwrote⟩ := wrote_of_writeField h.enc.indexed f
  obtain ⟨D, hupdate, hsync, hsettled⟩ := h.updateSize emit
  have hf' : Decoder.Takes { d with dynTab := D } f := ⟨hf.name, hf.value, hf.size⟩
  have hindexing : e.updateSize.1.shouldIndex f = true → f.sensitive = false := fun hindex =>
    (shouldIndex_eq_true hindex).1
  refine ⟨e', bytes, ?_⟩
  cases hwrote with
  | index hfinds =>
    have hitems := hupdate.append (.single (hsync.reads_index hf' hfinds))
    rw [← appendIndexed_eq] at hitems
    refine ⟨_, hwrite, hitems, ?_, emission_deliver f⟩
    rw [dynTab_deliver]
    exact hsync.mono [f]
  | indexed hfinds hindex =>
    have hitems := hupdate.append (.single (hsync.reads_literal hf' hfinds hindexing))
    rw [← literal_eq hf.size] at hitems
    refine ⟨_, hwrite, hitems, ?_, ?_⟩
    · rw [dynTab_deliver, if_pos hindex, ← dynTab_updateSize]
      exact hsync.add hsettled hf.size hindex
    · rw [emission_deliver, if_pos hindex]
      rfl
  | literal hfinds hindex =>
    have hitems := hupdate.append (.single (hsync.reads_literal hf' hfinds hindexing))
    rw [← literal_eq hf.size, if_neg (by rw [hindex]; decide)] at hitems
    refine ⟨_, hwrite, hitems, ?_, emission_deliver f⟩
    rw [dynTab_deliver]
    exact hsync.mono [f]

/-! ### A connection -/

/-- A call within what the decoder at the peer takes: fields with strings up to `L` bytes, and
limits up to `M`. -/
def EncoderCall.Allowed (L : Nat) (M : UInt32) : EncoderCall → Prop
  | .writeField f =>
    (L = 0 ∨ f.name.length ≤ L ∧ f.value.length ≤ L) ∧ realSize f < 2 ^ 32
  | .setMaxDynamicTableSize _ => True
  | .setMaxDynamicTableSizeLimit v => v ≤ M

instance (L : Nat) (M : UInt32) : (c : EncoderCall) → Decidable (c.Allowed L M)
  | .writeField f => inferInstanceAs
      (Decidable ((L = 0 ∨ f.name.length ≤ L ∧ f.value.length ≤ L) ∧ realSize f < 2 ^ 32))
  | .setMaxDynamicTableSize _ => .isTrue trivial
  | .setMaxDynamicTableSizeLimit v => inferInstanceAs (Decidable (v ≤ M))

theorem takes_of_allowed {L : Nat} (h : (EncoderCall.writeField f).Allowed L M)
    (hd : d.maxStrLen = L) : d.Takes f := by
  obtain ⟨hL, hsize⟩ := h
  subst hd
  exact ⟨hL.imp_right And.left, hL.imp_right And.right, hsize⟩

theorem Synced.call (emit : Emit σ) (h : Synced e d.dynTab ws) {c : EncoderCall}
    (hc : c.Allowed d.maxStrLen d.dynTab.allowedMaxSize) :
    ∃ e' bytes d', e.call c = some (e', bytes) ∧ Items emit d bytes d' ∧
      Synced e' d'.dynTab (ws ++ fieldsOf [c]) ∧
      d'.emission = deliverAll emit d.emission (fieldsOf [c]) := by
  cases c with
  | writeField f => exact h.writeField (takes_of_allowed hc rfl)
  | setMaxDynamicTableSize v =>
    exact ⟨_, _, d, rfl, .nil d, (h.setMaxDynamicTableSize v).mono _, rfl⟩
  | setMaxDynamicTableSizeLimit v =>
    exact ⟨_, _, d, rfl, .nil d, (h.setMaxDynamicTableSizeLimit hc).mono _, rfl⟩

theorem deliverAll_append (st : σ × Bool) (fs gs : List HeaderField) :
    deliverAll emit st (fs ++ gs) = deliverAll emit (deliverAll emit st fs) gs := List.foldl_append

/-- The calls of a header block. -/
theorem Synced.run (emit : Emit σ) (h : Synced e d.dynTab ws) {calls : List EncoderCall}
    (hcalls : ∀ c ∈ calls, c.Allowed d.maxStrLen d.dynTab.allowedMaxSize) :
    ∃ e' bytes d', e.run calls = some (e', bytes) ∧ Items emit d bytes d' ∧
      Synced e' d'.dynTab (ws ++ fieldsOf calls) ∧
      d'.emission = deliverAll emit d.emission (fieldsOf calls) := by
  induction calls generalizing e d ws with
  | nil => exact ⟨e, [], d, rfl, .nil d, h.mono _, rfl⟩
  | cons c cs ih =>
    obtain ⟨e₁, bytes, d₁, hcall, hitems, h₁, hemission⟩ :=
      h.call emit (hcalls c List.mem_cons_self)
    have hrest : ∀ c ∈ cs, c.Allowed d₁.maxStrLen d₁.dynTab.allowedMaxSize := by
      rw [hitems.kept.maxStrLen, hitems.allowedMaxSize]
      exact fun c hc => hcalls c (List.mem_cons_of_mem _ hc)
    obtain ⟨e', rest, d', hrun, hitems', h', hemission'⟩ := ih h₁ hrest
    refine ⟨e', bytes ++ rest, d', ?_, hitems.append hitems', ?_, ?_⟩
    · rw [Encoder.run, hcall]
      simp [hrun]
    · rw [fieldsOf_cons, ← List.append_assoc]
      exact h'
    · rw [fieldsOf_cons, deliverAll_append, ← hemission, hemission']

/-- Header blocks in a row, and the bytes of each. -/
def Encoder.runBlocks (e : Encoder) : List (List EncoderCall) → Option (Encoder × List Bytes)
  | [] => some (e, [])
  | calls :: blocks => do
      let (e, bytes) ← e.run calls
      let (e, rest) ← e.runBlocks blocks
      return (e, bytes :: rest)

/-- Header blocks in a row, each in pieces and with `Close` at its end, up to the first error. -/
def Decoder.readBlocks (emit : Emit σ) : Decoder σ → List (List Bytes) → Decoder σ × Option Err
  | d, [] => (d, none)
  | d, pieces :: blocks =>
    match writeAll emit d pieces with
    | (d, some e) => (d, some e)
    | (d, none) =>
      match d.close with
      | (d, some e) => (d, some e)
      | (d, none) => d.readBlocks emit blocks

theorem readBlocks_cons {pieces : List Bytes} (hsave : d.saveBuf = [])
    (h : Items emit d pieces.flatten d') (blocks : List (List Bytes)) :
    d.readBlocks emit (pieces :: blocks) = d'.readBlocks emit blocks := by
  have hclose : d'.close = (d', none) := by
    rw [Decoder.close, h.kept.saveBuf, hsave]
    rfl
  rw [Decoder.readBlocks, h.writeAll hsave]
  simp only [hclose]

theorem Synced.runBlocks (emit : Emit σ) (h : Synced e d.dynTab ws)
    (hsave : d.saveBuf = []) {blocks : List (List EncoderCall)}
    (hblocks : ∀ calls ∈ blocks, ∀ c ∈ calls, c.Allowed d.maxStrLen d.dynTab.allowedMaxSize) :
    ∃ e' bytes d', e.runBlocks blocks = some (e', bytes) ∧
      (∀ pieces : List (List Bytes), pieces.map List.flatten = bytes →
        d.readBlocks emit pieces = (d', none)) ∧
      Synced e' d'.dynTab (ws ++ fieldsOf blocks.flatten) ∧ d'.saveBuf = [] ∧
      d'.emission = deliverAll emit d.emission (fieldsOf blocks.flatten) := by
  induction blocks generalizing e d ws with
  | nil =>
    refine ⟨e, [], d, rfl, fun pieces hpieces => ?_, h.mono _, hsave, rfl⟩
    rw [List.map_eq_nil_iff.mp hpieces]
    rfl
  | cons calls blocks ih =>
    obtain ⟨e₁, bytes, d₁, hrun, hitems, h₁, hemission⟩ :=
      h.run emit (hblocks calls List.mem_cons_self)
    have hrest : ∀ calls ∈ blocks, ∀ c ∈ calls,
        c.Allowed d₁.maxStrLen d₁.dynTab.allowedMaxSize := by
      rw [hitems.kept.maxStrLen, hitems.allowedMaxSize]
      exact fun calls hc => hblocks calls (List.mem_cons_of_mem _ hc)
    obtain ⟨e', rest, d', hruns, hread, h', hsave', hemission'⟩ :=
      ih h₁ (hitems.kept.saveBuf.trans hsave) hrest
    refine ⟨e', bytes :: rest, d', ?_, ?_, ?_, hsave', ?_⟩
    · rw [Encoder.runBlocks, hrun]
      simp [hruns]
    · intro pieces hpieces
      obtain ⟨ps, pss, rfl, hps, hpss⟩ := List.map_eq_cons_iff.mp hpieces
      rw [readBlocks_cons hsave (hps ▸ hitems)]
      exact hread pss hpss
    · rw [List.flatten_cons, fieldsOf_append, ← List.append_assoc]
      exact h'
    · rw [List.flatten_cons, fieldsOf_append, deliverAll_append, ← hemission, hemission']

end Field

theorem synced_new (hM : initialHeaderTableSize ≤ M) (hlt : M.toNat < 2 ^ 31) (st : σ) (L : Nat) :
    Synced newEncoder ((newDecoder M st).setMaxStringLength L).dynTab [] where
  enc := DynamicTable.exact_empty 0 initialHeaderTableSize
  dec := DynamicTable.exact_empty M M
  suffix := List.suffix_rfl
  min := Nat.zero_le _
  settled _ := ⟨rfl, hM⟩
  max_le := UInt32.le_refl _
  limit_le := hM
  decMax_le := UInt32.le_refl _
  allowed_lt := hlt
  small := nofun
  entries := nofun
  encAdded := Nat.le_refl 0
  decAdded := Nat.le_refl 0

theorem deliverAll_collect (fs gs : List HeaderField) :
    deliverAll collect (fs, true) gs = (fs ++ gs, true) := by
  induction gs generalizing fs with
  | nil => rw [List.append_nil]; rfl
  | cons g gs ih => exact (ih (fs ++ [g])).trans (by rw [List.append_assoc]; rfl)

/-- An encoder and the decoder at the other end of a connection. Whatever fields are written and
whatever sizes the encoder is told, no call panics, and the decoder accepts the header blocks in any
pieces and gets the fields that were written, in their order. With fewer than `2 ^ 64` fields neither
table panics when it evicts entries. -/
theorem connection_round_trip (L : Nat) {M : UInt32} (hM : initialHeaderTableSize ≤ M)
    (hlt : M.toNat < 2 ^ 31) (blocks : List (List EncoderCall))
    (hblocks : ∀ calls ∈ blocks, ∀ c ∈ calls, c.Allowed L M) :
    ∃ e bytes d, newEncoder.runBlocks blocks = some (e, bytes) ∧
      (∀ pieces : List (List Bytes), pieces.map List.flatten = bytes →
        ((newDecoder M []).setMaxStringLength L).readBlocks collect pieces = (d, none)) ∧
      d.sink = fieldsOf blocks.flatten ∧
      e.dynTab.table.ents <:+ d.dynTab.table.ents ∧
      ((fieldsOf blocks.flatten).length < 2 ^ 64 →
        e.dynTab.table.panicked = false ∧ d.dynTab.table.panicked = false) := by
  obtain ⟨e, bytes, d, hrun, hread, hsync, -, hemission⟩ :=
    (synced_new hM hlt [] L).runBlocks collect rfl hblocks
  refine ⟨e, bytes, d, hrun, hread, ?_, hsync.suffix, hsync.not_panicked⟩
  exact congrArg Prod.fst (hemission.trans (deliverAll_collect [] _))

/-- Two blocks with one field, which the second one has as an index, and smaller tables between. -/
def twoBlocks : List (List EncoderCall) :=
  [[.writeField ⟨[0x61], [0x62, 0x63], false⟩],
    [.setMaxDynamicTableSize 0, .setMaxDynamicTableSize 100,
      .writeField ⟨[0x61], [0x62, 0x63], false⟩, .writeField ⟨[0x64], [0x65], true⟩]]

theorem connection_round_trip_twoBlocks :
    ∃ e bytes d, newEncoder.runBlocks twoBlocks = some (e, bytes) ∧
      (∀ pieces : List (List Bytes), pieces.map List.flatten = bytes →
        ((newDecoder 4096 []).setMaxStringLength 8).readBlocks collect pieces = (d, none)) ∧
      d.sink = fieldsOf twoBlocks.flatten ∧
      e.dynTab.table.ents <:+ d.dynTab.table.ents ∧
      ((fieldsOf twoBlocks.flatten).length < 2 ^ 64 →
        e.dynTab.table.panicked = false ∧ d.dynTab.table.panicked = false) :=
  connection_round_trip 8 (by decide) (by decide) twoBlocks (by decide)

/-! ### Sensitive fields -/

/-- A sensitive field is a literal of the type that no peer may index, and does not change the
table. -/
theorem writeField_sensitive {e : Encoder} (h : e.dynTab.table.Indexed) (hf : realSize f < 2 ^ 32)
    (hsensitive : f.sensitive = true) :
    ∃ e' idx, e.writeField f = some (e', e.updateSize.2 ++ literalBytes 0x10 4 idx f) ∧
      e'.dynTab = e.dynTab := by
  obtain ⟨e', bytes, hwrite, hwrote⟩ := wrote_of_writeField h f
  cases hwrote with
  | index hfinds =>
    have hplain := (hfinds.found rfl).2
    exact absurd (hplain.symm.trans hsensitive) Bool.false_ne_true
  | indexed _ hindex =>
    have hplain := (shouldIndex_eq_true hindex).1
    exact absurd (hplain.symm.trans hsensitive) Bool.false_ne_true
  | @literal idx _ hindex =>
    refine ⟨e.updateSize.1, idx, ?_, dynTab_updateSize e⟩
    rw [hwrite, literal_eq hf, hindex, hsensitive]
    rfl

/-- After any header blocks neither table has a sensitive field: every entry is a field that was
written as one that may be indexed. A sensitive field that is written next is a literal that is
never indexed. -/
theorem sensitive_stays_out (L : Nat) {M : UInt32} (hM : initialHeaderTableSize ≤ M)
    (hlt : M.toNat < 2 ^ 31) (blocks : List (List EncoderCall))
    (hblocks : ∀ calls ∈ blocks, ∀ c ∈ calls, c.Allowed L M) :
    ∃ e bytes d, newEncoder.runBlocks blocks = some (e, bytes) ∧
      (∀ pieces : List (List Bytes), pieces.map List.flatten = bytes →
        ((newDecoder M []).setMaxStringLength L).readBlocks collect pieces = (d, none)) ∧
      (∀ g, g ∈ e.dynTab.table.ents ∨ g ∈ d.dynTab.table.ents →
        g ∈ fieldsOf blocks.flatten ∧ g.sensitive = false) ∧
      ∀ f, f.sensitive = true → realSize f < 2 ^ 32 → ∃ e' idx,
        e.writeField f = some (e', e.updateSize.2 ++ literalBytes 0x10 4 idx f) ∧
          e'.dynTab = e.dynTab := by
  obtain ⟨e, bytes, d, hrun, hread, hsync, -, -⟩ :=
    (synced_new hM hlt [] L).runBlocks collect rfl hblocks
  refine ⟨e, bytes, d, hrun, hread, ?_, ?_⟩
  · rintro g (henc | hdec)
    · exact hsync.entries g (hsync.suffix.subset henc)
    · exact hsync.entries g hdec
  · intro f hsensitive hf
    exact writeField_sensitive hsync.enc.indexed hf hsensitive

theorem sensitive_stays_out_twoBlocks :
    ∃ e bytes d, newEncoder.runBlocks twoBlocks = some (e, bytes) ∧
      (∀ pieces : List (List Bytes), pieces.map List.flatten = bytes →
        ((newDecoder 4096 []).setMaxStringLength 8).readBlocks collect pieces = (d, none)) ∧
      (∀ g, g ∈ e.dynTab.table.ents ∨ g ∈ d.dynTab.table.ents →
        g ∈ fieldsOf twoBlocks.flatten ∧ g.sensitive = false) ∧
      ∀ f, f.sensitive = true → realSize f < 2 ^ 32 → ∃ e' idx,
        e.writeField f = some (e', e.updateSize.2 ++ literalBytes 0x10 4 idx f) ∧
          e'.dynTab = e.dynTab :=
  sensitive_stays_out 8 (by decide) (by decide) twoBlocks (by decide)

end IstioVendor.Hpack
