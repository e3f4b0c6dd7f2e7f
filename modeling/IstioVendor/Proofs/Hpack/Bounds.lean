import IstioVendor.Proofs.Hpack.Decoder

/-!
# `IstioVendor.Proofs.Hpack.Bounds`: what a peer can make the decoder hold

The bytes that a decoder is given come from the peer. `Held` is what they cannot change: the dynamic
table stays within its bound, and so does what is saved between two pieces. `Parsed` says what one
representation does, so each step of a decoder keeps `Held` (`Held.call`), and so does a whole
connection (`decoder_bounded`).
-/

set_option autoImplicit false

namespace IstioVendor.Hpack

open Lib

/-! ### The steps of a decoder -/

/-- A call of a method of the decoder. -/
inductive DecoderCall where
  | write (p : Bytes)
  | close
  | setEmitEnabled (v : Bool)
  | setMaxDynamicTableSize (v : UInt32)
  | setAllowedMaxDynamicTableSize (v : UInt32)

/-- The sizes in a call are within the bound. -/
def DecoderCall.Within (M : UInt32) : DecoderCall → Prop
  | setMaxDynamicTableSize v => v ≤ M
  | setAllowedMaxDynamicTableSize v => v ≤ M
  | _ => True

instance (M : UInt32) : (a : DecoderCall) → Decidable (a.Within M)
  | .setMaxDynamicTableSize v => inferInstanceAs (Decidable (v ≤ M))
  | .setAllowedMaxDynamicTableSize v => inferInstanceAs (Decidable (v ≤ M))
  | .write _ => .isTrue trivial
  | .close => .isTrue trivial
  | .setEmitEnabled _ => .isTrue trivial

variable {σ : Type} {dt : DynamicTable} {f : HeaderField}

def Decoder.call (emit : Emit σ) (d : Decoder σ) : DecoderCall → Decoder σ
  | .write p => (d.write emit p).1
  | .close => d.close.1
  | .setEmitEnabled v => d.setEmitEnabled v
  | .setMaxDynamicTableSize v => d.setMaxDynamicTableSize v
  | .setAllowedMaxDynamicTableSize v => d.setAllowedMaxDynamicTableSize v

/-! ### What the decoder holds -/

/-- The longest name in the static table. -/
def staticNameLen : Nat := 27

/-- An entry of the dynamic table comes from strings within the bound, and names of the static
table. -/
def Fits (L : Nat) (f : HeaderField) : Prop :=
  f.name.length ≤ max L staticNameLen ∧ f.value.length ≤ L

/-- What holds of a decoder whatever it is given. `L` is the bound on strings, `M` that on tables,
and `P` what the callback keeps. -/
structure Held (L : Nat) (M : UInt32) (P : σ → Prop) (d : Decoder σ) : Prop where
  maxStrLen : d.maxStrLen = L
  saveBuf : d.saveBuf.length ≤ 2 * (L + Decoder.varIntOverhead)
  allowed : d.dynTab.allowedMaxSize ≤ M
  maxSize : d.dynTab.maxSize ≤ M
  table : d.dynTab.Exact
  fits : ∀ f ∈ d.dynTab.table.ents, Fits L f
  sink : P d.sink

/-- The bounds are not so large that sizes do not fit into 32 bits, and the callback keeps `P` for
fields within them. -/
structure Limits (L : Nat) (M : UInt32) (emit : Emit σ) (P : σ → Prop) : Prop where
  pos : 0 < L
  strings : L ≤ 2 ^ 29
  tables : M.toNat < 2 ^ 31
  emit : ∀ s f, P s → f.name.length ≤ L → f.value.length ≤ L → P (emit s f).1

section
variable {L : Nat} {M : UInt32} {P : σ → Prop} {emit : Emit σ} {d d' : Decoder σ}

theorem staticName_le : ∀ f ∈ staticTable.ents, f.name.length ≤ staticNameLen := by
  decide +kernel

theorem mem_of_lookupAt {i : Nat} (h : Decoder.lookupAt dt i = some f) :
    f ∈ staticTable.ents ∨ f ∈ dt.table.ents := by
  rw [Decoder.lookupAt] at h
  split_ifs at h
  · exact .inl (Option.some.inj h ▸ List.getElem_mem _)
  · exact .inr (Option.some.inj h ▸ List.getElem_mem _)

theorem Held.name_le (h : Held L M P d) (hL : 0 < L) {name : Bytes}
    (hname : Short d name ∨ ∃ i g, Decoder.lookupAt d.dynTab i = some g ∧ g.name = name) :
    name.length ≤ max L staticNameLen := by
  obtain hshort | ⟨i, g, hg, rfl⟩ := hname
  · rw [Short, h.maxStrLen] at hshort
    omega
  · rcases mem_of_lookupAt hg with hmem | hmem
    · exact (staticName_le g hmem).trans (le_max_right ..)
    · exact (h.fits g hmem).1

theorem fieldSize_eq (hL : L ≤ 2 ^ 29) (h : Fits L f) :
    fieldSize f = realSize f ∧ realSize f < 2 ^ 31 := by
  obtain ⟨hname, hvalue⟩ := h
  have hlt : realSize f < 2 ^ 31 := by
    rw [realSize]
    rw [staticNameLen] at hname
    omega
  exact ⟨fieldSize_eq_realSize (hlt.trans (by decide)), hlt⟩

/-- What a representation does to the table keeps its bounds. -/
theorem Held.table_change (h : Held L M P d) (hl : Limits L M emit P) (hdt : TableChange d dt) :
    dt.allowedMaxSize ≤ M ∧ dt.maxSize ≤ M ∧ dt.Exact ∧ ∀ f ∈ dt.table.ents, Fits L f := by
  cases hdt with
  | same => exact ⟨h.allowed, h.maxSize, h.table, h.fits⟩
  | @add name value hname hvalue =>
    have hf : Fits L ⟨name, value, false⟩ := by
      refine ⟨h.name_le hl.pos hname, ?_⟩
      rw [Short, h.maxStrLen] at hvalue
      exact hvalue.resolve_left hl.pos.ne'
    have hsize : d.dynTab.maxSize.toNat + fieldSize ⟨name, value, false⟩ < 2 ^ 32 := by
      have hle := UInt32.le_iff_toNat_le.mp h.maxSize
      obtain ⟨heq, hlt⟩ := fieldSize_eq hl.strings hf
      have htables := hl.tables
      omega
    obtain ⟨hexact, -⟩ := h.table.add hsize
    refine ⟨h.allowed, h.maxSize, hexact, fun f hmem => ?_⟩
    rcases DynamicTable.mem_add hmem with hold | rfl
    · exact h.fits f hold
    · exact hf
  | resize hv =>
    exact ⟨h.allowed, UInt32.le_trans hv h.allowed, (h.table.setMaxSize _).1, fun f hmem =>
      h.fits f (DynamicTable.mem_setMaxSize hmem)⟩

theorem Held.parsed (h : Held L M P d) (hl : Limits L M emit P) (hd : Parsed emit d d') :
    Held L M P d' := by
  obtain ⟨hallowed, hmax, hexact, hfits⟩ := h.table_change hl hd.table
  refine ⟨hd.maxStrLen.trans h.maxStrLen, hd.saveBuf ▸ h.saveBuf, hallowed, hmax, hexact, hfits, ?_⟩
  obtain hsame | ⟨f, hname, hvalue, hemit⟩ := hd.sink
  · exact (Prod.mk.inj hsame).1 ▸ h.sink
  · rw [Short, h.maxStrLen] at hname hvalue
    have hsink : d'.sink = (emit d.sink f).1 := congrArg Prod.fst hemit
    exact hsink ▸ hl.emit _ f h.sink (hname.resolve_left hl.pos.ne')
      (hvalue.resolve_left hl.pos.ne')

theorem Held.write (h : Held L M P d) (hl : Limits L M emit P) (p : Bytes) :
    Held L M P (d.write emit p).1 := by
  by_cases hp : p = []
  · rw [hp, write_nil]
    exact h
  have hstart : Held L M P d.started := { h with saveBuf := Nat.zero_le _ }
  obtain ⟨d', hd', heq | ⟨rest, hlong, heq⟩⟩ :=
    write_inv (fun _ _ hd hstep => hd.parsed hl hstep) hp hstart
  · rw [heq]
    exact hd'
  · rw [heq]
    refine { hd' with saveBuf := ?_ }
    rw [TooLong, hd'.maxStrLen] at hlong
    have hpos := hl.pos
    show rest.length ≤ _
    omega

/-- Every call keeps the bounds. -/
theorem Held.call (h : Held L M P d) (hl : Limits L M emit P) {a : DecoderCall}
    (ha : a.Within M) : Held L M P (d.call emit a) := by
  cases a with
  | write p => exact h.write hl p
  | close =>
    rw [Decoder.call, Decoder.close]
    split
    · exact { h with saveBuf := Nat.zero_le _ }
    · exact h
  | setEmitEnabled v => exact { h with }
  | setMaxDynamicTableSize v =>
    exact { h with
      maxSize := ha
      table := (h.table.setMaxSize v).1
      fits := fun f hmem => h.fits f (DynamicTable.mem_setMaxSize hmem) }
  | setAllowedMaxDynamicTableSize v =>
    exact { h with
      allowed := ha
      table := ⟨⟨h.table.indexed, h.table.counted, h.table.size_eq, h.table.size_le⟩,
        h.table.exact⟩ }

theorem held_newDecoder {s : σ} (hs : P s) (L : Nat) (M : UInt32) :
    Held L M P ((newDecoder M s).setMaxStringLength L) where
  maxStrLen := rfl
  saveBuf := Nat.zero_le _
  allowed := UInt32.le_refl M
  maxSize := UInt32.le_refl M
  table := DynamicTable.exact_empty M M
  fits := nofun
  sink := hs

theorem weight_realSize {fs : List HeaderField} (hL : L ≤ 2 ^ 29) (h : ∀ f ∈ fs, Fits L f) :
    weight realSize fs = weight fieldSize fs :=
  weight_congr fun f hf => (fieldSize_eq hL (h f hf)).1.symm

end

/-- Whatever bytes a decoder is given, and in whatever pieces, its dynamic table stays within the
bound, what it saves between two pieces is bounded, and no string that it emits is too long. -/
theorem decoder_bounded {L : Nat} {M : UInt32} {emit : Emit σ} {P : σ → Prop}
    (hl : Limits L M emit P) {s : σ} (hs : P s) {calls : List DecoderCall}
    (hcalls : ∀ a ∈ calls, a.Within M) :
    let d := calls.foldl (Decoder.call emit) ((newDecoder M s).setMaxStringLength L)
    weight realSize d.dynTab.table.ents = d.dynTab.size.toNat ∧
      d.dynTab.size ≤ d.dynTab.maxSize ∧ d.dynTab.maxSize ≤ M ∧
      d.saveBuf.length ≤ 2 * (L + 8) ∧ P d.sink := by
  have hheld := List.foldlRecOn calls (Decoder.call emit) (motive := Held L M P)
    (held_newDecoder hs L M) fun d hd a ha => hd.call hl (hcalls a ha)
  refine ⟨?_, hheld.table.size_le, hheld.maxSize, hheld.saveBuf, hheld.sink⟩
  rw [hheld.table.exact, weight_realSize hl.strings hheld.fits]

/-- A callback that keeps all fields has only short ones. -/
theorem limits_collect {L : Nat} {M : UInt32} (hpos : 0 < L) (hL : L ≤ 2 ^ 29)
    (hM : M.toNat < 2 ^ 31) :
    Limits L M collect fun fs => ∀ f ∈ fs, f.name.length ≤ L ∧ f.value.length ≤ L where
  pos := hpos
  strings := hL
  tables := hM
  emit fs f hfs hname hvalue g hg := by
    rcases List.mem_append.mp hg with hold | hnew
    · exact hfs g hold
    · rw [List.mem_singleton.mp hnew]
      exact ⟨hname, hvalue⟩

theorem decoder_bounded_threeCalls :
    let d := [.write [0x82, 0x40], .setMaxDynamicTableSize 100, .close].foldl (Decoder.call collect)
      ((newDecoder 4096 []).setMaxStringLength 16)
    weight realSize d.dynTab.table.ents = d.dynTab.size.toNat ∧
      d.dynTab.size ≤ d.dynTab.maxSize ∧ d.dynTab.maxSize ≤ 4096 ∧
      d.saveBuf.length ≤ 2 * (16 + 8) ∧
      ∀ f ∈ d.sink, f.name.length ≤ 16 ∧ f.value.length ≤ 16 :=
  decoder_bounded (s := []) (limits_collect (by decide) (by decide) (by decide)) nofun (by decide)

end IstioVendor.Hpack
