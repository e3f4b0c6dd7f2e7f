import IstioVendor.Lib.HttpMessage
import IstioVendor.Proofs.Fhttp.HttpUtils

/-!
# `IstioVendor.Proofs.Fhttp.Numbers`: the numbers that the byte scanners read

A number that fits an `int64` is read as it is written: `parseDecimal_numeral` for a content
length, and `parseChunkSize_line` for the size line of a chunk. On a part of a size line
`parseChunkSize` finds no size (`parseChunkSize_incremental`), so the client may ask again
whenever more bytes have arrived.
-/

set_option autoImplicit false

namespace IstioVendor.Fhttp

open Lib
open Lib.Http

/-! ### Numbers that do not wrap -/

theorem hexDigit_eq_hexVal (b : UInt8) : hexDigit b = hexVal b := by
  have key : ∀ n : Fin 256, hexDigit (UInt8.ofFin n) = hexVal (UInt8.ofFin n) := by
    decide +kernel
  exact key b.toFin

theorem accumulate_nat (base acc v : Nat) (h : base * acc + v < 2 ^ 63) :
    accumulate base acc v = (base * acc + v : Nat) := by
  unfold accumulate
  rw [if_neg (by omega), ← Nat.cast_mul, ← Nat.cast_add, int64_of_nat h]

variable {n : Nat}

/-- The digits of a size line. -/
theorem chunkDigits_numeral {acc off : Nat} {ds tail : Bytes}
    (h : numeral 16 hexVal acc ds = some n) (hn : n < 2 ^ 63) :
    chunkDigits acc off (ds ++ tail) = chunkDigits n (off + ds.length) tail := by
  induction ds generalizing acc off with
  | nil =>
    cases h
    rfl
  | cons b ds ih =>
    obtain ⟨v, hb, hv⟩ := Option.bind_eq_some_iff.mp h
    have hle := le_numeral (by decide) hv
    have hacc := accumulate_nat 16 acc v (Nat.lt_of_le_of_lt hle hn)
    have hstep : chunkDigits acc off (b :: ds ++ tail)
        = chunkDigits (accumulate 16 acc v) (off + 1) (ds ++ tail) := by
      rw [List.cons_append, chunkDigits, hexDigit_eq_hexVal, hb]
    rw [hstep, show accumulate 16 acc v = _ from hacc, ih hv, List.length_cons,
      Nat.add_assoc, Nat.add_comm 1]

/-- The rest of a size line. -/
theorem skipToCrlf_line {res : Int} {off : Nat} {ext tail : Bytes} (h : 13 ∉ ext) :
    skipToCrlf res off (ext ++ crlf ++ tail) = (off + ext.length + 2, res) := by
  induction ext generalizing off with
  | nil => simp [crlf, skipToCrlf]
  | cons b ext ih =>
    rw [List.mem_cons, not_or] at h
    obtain ⟨b', rest, hrest⟩ : ∃ b' rest, ext ++ crlf ++ tail = b' :: rest := by
      cases ext with
      | nil => exact ⟨_, _, rfl⟩
      | cons b' ext => exact ⟨_, _, rfl⟩
    rw [List.cons_append, List.cons_append, hrest, skipToCrlf, if_neg (Ne.symm h.1), ← hrest,
      ih h.2]
    simp
    omega

/-- The client reads a size line. Only a carriage return may not stand in the extension. -/
theorem parseChunkSize_line {digits ext : Bytes} (hne : digits ≠ [])
    (hval : numeral 16 hexVal 0 digits = some n) (hn : n < 2 ^ 63)
    (hstart : ∀ b ∈ ext.head?, hexVal b = none) (hcr : 13 ∉ ext) (tail : Bytes) :
    parseChunkSize (digits ++ ext ++ crlf ++ tail)
      = ((digits ++ ext ++ crlf).length, (n : Int)) := by
  obtain ⟨b, ds, rfl⟩ := List.exists_cons_of_ne_nil hne
  obtain ⟨v, hb, hv⟩ := Option.bind_eq_some_iff.mp hval
  have hfirst : parseChunkSize ((b :: ds) ++ (ext ++ crlf ++ tail))
      = chunkDigits (v : Nat) 1 (ds ++ (ext ++ crlf ++ tail)) := by
    rw [List.cons_append, parseChunkSize, chunkDigits, hexDigit_eq_hexVal, hb]
    rfl
  have hv' : numeral 16 hexVal v ds = some n := by simpa using hv
  -- Behind the digits the loop only looks for the end of the line.
  have hskip : chunkDigits (n : Int) (1 + ds.length) (ext ++ crlf ++ tail)
      = skipToCrlf n (1 + ds.length) (ext ++ crlf ++ tail) := by
    have hnone : ∀ b' rest, ext ++ crlf ++ tail = b' :: rest → hexDigit b' = none := by
      intro b' rest heq
      rw [hexDigit_eq_hexVal]
      cases ext with
      | nil =>
        cases heq
        decide
      | cons x ext =>
        obtain ⟨rfl, -⟩ := List.cons.inj heq
        exact hstart x (by simp)
    cases hext : ext ++ crlf ++ tail with
    | nil => simp [crlf] at hext
    | cons b' rest =>
      rw [chunkDigits, hnone b' rest hext]
      simp
  rw [show (b :: ds) ++ ext ++ crlf ++ tail = (b :: ds) ++ (ext ++ crlf ++ tail) by simp, hfirst,
    chunkDigits_numeral hv' hn, hskip, skipToCrlf_line hcr]
  simp [crlf]
  omega

/-- The client reads the size line of a chunk. -/
theorem parseChunkSize_sizeLine (l : SizeLine n) (hn : n < 2 ^ 63) (tail : Bytes) :
    parseChunkSize (l.bytes ++ tail) = (l.bytes.length, (n : Int)) :=
  parseChunkSize_line l.digits_ne l.value hn l.ext_start (fun h => (l.ext_line 13 h).1 rfl) tail

/-- A size line is read as soon as it is there whole, with whatever follows it, and no part of
it is taken for a size. -/
theorem parseChunkSize_incremental (digits ext rest : Bytes) (n : Nat) (hne : digits ≠ [])
    (hval : numeral 16 hexVal 0 digits = some n) (hn : n < 2 ^ 63)
    (hstart : ∀ b ∈ ext.head?, hexVal b = none) (hcr : 13 ∉ ext) :
    parseChunkSize (digits ++ ext ++ crlf ++ rest) = ((digits ++ ext ++ crlf).length, (n : Int)) ∧
      ∀ part, part <+: digits ++ ext ++ crlf → part ≠ digits ++ ext ++ crlf →
        (parseChunkSize part).2 = -1 := by
  refine ⟨parseChunkSize_line hne hval hn hstart hcr rest, fun part hpart hproper => ?_⟩
  have hwhole := parseChunkSize_line hne hval hn hstart hcr []
  rw [List.append_nil] at hwhole
  have hlen : part.length < (digits ++ ext ++ crlf).length :=
    lt_of_le_of_ne hpart.length_le fun heq => hproper (hpart.eq_of_length heq)
  by_contra hfound
  -- A size that is found in the part is found where the line ends.
  rw [List.prefix_iff_eq_take.mp hpart] at hfound
  have hend := ((parseChunkSize_take_ne_iff _ _).mp hfound).2
  rw [hwhole] at hend
  exact absurd hend (not_le.mpr hlen)

theorem parseChunkSize_incremental_extension :
    parseChunkSize (ascii "1aF;name=\n5\r\ndata") = (13, 0x1af) ∧
      (parseChunkSize (ascii "1aF;name=\n5\r")).2 = -1 := by
  obtain ⟨hwhole, hpart⟩ := parseChunkSize_incremental (ascii "1aF") (ascii ";name=\n5")
    (ascii "data") 0x1af (by decide) (by decide) (by decide) (by decide) (by decide)
  exact ⟨hwhole, hpart (ascii "1aF;name=\n5\r") (by decide) (by decide)⟩

theorem isDigit_iff_decVal (b : UInt8) (v : Nat) (h : decVal b = some v) :
    isDigit b = true ∧ (b.toNat : Int) - 48 = v := by
  unfold decVal at h
  split at h
  · rename_i hb
    refine ⟨by simpa [isDigit] using hb, ?_⟩
    have h48 : 48 ≤ b.toNat := UInt8.le_iff_toNat_le.mp hb.1
    have := Option.some.inj h
    omega
  · exact nomatch h

/-- The digits of a content length. -/
theorem parseDecimalFrom_numeral {acc : Nat} {ds tail : Bytes}
    (h : numeral 10 decVal acc ds = some n) (hn : n < 2 ^ 63) :
    parseDecimalFrom acc (ds ++ tail) = parseDecimalFrom n tail := by
  induction ds generalizing acc with
  | nil =>
    cases h
    rfl
  | cons b ds ih =>
    obtain ⟨v, hb, hv⟩ := Option.bind_eq_some_iff.mp h
    obtain ⟨hdigit, hval⟩ := isDigit_iff_decVal b v hb
    have hle := le_numeral (by decide) hv
    have hacc := accumulate_nat 10 acc v (Nat.lt_of_le_of_lt hle hn)
    rw [List.cons_append, parseDecimalFrom, if_neg (by omega), if_pos hdigit, hval,
      show accumulate 10 acc v = _ from hacc, ih hv]

/-- The client reads a number behind spaces, up to the first byte that is no digit. -/
theorem parseDecimal_numeral {before ds rest : Bytes} (hbefore : ∀ b ∈ before, b = 32)
    (hne : ds ≠ []) (hval : numeral 10 decVal 0 ds = some n) (hn : n < 2 ^ 63)
    (hrest : ∀ b ∈ rest.head?, isDigit b = false) : parseDecimal (before ++ ds ++ rest) = n := by
  induction before with
  | nil =>
    obtain ⟨b, ds, rfl⟩ := List.exists_cons_of_ne_nil hne
    obtain ⟨v, hb, hv⟩ := Option.bind_eq_some_iff.mp hval
    obtain ⟨hdigit, hv48⟩ := isDigit_iff_decVal b v hb
    have hspace : ¬ (b = 32 ∧ (-1 : Int) = -1) := by
      rintro ⟨rfl, _⟩
      exact absurd hdigit (by decide)
    have hv' : numeral 10 decVal v ds = some n := by simpa using hv
    rw [List.nil_append, List.cons_append, parseDecimal, parseDecimalFrom, if_neg hspace,
      if_pos hdigit, hv48, accumulate, if_pos rfl, parseDecimalFrom_numeral hv' hn]
    cases rest with
    | nil => rfl
    | cons x rest =>
      rw [parseDecimalFrom, if_neg (by omega), if_neg (by simp [hrest x (by simp)])]
  | cons x before ih =>
    obtain rfl := hbefore x (by simp)
    rw [← ih fun b hb => hbefore b (by simp [hb])]
    simp only [List.cons_append, parseDecimal, parseDecimalFrom, true_and, if_true]

end IstioVendor.Fhttp
