import Mathlib.Data.List.Induction
import IstioVendor.Lib.Numerals
import IstioVendor.Proofs.Fhttp.Fetch
import IstioVendor.Proofs.Fhttp.WellFormed

/-!
# `IstioVendor.Proofs.Fhttp.Overflow`: numbers that are too large for a length

`parseDecimal` and `parseChunkSize` add up their digits in an `int64` that wraps, and start again
when it wraps to `-1`, which they take for "no digit yet". `leftover` are the digits since
the last start. It is computed from the digits with exact numbers, and it determines the result
(`accumulated_eq`): `-1` when there are none, and otherwise their value as an `int64`.

A number below `2 ^ 63` is never cut, so that it is read as it is (`leftover_eq_self`). A number of
`2 ^ 63` or more cannot be the result, and then the only right answer is `-1`. `lengths_exact_iff`
says which inputs get it. All other inputs get a wrong length, which can be any number of 64
bits.

`readResponse` adds a length to a position, and this sum wraps too. So it frames a response rightly
when the end of the body, and of every chunk, is below `2 ^ 63` (`LengthsFit`, `framed_of_kept`).
`fetch_overflow` shows a `200` for responses that are cut off, by a length that does not fit and by
one whose sum does not.
-/

set_option autoImplicit false

namespace IstioVendor.Fhttp

open Lib
open Lib.Http

/-! ### The accumulator -/

/-- The accumulation steps for the digits, from `res`. -/
def accumulateAll (base : Nat) (res : Int) (ds : List Nat) : Int :=
  ds.foldl (fun (res : Int) (d : Nat) => accumulate base res d) res

/-- The result of the accumulation. -/
def accumulated (base : Nat) (ds : List Nat) : Int := accumulateAll base (-1) ds

/-- The digits since the last start, when `d` is read behind the digits `since`. -/
def cutAfter (base : Nat) (since : List Nat) (d : Nat) : List Nat :=
  if positional base (since ++ [d]) % 2 ^ 64 = 2 ^ 64 - 1 then [] else since ++ [d]

/-- The digits since the last start: a start comes behind digits with a value of `-1` modulo
`2 ^ 64`. -/
def leftover (base : Nat) (ds : List Nat) : List Nat := ds.foldl (cutAfter base) []

theorem leftover_concat (base : Nat) (ds : List Nat) (d : Nat) :
    leftover base (ds ++ [d]) = cutAfter base (leftover base ds) d := by
  rw [leftover, List.foldl_append]
  rfl

theorem accumulated_concat (base : Nat) (ds : List Nat) (d : Nat) :
    accumulated base (ds ++ [d]) = accumulate base (accumulated base ds) d := by
  rw [accumulated, accumulateAll, List.foldl_append]
  rfl

variable {base d : Nat} {ds : List Nat} {b : UInt8}

/-- The digits since the last start do not have the value `-1`. -/
theorem positional_leftover_ne (h : leftover base ds ≠ []) :
    positional base (leftover base ds) % 2 ^ 64 ≠ 2 ^ 64 - 1 := by
  induction ds using List.reverseRecOn with
  | nil => exact absurd rfl h
  | append_singleton ds d _ =>
    rw [leftover_concat] at h ⊢
    unfold cutAfter at h ⊢
    split_ifs at h ⊢ with hcut
    · exact absurd rfl h
    · exact hcut

/-- The digits since the last start determine the accumulator. -/
theorem accumulated_eq (hds : ∀ d ∈ ds, d < 2 ^ 63) :
    accumulated base ds = if leftover base ds = [] then -1
      else int64 (positional base (leftover base ds)) := by
  induction ds using List.reverseRecOn with
  | nil => rfl
  | append_singleton ds d ih =>
    have hd := hds d (by simp)
    have ih := ih fun x hx => hds x (by simp [hx])
    rw [accumulated_concat, leftover_concat, ih]
    have hvalue := positional_concat base (leftover base ds) d
    have hstep : accumulate base
        (if leftover base ds = [] then -1 else int64 (positional base (leftover base ds))) d
          = int64 (positional base (leftover base ds ++ [d])) := by
      by_cases hstart : leftover base ds = []
      · rw [if_pos hstart, accumulate, if_pos rfl, hstart, List.nil_append,
          positional_singleton, int64_of_nat hd]
      · rw [if_neg hstart, accumulate,
          if_neg (mt int64_eq_neg_one.mp (positional_leftover_ne hstart)),
          int64_mul_int64_add, hvalue]
        rfl
    rw [hstep, cutAfter]
    by_cases hcut : positional base (leftover base ds ++ [d]) % 2 ^ 64 = 2 ^ 64 - 1
    · rw [if_pos hcut, if_pos rfl, int64_eq_neg_one.mpr hcut]
    · rw [if_neg hcut, if_neg (by simp)]

theorem leftover_eq_self (hbase : 0 < base) (h : positional base ds < 2 ^ 63) :
    leftover base ds = ds := by
  induction ds using List.reverseRecOn with
  | nil => rfl
  | append_singleton ds d ih =>
    have hle := positional_le_concat hbase ds d
    rw [leftover_concat, ih (by omega), cutAfter, if_neg (by omega)]

/-! ### Results -/

/-- The result of reading the digits `ds` is right: nothing was found, or their exact value. -/
def ExactOrRejected (base : Nat) (ds : List Nat) (result : Int) : Prop :=
  result = -1 ∨ ds ≠ [] ∧ result = positional base ds

/-- A number that does not fit can only be rejected. -/
theorem exactOrRejected_of_large {result : Int} (hresult : result < 2 ^ 63)
    (hlarge : ¬ positional base ds < 2 ^ 63) : ExactOrRejected base ds result ↔ result = -1 := by
  constructor
  · rintro (hrejected | ⟨-, hexact⟩)
    · exact hrejected
    · omega
  · exact .inl

/-! ### Decimal numbers -/

/-- The first run of decimal digits, behind the leading spaces. -/
def decimalDigits (inp : Bytes) : List Nat :=
  leadingDigits decVal (inp.dropWhile fun b => b == 32)

/-- What follows the first run of decimal digits. -/
def behindDecimal (inp : Bytes) : Bytes :=
  behindDigits decVal (inp.dropWhile fun b => b == 32)

/-- The input has no number, or every digit of its first number is before a start, and what follows
is an input of this kind again. -/
inductive RejectedDecimal : Bytes → Prop where
  | noNumber {inp : Bytes} (none : decimalDigits inp = []) : RejectedDecimal inp
  | allCut {inp : Bytes} (some : decimalDigits inp ≠ [])
      (cut : leftover 10 (decimalDigits inp) = [])
      (rest : RejectedDecimal (behindDecimal inp)) : RejectedDecimal inp

theorem decVal_lt (h : decVal b = some d) : d < 2 ^ 63 := by
  have := b.toNat_lt
  unfold decVal at h
  split_ifs at h
  have := Option.some.inj h
  omega

theorem hexVal_lt (h : hexVal b = some d) : d < 2 ^ 63 := by
  have := b.toNat_lt
  unfold hexVal at h
  split_ifs at h <;>
    · have := Option.some.inj h
      omega

theorem leadingDigits_lt {value : UInt8 → Option Nat}
    (hvalue : ∀ b d, value b = some d → d < 2 ^ 63) {s : Bytes} (hd : d ∈ leadingDigits value s) :
    d < 2 ^ 63 := by
  obtain ⟨b, -, hb⟩ := List.mem_filterMap.mp hd
  exact hvalue b d hb

theorem isDigit_eq_false (h : decVal b = none) : isDigit b = false := by
  unfold decVal at h
  split_ifs at h with hb
  simpa [isDigit] using hb

theorem parseDecimalFrom_spaces (inp : Bytes) :
    parseDecimalFrom (-1) inp = parseDecimalFrom (-1) (inp.dropWhile fun b => b == 32) := by
  induction inp with
  | nil => rfl
  | cons b inp ih =>
    by_cases hb : b = 32
    · rw [List.dropWhile_cons_of_pos (by simp [hb]), parseDecimalFrom, if_pos ⟨hb, rfl⟩, ih]
    · rw [List.dropWhile_cons_of_neg (by simpa using hb)]

theorem parseDecimalFrom_digits (res : Int) (s : Bytes) :
    parseDecimalFrom res s
      = parseDecimalFrom (accumulateAll 10 res (leadingDigits decVal s))
          (behindDigits decVal s) := by
  induction s generalizing res with
  | nil => rfl
  | cons b s ih =>
    cases hb : decVal b with
    | none =>
      rw [leadingDigits_cons_none hb, behindDigits_cons_none hb]
      rfl
    | some d =>
      obtain ⟨hdigit, hd⟩ := isDigit_iff_decVal b d hb
      have hspace : ¬ (b = 32 ∧ res = -1) := by
        rintro ⟨rfl, -⟩
        exact nomatch hdigit
      rw [leadingDigits_cons_some hb, behindDigits_cons_some hb, parseDecimalFrom,
        if_neg hspace, if_pos hdigit, hd, ih]
      rfl

/-- A number is over at the first byte that is no digit. -/
theorem parseDecimalFrom_behind {res : Int} (hres : res ≠ -1) (s : Bytes) :
    parseDecimalFrom res (behindDigits decVal s) = res := by
  cases hs : behindDigits decVal s with
  | nil => rfl
  | cons b rest =>
    rw [parseDecimalFrom, if_neg fun h => hres h.2,
      if_neg (by simp [isDigit_eq_false (behindDigits_eq_cons hs)])]

/-- `parseDecimal` by the digits since the last start. -/
theorem parseDecimal_eq (inp : Bytes) :
    parseDecimal inp = if decimalDigits inp = [] then -1
      else if leftover 10 (decimalDigits inp) = [] then parseDecimal (behindDecimal inp)
      else int64 (positional 10 (leftover 10 (decimalDigits inp))) := by
  have hread : parseDecimal inp
      = parseDecimalFrom (accumulated 10 (decimalDigits inp)) (behindDecimal inp) := by
    rw [parseDecimal, parseDecimalFrom_spaces, parseDecimalFrom_digits]
    rfl
  have hacc : accumulated 10 (decimalDigits inp) = _ :=
    accumulated_eq fun d hd => leadingDigits_lt (fun _ _ => decVal_lt) hd
  split_ifs with hnone hcut
  · -- Neither a space nor a digit is next.
    rw [hread, hnone]
    change parseDecimalFrom (-1) (behindDecimal inp) = -1
    have hhead := List.head?_dropWhile_not (fun b : UInt8 => b == 32) inp
    unfold behindDecimal
    rw [behindDigits_of_leadingDigits hnone]
    cases hs : inp.dropWhile fun b => b == 32 with
    | nil => rfl
    | cons b rest =>
      have hdigit : behindDigits decVal (inp.dropWhile fun b => b == 32) = b :: rest := by
        rw [behindDigits_of_leadingDigits hnone, hs]
      have hspace : b ≠ 32 := by
        rw [hs] at hhead
        simpa using hhead
      rw [parseDecimalFrom, if_neg fun h => hspace h.1,
        if_neg (by simp [isDigit_eq_false (behindDigits_eq_cons hdigit)])]
  · rw [hread, hacc, if_pos hcut]
    rfl
  · rw [hread, hacc, if_neg hcut]
    exact parseDecimalFrom_behind (mt int64_eq_neg_one.mp (positional_leftover_ne hcut)) _

/-- Induction along the starts of `parseDecimal`: it starts again behind digits of which nothing is
left. -/
theorem decimal_induction {motive : Bytes → Prop}
    (noDigits : ∀ inp, decimalDigits inp = [] → motive inp)
    (allCut : ∀ inp, decimalDigits inp ≠ [] → leftover 10 (decimalDigits inp) = [] →
      motive (behindDecimal inp) → motive inp)
    (kept : ∀ inp, decimalDigits inp ≠ [] → leftover 10 (decimalDigits inp) ≠ [] → motive inp)
    (inp : Bytes) : motive inp := by
  induction hn : inp.length using Nat.strongRecOn generalizing inp with
  | _ n ih =>
    by_cases hnone : decimalDigits inp = []
    · exact noDigits inp hnone
    by_cases hcut : leftover 10 (decimalDigits inp) = []
    · have hlt : (behindDecimal inp).length < n :=
        hn ▸ (length_behindDigits_lt hnone).trans_le (List.dropWhile_suffix _).length_le
      exact allCut inp hnone hcut (ih _ hlt (behindDecimal inp) rfl)
    · exact kept inp hnone hcut

/-- The inputs in which `parseDecimal` finds no number. -/
theorem parseDecimal_eq_neg_one_iff (inp : Bytes) :
    parseDecimal inp = -1 ↔ RejectedDecimal inp := by
  induction inp using decimal_induction with
  | noDigits inp hnone =>
    rw [parseDecimal_eq, if_pos hnone]
    exact iff_of_true rfl (.noNumber hnone)
  | allCut inp hnone hcut ih =>
    rw [parseDecimal_eq, if_neg hnone, if_pos hcut, ih]
    constructor
    · exact .allCut hnone hcut
    · rintro (hnone' | ⟨-, -, hrest⟩)
      · exact absurd hnone' hnone
      · exact hrest
  | kept inp hnone hcut =>
    rw [parseDecimal_eq, if_neg hnone, if_neg hcut]
    refine iff_of_false (mt int64_eq_neg_one.mp (positional_leftover_ne hcut)) ?_
    rintro (hnone' | ⟨-, hcut', -⟩)
    · exact hnone hnone'
    · exact hcut hcut'

theorem parseDecimal_lt (inp : Bytes) : parseDecimal inp < 2 ^ 63 := by
  induction inp using decimal_induction with
  | noDigits inp hnone =>
    rw [parseDecimal_eq, if_pos hnone]
    decide
  | allCut inp hnone hcut ih =>
    rw [parseDecimal_eq, if_neg hnone, if_pos hcut]
    exact ih
  | kept inp hnone hcut =>
    rw [parseDecimal_eq, if_neg hnone, if_neg hcut]
    exact int64_lt _

theorem parseDecimal_exact_iff (inp : Bytes) :
    ExactOrRejected 10 (decimalDigits inp) (parseDecimal inp) ↔
      positional 10 (decimalDigits inp) < 2 ^ 63 ∨ RejectedDecimal inp := by
  rw [← parseDecimal_eq_neg_one_iff]
  by_cases hsmall : positional 10 (decimalDigits inp) < 2 ^ 63
  · refine iff_of_true ?_ (.inl hsmall)
    rw [parseDecimal_eq, leftover_eq_self (by decide) hsmall]
    split_ifs with hnone
    · exact .inl rfl
    · exact .inr ⟨hnone, int64_of_nat hsmall⟩
  · rw [exactOrRejected_of_large (parseDecimal_lt inp) hsmall]
    exact (or_iff_right hsmall).symm

/-! ### Chunk sizes -/

/-- A line end, as the loop behind the digits finds it: a carriage return takes the byte after
it along. -/
inductive HasLineEnd : Bytes → Prop where
  | here (rest : Bytes) : HasLineEnd (13 :: 10 :: rest)
  | skip {b : UInt8} {rest : Bytes} (hb : b ≠ 13) (later : HasLineEnd rest) : HasLineEnd (b :: rest)
  | skipTwo {b : UInt8} {rest : Bytes} (hb : b ≠ 10) (later : HasLineEnd rest) :
      HasLineEnd (13 :: b :: rest)

theorem not_hasLineEnd_nil : ¬ HasLineEnd [] := fun h => nomatch h

theorem not_hasLineEnd_singleton (b : UInt8) : ¬ HasLineEnd [b] := by
  rintro (_ | ⟨-, hlater⟩)
  exact not_hasLineEnd_nil hlater

theorem skipToCrlf_of_hasLineEnd {res : Int} {off : Nat} {s : Bytes} :
    (HasLineEnd s → (skipToCrlf res off s).2 = res) ∧
      (¬ HasLineEnd s → (skipToCrlf res off s).2 = -1) := by
  fun_induction skipToCrlf res off s with
  | case1 => exact ⟨fun h => absurd h not_hasLineEnd_nil, fun _ => rfl⟩
  | case2 off b => exact ⟨fun h => absurd h (not_hasLineEnd_singleton b), fun _ => rfl⟩
  | case3 off inp => exact ⟨fun _ => rfl, fun h => absurd (.here inp) h⟩
  | case4 off b' inp hb' ih =>
    have hiff : HasLineEnd (13 :: b' :: inp) ↔ HasLineEnd inp := by
      constructor
      · rintro (_ | ⟨hcr, -⟩ | ⟨-, hlater⟩)
        · exact absurd rfl hb'
        · exact absurd rfl hcr
        · exact hlater
      · exact .skipTwo hb'
    rwa [hiff]
  | case5 off b b' inp hb ih =>
    have hiff : HasLineEnd (b :: b' :: inp) ↔ HasLineEnd (b' :: inp) := by
      constructor
      · rintro (_ | ⟨-, hlater⟩ | _)
        · exact absurd rfl hb
        · exact hlater
        · exact absurd rfl hb
      · exact .skip hb
    rwa [hiff]

theorem chunkDigits_digits (res : Int) (off : Nat) (s : Bytes) :
    ∃ off', chunkDigits res off s
      = chunkDigits (accumulateAll 16 res (leadingDigits hexVal s)) off'
          (behindDigits hexVal s) := by
  induction s generalizing res off with
  | nil => exact ⟨off, rfl⟩
  | cons b s ih =>
    cases hb : hexVal b with
    | none =>
      rw [leadingDigits_cons_none hb, behindDigits_cons_none hb]
      exact ⟨off, rfl⟩
    | some d =>
      obtain ⟨off', heq⟩ := ih (accumulate 16 res d) (off + 1)
      refine ⟨off', ?_⟩
      rw [leadingDigits_cons_some hb, behindDigits_cons_some hb, chunkDigits,
        hexDigit_eq_hexVal, hb]
      exact heq

/-- The size that `parseChunkSize` finds, by the digits since the last start. -/
theorem parseChunkSize_size (inp : Bytes) :
    (HasLineEnd (behindDigits hexVal inp) ∧ leftover 16 (leadingDigits hexVal inp) ≠ [] →
      (parseChunkSize inp).2 = int64 (positional 16 (leftover 16 (leadingDigits hexVal inp)))) ∧
    (¬ (HasLineEnd (behindDigits hexVal inp) ∧ leftover 16 (leadingDigits hexVal inp) ≠ []) →
      (parseChunkSize inp).2 = -1) := by
  obtain ⟨off, heq⟩ := chunkDigits_digits (-1) 0 inp
  have hacc : accumulateAll 16 (-1) (leadingDigits hexVal inp) = _ :=
    accumulated_eq fun d hd => leadingDigits_lt (fun _ _ => hexVal_lt) hd
  rw [parseChunkSize, heq, hacc]
  cases hs : behindDigits hexVal inp with
  | nil => exact ⟨fun h => absurd h.1 not_hasLineEnd_nil, fun _ => rfl⟩
  | cons b rest =>
    have hb : hexDigit b = none := hexDigit_eq_hexVal b ▸ behindDigits_eq_cons hs
    rw [chunkDigits, hb]
    by_cases hcut : leftover 16 (leadingDigits hexVal inp) = []
    · rw [if_pos hcut, if_pos rfl]
      exact ⟨fun h => absurd hcut h.2, fun _ => rfl⟩
    · rw [if_neg hcut, if_neg (mt int64_eq_neg_one.mp (positional_leftover_ne hcut))]
      refine ⟨fun h => skipToCrlf_of_hasLineEnd.1 h.1, fun h => ?_⟩
      exact skipToCrlf_of_hasLineEnd.2 fun hend => h ⟨hend, hcut⟩

theorem parseChunkSize_lt (inp : Bytes) : (parseChunkSize inp).2 < 2 ^ 63 := by
  obtain ⟨hfound, hmissing⟩ := parseChunkSize_size inp
  by_cases h : HasLineEnd (behindDigits hexVal inp) ∧ leftover 16 (leadingDigits hexVal inp) ≠ []
  · rw [hfound h]
    exact int64_lt _
  · rw [hmissing h]
    decide

theorem parseChunkSize_exact_iff (inp : Bytes) :
    ExactOrRejected 16 (leadingDigits hexVal inp) (parseChunkSize inp).2 ↔
      positional 16 (leadingDigits hexVal inp) < 2 ^ 63 ∨
        leftover 16 (leadingDigits hexVal inp) = [] ∨ ¬ HasLineEnd (behindDigits hexVal inp) := by
  obtain ⟨hfound, hmissing⟩ := parseChunkSize_size inp
  by_cases hsmall : positional 16 (leadingDigits hexVal inp) < 2 ^ 63
  · refine iff_of_true ?_ (.inl hsmall)
    rw [leftover_eq_self (by decide) hsmall] at hfound hmissing
    by_cases h : HasLineEnd (behindDigits hexVal inp) ∧ leadingDigits hexVal inp ≠ []
    · exact .inr ⟨h.2, (hfound h).trans (int64_of_nat hsmall)⟩
    · exact .inl (hmissing h)
  · rw [exactOrRejected_of_large (parseChunkSize_lt inp) hsmall, or_iff_right hsmall]
    by_cases h : HasLineEnd (behindDigits hexVal inp) ∧ leftover 16 (leadingDigits hexVal inp) ≠ []
    · rw [hfound h]
      refine iff_of_false (mt int64_eq_neg_one.mp (positional_leftover_ne h.2)) ?_
      rintro (hcut | hend)
      · exact h.2 hcut
      · exact hend h.1
    · refine iff_of_true (hmissing h) ?_
      by_cases hend : HasLineEnd (behindDigits hexVal inp)
      · exact .inl (not_not.mp fun hcut => h ⟨hend, hcut⟩)
      · exact .inr hend

/-! ### The framing of a response -/

/-- The exact number that stands behind the content-length field at `offset`. -/
def announced (headers : Bytes) (offset : Nat) : Nat :=
  positional 10 (decimalDigits (headers.drop (offset + contentLengthHeader.length)))

/-- The exact number at the beginning of the size line at `m`. -/
def announcedChunk (data : Bytes) (m : Nat) : Nat :=
  positional 16 (leadingDigits hexVal (data.drop m))

/-- The end of every chunk which the client comes to from `h` on fits an `int64`. -/
def ChunksFit (data : Bytes) (len h : Nat) : Prop :=
  ∀ m d v, ChunkWalk data len h m → ChunkAt data m d v →
    m + d + announcedChunk data m.toNat + 2 < 2 ^ 63

/-- The ends of a response whose headers have `h` bytes fit an `int64`: that of the body, for a
content length, and else that of every chunk which the client comes to. -/
structure LengthsFit (pieces : List Bytes) (len h : Nat) : Prop where
  length : ∀ offset, foldFind (pieces.flatten.take h) contentLengthHeader = some offset →
    h + announced (pieces.flatten.take h) offset < 2 ^ 63
  chunks : foldFind (pieces.flatten.take h) contentLengthHeader = none →
    ChunksFit (pieces.flatten.take len) len h

/-- From the position `m` on, every announced chunk lies within the first `s` bytes, up to the size
line of the last chunk, or of a chunk that is too large for a buffer of `len` bytes. -/
inductive ChunksFramed (data : Bytes) (len s : Nat) : Nat → Prop where
  | last {m d : Nat} (line : ChunkAt data m d 0) (exact : announcedChunk data m = 0)
      (there : m + d ≤ s) : ChunksFramed data len s m
  | large {m d n : Nat} (line : ChunkAt data m d n) (exact : announcedChunk data m = n)
      (there : m + d ≤ s) (large : len < m + d + n + 2) : ChunksFramed data len s m
  | more {m d n : Nat} (line : ChunkAt data m d n) (exact : announcedChunk data m = n)
      (next : ChunksFramed data len s (m + d + n + 2)) : ChunksFramed data len s m

/-- The response that a client has read in `s` bytes is framed by the lengths that it announces, as
far as a buffer of `len` bytes holds them. A content length is reached with this read, and with no
earlier one. -/
inductive FramedExactly (pieces : List Bytes) (len h s : Nat) : Prop where
  | length {offset : Nat}
      (found : foldFind (pieces.flatten.take h) contentLengthHeader = some offset)
      (enough : min (h + announced (pieces.flatten.take h) offset) len ≤ s)
      (first : ∀ s', ReadEnd pieces len s' → h ≤ s' → s' < s →
        s' < min (h + announced (pieces.flatten.take h) offset) len)
  | chunks (none : foldFind (pieces.flatten.take h) contentLengthHeader = none)
      (found : (foldFind (pieces.flatten.take h) chunkedHeader).isSome = true)
      (framed : ChunksFramed (pieces.flatten.take len) len s h)

section
variable {g : Settings} {pieces : List Bytes} {len h r s : Nat}

/-- A content length that is not rejected and fits is read exactly. -/
theorem parseDecimal_of_fits {inp : Bytes} (hfit : positional 10 (decimalDigits inp) < 2 ^ 63)
    (h0 : 0 ≤ parseDecimal inp) : parseDecimal inp = positional 10 (decimalDigits inp) := by
  rcases (parseDecimal_exact_iff inp).mpr (.inl hfit) with hrejected | ⟨-, hexact⟩
  · omega
  · exact hexact

/-- A chunk whose end fits has the announced size, and the client computes its end exactly. -/
theorem ChunkAt.exact {data : Bytes} {m : Int} {v : Int} (hc : ChunkAt data m d v)
    (hfit : m + d + announcedChunk data m.toNat + 2 < 2 ^ 63) :
    v = announcedChunk data m.toNat ∧ chunkEnd m d v = m + d + v + 2 := by
  obtain ⟨h0, -, hparse, hne⟩ := hc
  have hsmall : positional 16 (leadingDigits hexVal (data.drop m.toNat)) < 2 ^ 63 := by
    unfold announcedChunk at hfit
    omega
  have hv : v = announcedChunk data m.toNat := by
    rcases (parseChunkSize_exact_iff (data.drop m.toNat)).mpr (.inl hsmall) with hrejected | ⟨-, h⟩
    · rw [hparse] at hrejected
      exact absurd hrejected hne
    · rw [hparse] at h
      exact h
  refine ⟨hv, ?_⟩
  rw [chunkEnd, int64_of_range (by omega) (by omega)]

/-- A walk that stops has every chunk on its way within the bytes received. -/
theorem ChunkStop.framed (hstop : ChunkStop (pieces.flatten.take s) len h) (hs : s ≤ len)
    (hfit : ChunksFit (pieces.flatten.take len) len h) :
    ChunksFramed (pieces.flatten.take len) len s h := by
  have hmore := take_eq_take_append pieces.flatten hs
  -- A chunk of the walk in the data of the whole buffer, with its exact size.
  have hline : ∀ {m : Int} {d : Nat} {v : Int}, ChunkWalk (pieces.flatten.take s) len h m →
      ChunkAt (pieces.flatten.take s) m d v → ∃ n : Nat, v = n ∧
        ChunkAt (pieces.flatten.take len) m.toNat d n ∧
        announcedChunk (pieces.flatten.take len) m.toNat = n ∧ m.toNat + d ≤ s ∧
        chunkEnd m d v = m + d + n + 2 := by
    intro m d v hw hc
    have hc' : ChunkAt (pieces.flatten.take len) m d v := by rw [hmore]; exact hc.mono
    obtain ⟨hv, hend⟩ := hc'.exact (hfit m d v (by rw [hmore]; exact hw.mono) hc')
    have hm : (m.toNat : Int) = m := Int.toNat_of_nonneg hc.1
    refine ⟨_, hv, ?_, rfl, hc.end_le.trans (List.length_take_le s pieces.flatten), hv ▸ hend⟩
    rw [hm, ← hv]
    exact hc'
  refine hstop.induction (P := fun m => ChunksFramed (pieces.flatten.take len) len s m.toNat) ?_ ?_
  · intro m d v hw hc hwhy
    obtain ⟨n, rfl, hl, hn, hthere, hend⟩ := hline hw hc
    rcases hwhy with hzero | hbig
    · obtain rfl : n = 0 := by exact_mod_cast hzero
      exact .last hl hn hthere
    · exact .large hl hn hthere (by omega)
  · intro m d v hw hc hnext
    obtain ⟨n, rfl, hl, hn, -, hend⟩ := hline hw hc
    have h0 := hc.1
    rw [hend, show (m + d + n + 2).toNat = m.toNat + d + n + 2 by omega] at hnext
    exact .more hl hn hnext

/-- Unless the connection is to be closed, the limit only cuts the end off at the buffer size. -/
theorem limited_of_keep {headers : Bytes} {max : Int}
    (hkeep : (limited g headers len max).1 = true) :
    (limited g headers len max).2 = min max len := by
  unfold limited at hkeep ⊢
  split at hkeep
  · cases hkeep
  · rw [if_neg ‹_›]

/-- A first chunk that was read with the headers is on the way as well. The limit of the client is
its end, or the buffer size when the chunk is too large. -/
theorem chunksFramed_of_first (hs : s ≤ len) (hfit : ChunksFit (pieces.flatten.take len) len h)
    {v : Int} (hc : ChunkAt (pieces.flatten.take s) h d v)
    (hstop : ChunkStop (pieces.flatten.take s) len (min (chunkEnd h d v) len)) :
    ChunksFramed (pieces.flatten.take len) len s h := by
  have hmore := take_eq_take_append pieces.flatten hs
  have hc' : ChunkAt (pieces.flatten.take len) h d v := by rw [hmore]; exact hc.mono
  obtain ⟨rfl, hend⟩ := hc'.exact (hfit h d v .refl hc')
  have hthere : h + d ≤ s := hc.end_le.trans (List.length_take_le s pieces.flatten)
  by_cases hlarge : len < h + d + announcedChunk (pieces.flatten.take len) h + 2
  · exact .large hc' rfl hthere hlarge
  · by_cases h0 : announcedChunk (pieces.flatten.take len) h = 0
    · rw [Int.toNat_natCast, h0] at hc'
      exact .last hc' h0 hthere
    · rw [Int.toNat_natCast] at hc hend hstop
      have hmin : min (chunkEnd h d (announcedChunk (pieces.flatten.take len) h)) len
          = chunkEnd h d (announcedChunk (pieces.flatten.take len) h) := min_eq_left (by omega)
      have hstep : ChunkStep (pieces.flatten.take s) len h
          (chunkEnd h d (announcedChunk (pieces.flatten.take len) h)) :=
        ⟨d, _, hc, by omega, rfl, by omega⟩
      rw [hmin] at hstop
      exact (hstep.stop_iff.mpr hstop).framed hs hfit

/-- The framings for which the client would keep the connection, with what it read them from: a
content length, chunks whose first size line is not there yet, and chunks of which it has the first
size line. -/
inductive KeptFraming (pieces : List Bytes) (len h r : Nat) : Framing → Prop where
  | length {offset : Nat} {n : Int}
      (found : foldFind (pieces.flatten.take h) contentLengthHeader = some offset)
      (read : parseDecimal ((pieces.flatten.take h).drop (offset + contentLengthHeader.length)) = n)
      (nonneg : 0 ≤ n) : KeptFraming pieces len h r (.length true (min (int64 (h + n)) len))
  | chunks (none : foldFind (pieces.flatten.take h) contentLengthHeader = none)
      (found : (foldFind (pieces.flatten.take h) chunkedHeader).isSome = true) :
      KeptFraming pieces len h r (.chunks true h)
  | first {d : Nat} {v : Int} (none : foldFind (pieces.flatten.take h) contentLengthHeader = none)
      (found : (foldFind (pieces.flatten.take h) chunkedHeader).isSome = true)
      (line : ChunkAt (pieces.flatten.take r) h d v) :
      KeptFraming pieces len h r (.chunks true (min (chunkEnd h d v) len))

theorem Headed.keptFraming {f : Framing} (hh : Headed g pieces len h r f) (hkeep : f.keep = true) :
    KeptFraming pieces len h r f := by
  have hf := hh.framed
  unfold framing at hf
  rw [List.take_take, Nat.min_eq_left hh.le] at hf
  cases hfind : foldFind (pieces.flatten.take h) contentLengthHeader with
  | some offset =>
    simp only [hfind] at hf
    split at hf
    · subst hf
      cases hkeep
    · subst hf
      rw [limited_of_keep hkeep, show (limited _ _ _ _).1 = true from hkeep]
      exact .length hfind rfl (by omega)
  | none =>
    simp only [hfind] at hf
    by_cases hcoded : (foldFind (pieces.flatten.take h) chunkedHeader).isSome = true
    · rw [if_pos hcoded] at hf
      by_cases hno : (parseChunkSize ((pieces.flatten.take r).drop h)).2 = -1
      · rw [if_pos hno] at hf
        subst hf
        exact .chunks hfind hcoded
      · rw [if_neg hno] at hf
        subst hf
        rw [limited_of_keep hkeep, show (limited _ _ _ _).1 = true from hkeep]
        have hle : h ≤ (pieces.flatten.take r).length := by
          rw [List.length_take]
          exact le_min hh.le (hh.le.trans hh.readEnd.le_length)
        exact .first hfind hcoded ⟨by omega, by omega, rfl, hno⟩
    · rw [if_neg hcoded] at hf
      subst hf
      cases hkeep

/-- The lengths that fit frame the response, when the client takes it for complete and would keep
the connection. -/
theorem LengthsFit.framed {f : Framing} (hfit : LengthsFit pieces len h)
    (hh : Headed g pieces len h r f) (hkeep : f.keep = true) (hs : ReadEnd pieces len s)
    (hr : r ≤ s) (hdone : f.Done len (pieces.flatten.take s))
    (hbefore : ∀ s', ReadEnd pieces len s' → r ≤ s' → s' < s →
      ¬ f.Done len (pieces.flatten.take s')) : FramedExactly pieces len h s := by
  cases hh.keptFraming hkeep with
  | @length offset n found read nonneg =>
    have hsum := hfit.length offset found
    have hexact : n = announced (pieces.flatten.take h) offset := by
      rw [← read]
      apply parseDecimal_of_fits
      · unfold announced at hsum
        omega
      · omega
    have hint : int64 (h + n) = h + n := int64_of_range (by omega) (by omega)
    simp only [hint, Framing.Done, List.length_take] at hdone hbefore
    apply FramedExactly.length found
    · omega
    · intro s' hs' hle hlt'
      have hnot := hbefore s' hs' (hh.first s' hs' hle) hlt'
      omega
  | chunks none found =>
    exact .chunks none found (ChunkStop.framed hdone hs.le (hfit.chunks none))
  | @first d v none found line =>
    have hline : ChunkAt (pieces.flatten.take s) h d v := by
      rw [take_eq_take_append pieces.flatten hr]
      exact line.mono
    exact .chunks none found (chunksFramed_of_first hs.le (hfit.chunks none) hline hdone)

/-- A client that keeps the connection, before the end of the stream, has framed the response by
the lengths that it announces, when they fit. -/
theorem framed_of_kept {reused : Bool} {c c' : FastClient} {conn conn' : Conn}
    (hs : Starting c conn) (hparse : c.parseHeaders = true) (hopen : conn.ending ≠ some .eof)
    (hout : Responds g c conn reused (.returned c' conn')) (hkept : c'.socket = some conn') :
    ∃ h, HeaderEnd conn.pending h ∧ (LengthsFit conn.pending c.buffer.length h →
      FramedExactly conn.pending c.buffer.length h c'.data.length) := by
  cases responds_ended hs hout with
  | returned s code keep _ _ reason final =>
    have hk := final.keep_of_socket hs hkept
    rcases reason.keep_cases hparse hk with ⟨_, heof⟩ | ⟨h, r, f, headed, hfk, le, now, before⟩
    · exact absurd heof hopen
    · refine ⟨h, headed.headerEnd, fun hfit => ?_⟩
      have hlen : c'.data.length = s := by
        rw [final.data, List.length_take, Nat.min_eq_left final.readEnd.le_length]
      rw [hlen]
      exact hfit.framed headed hfk final.readEnd le now before

end

/-! ### Both parsers and the client -/

/-- Which inputs are read exactly or rejected: the number fits an `int64`, or all its digits are
before a start of the accumulator. A chunk size is also rejected when its line is not complete.

With lengths that fit where `readResponse` adds them to a position, a response whose connection the
client keeps before the end of the stream is framed by the lengths that it announces. -/
theorem lengths_exact_iff (inp : Bytes) :
    (ExactOrRejected 10 (decimalDigits inp) (parseDecimal inp) ↔
      positional 10 (decimalDigits inp) < 2 ^ 63 ∨ RejectedDecimal inp) ∧
    (ExactOrRejected 16 (leadingDigits hexVal inp) (parseChunkSize inp).2 ↔
      positional 16 (leadingDigits hexVal inp) < 2 ^ 63 ∨
        leftover 16 (leadingDigits hexVal inp) = [] ∨ ¬ HasLineEnd (behindDigits hexVal inp)) ∧
    ∀ (g : Settings) (reused : Bool) (c : FastClient) (conn : Conn) (passes : Nat)
      (c' : FastClient) (conn' : Conn), Starting c conn → c.parseHeaders = true →
      conn.ending ≠ some .eof → c.readResponse g passes conn reused = some (.returned c' conn') →
      c'.socket = some conn' → ∃ h, HeaderEnd conn.pending h ∧
        (LengthsFit conn.pending c.buffer.length h →
          FramedExactly conn.pending c.buffer.length h c'.data.length) := by
  refine ⟨parseDecimal_exact_iff inp, parseChunkSize_exact_iff inp, ?_⟩
  intro g reused c conn passes c' conn' hs hparse hopen hrun hkept
  exact framed_of_kept hs hparse hopen (readResponse_eq_some_iff.mp ⟨passes, hrun⟩) hkept

/-- A response of 5 bytes in two reads, the first of which has 2 of them. -/
def lengthInTwo : List Bytes :=
  [ascii "HTTP/1.1 200 OK\r\nContent-Length: 5\r\n\r\nhe", ascii "llo"]

theorem lengthsFit_lengthInTwo : LengthsFit lengthInTwo 128 38 := by
  have hfind : foldFind (lengthInTwo.flatten.take 38) contentLengthHeader = some 15 := by
    decide +kernel
  constructor
  · intro offset hoffset
    cases hfind.symm.trans hoffset
    decide +kernel
  · intro hnone
    cases hnone

theorem lengths_exact_lengthInTwo :
    ∃ c' conn', (FastClient.idle 128 (by decide)).readResponse quiet 4
      (.arriving lengthInTwo none (by decide)) false = some (.returned c' conn') ∧
      c'.socket = some conn' ∧ LengthsFit lengthInTwo 128 38 ∧
      FramedExactly lengthInTwo 128 38 c'.data.length := by
  have hrun : ((FastClient.idle 128 (by decide)).readResponse quiet 4
      (.arriving lengthInTwo none (by decide)) false).any (Outcome.returns fun c' conn' =>
        decide (c'.socket = some conn')) = true := by
    decide +kernel
  obtain ⟨c', conn', heq, hp⟩ := exists_of_returns hrun
  have hkept := of_decide_eq_true hp
  have hopen : (Conn.arriving lengthInTwo none (by decide)).ending ≠ some .eof := by decide
  obtain ⟨h, hend, hframed⟩ := (lengths_exact_iff []).2.2 quiet false _ _ 4 c' conn' starting_idle
    rfl hopen heq hkept
  have hheaders : HeaderEnd lengthInTwo 38 := by decide +kernel
  obtain rfl : h = 38 := hend.unique hheaders
  exact ⟨c', conn', heq, hkept, lengthsFit_lengthInTwo, hframed lengthsFit_lengthInTwo⟩

/-- A response that announces `2 ^ 64 + 2` bytes, and has the first 5 of them. -/
def overflowAnswer : List Bytes :=
  [ascii "HTTP/1.1 200 OK\r\nContent-Length: 18446744073709551618\r\n\r\nhello"]

/-- A response that announces `2 ^ 63 - 1` bytes, and has the first 5 of them. The number is read
exactly, but its sum with the length of the headers is negative. -/
def wrappedAnswer : List Bytes :=
  [ascii "HTTP/1.1 200 OK\r\nContent-Length: 9223372036854775807\r\n\r\nhello"]

/-- `Fetch` with a buffer of 128 bytes returns `200` for `answer`, of which it has all bytes, and
keeps the connection, although the server has not closed it. -/
def FetchedWhole (answer : List Bytes) (h : ∀ p ∈ answer, p ≠ []) : Prop :=
  ∃ c used, (FastClient.idle 128 (by decide)).fetch quiet (fun _ => .answering answer none h)
      2 1 0 [] = some (.returned c used) ∧
    c.code = statusOK ∧ c.socket.isSome = true ∧ c.data = answer.flatten

theorem fetchedWhole_of_returns {answer : List Bytes} {h : ∀ p ∈ answer, p ≠ []}
    (hcheck : ((FastClient.idle 128 (by decide)).fetch quiet (fun _ => .answering answer none h)
      2 1 0 []).any (FetchOutcome.returns fun c =>
        decide (c.code = statusOK ∧ c.socket.isSome = true ∧ c.data = answer.flatten)) = true) :
    FetchedWhole answer h := by
  obtain ⟨c, used, hret, hp⟩ := exists_of_fetch_returns hcheck
  exact ⟨c, used, hret, of_decide_eq_true hp⟩

/-- Lengths that are too large come out as small ones and as negative ones, and so does the sum of
a length and a position. `Fetch` takes two responses for complete after 5 bytes of their bodies, and
keeps their connections. -/
theorem fetch_overflow :
    ¬ ExactOrRejected 10 (decimalDigits (ascii " 18446744073709551618"))
        (parseDecimal (ascii " 18446744073709551618")) ∧
      parseDecimal (ascii " 18446744073709551618") = 2 ∧
      parseDecimal (ascii "9223372036854775808") = - 2 ^ 63 ∧
      parseDecimal (ascii "18446744073709551615 7") = 7 ∧
      parseChunkSize (ascii "10000000000000005\r\n") = (19, 5) ∧
      FetchedWhole overflowAnswer (by decide) ∧
      parseDecimal (ascii " 9223372036854775807") = 2 ^ 63 - 1 ∧
      FetchedWhole wrappedAnswer (by decide) := by
  have hsmall : parseDecimal (ascii " 18446744073709551618") = 2 := by decide +kernel
  refine ⟨?_, hsmall, by decide +kernel, by decide +kernel, by decide +kernel,
    fetchedWhole_of_returns (by decide +kernel), by decide +kernel,
    fetchedWhole_of_returns (by decide +kernel)⟩
  have hvalue : positional 10 (decimalDigits (ascii " 18446744073709551618"))
      = 18446744073709551618 := by decide +kernel
  rw [hsmall, ExactOrRejected, hvalue]
  decide

end IstioVendor.Fhttp
