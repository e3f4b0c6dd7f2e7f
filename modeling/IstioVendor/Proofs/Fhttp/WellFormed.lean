import IstioVendor.Proofs.Fhttp.FoldFind
import IstioVendor.Proofs.Fhttp.Numbers
import IstioVendor.Proofs.Fhttp.SocketReuse
import Mathlib.Data.List.Forall2

/-!
# `IstioVendor.Proofs.Fhttp.WellFormed`: how the fast client reads a well-formed response

The client scans for names and numbers and does not parse. On a well-formed response the
scanners find what the response means: the size of a chunk (`parseChunkSize_sizeLine`), a
content length (`parseDecimal_numeral`), a field by its name (`field_of_match`,
`exists_match`), the end of the headers (`headerEnd_iff_not_cut`).

`framing_length` and `framing_chunks` put this together for the two kinds of bodies, when the
framing field is spelt as the client expects it (`Recognised`). `chunkStop_iff` says that the
walk along the chunks stops as soon as the size line of the last chunk has arrived.
-/

set_option autoImplicit false

namespace IstioVendor.Fhttp

open Lib
open Lib.Http

/-! ### The chunks -/

variable {len n s i : Nat} {g : Settings}

/-- A step leads to the same stop. -/
theorem ChunkStep.stop_iff {data : Bytes} {m m' : Int} (h : ChunkStep data len m m') :
    ChunkStop data len m ↔ ChunkStop data len m' := by
  constructor
  · rintro ⟨e, hwalk, hstop⟩
    rcases hwalk.cases_head with rfl | ⟨x, hx, hrest⟩
    · exact absurd h hstop.not_step
    · obtain rfl := h.unique hx
      exact ⟨e, hrest, hstop⟩
  · rintro ⟨e, hwalk, hstop⟩
    exact ⟨e, .head h hwalk, hstop⟩

/-- The size line at the position `pre` is there as soon as it has arrived whole. -/
theorem chunkAt_take (l : SizeLine n) (hn : n < 2 ^ 63) (pre rest : Bytes)
    (hs : pre.length + l.bytes.length ≤ s) :
    ChunkAt ((pre ++ l.bytes ++ rest).take s) pre.length l.bytes.length n := by
  refine ⟨by omega, ?_, ?_, by omega⟩
  · rw [List.length_take]
    simp only [List.length_append]
    omega
  · have hp := parseChunkSize_sizeLine l hn rest
    rw [Int.toNat_natCast, List.drop_take, List.append_assoc, List.drop_left,
      parseChunkSize_take _ _ (by rw [hp]; simp) (by rw [hp]; omega), hp]

/-- The size line at the position `pre` is waited for until it has arrived whole. -/
theorem chunkWaitAt_take (l : SizeLine n) (hn : n < 2 ^ 63) (pre rest : Bytes)
    (hs : s < pre.length + l.bytes.length) :
    ChunkWaitAt ((pre ++ l.bytes ++ rest).take s) pre.length := by
  have hp := parseChunkSize_sizeLine l hn rest
  rcases Nat.lt_or_ge s pre.length with hlt | hge
  · left
    rw [List.length_take]
    omega
  · right
    refine ⟨by omega, ?_⟩
    rw [Int.toNat_natCast, List.drop_take, List.append_assoc, List.drop_left]
    by_contra hne
    have := ((parseChunkSize_take_ne_iff _ _).mp hne).2
    rw [hp] at this
    omega

/-- The walk along well-formed chunks stops as soon as the size line of the last chunk has
arrived. Induction on the chunks, with the bytes before them in `pre`. -/
theorem chunkStop_iff (chunks : List Chunk) (last : SizeLine 0) (pre rest : Bytes)
    (hlen : (pre ++ chunks.flatMap Chunk.bytes ++ last.bytes ++ rest).length ≤ len)
    (hmax : len < 2 ^ 63) :
    ChunkStop ((pre ++ chunks.flatMap Chunk.bytes ++ last.bytes ++ rest).take s) len pre.length ↔
      (pre ++ chunks.flatMap Chunk.bytes ++ last.bytes).length ≤ s := by
  induction chunks generalizing pre with
  | nil =>
    simp only [List.flatMap_nil, List.append_nil]
    constructor
    · intro hstop
      by_contra hgt
      rw [List.length_append] at hgt
      exact ChunkWalk.not_stop_of_wait .refl
        (chunkWaitAt_take last (by decide) pre rest (by omega)) hstop
    · intro hle
      rw [List.length_append] at hle
      exact ⟨_, .refl, _, _, chunkAt_take last (by decide) pre rest hle, .inl rfl⟩
  | cons c chunks ih =>
    have htext : pre ++ (c :: chunks).flatMap Chunk.bytes ++ last.bytes ++ rest
        = pre ++ c.line.bytes ++ (c.data ++ crlf ++ chunks.flatMap Chunk.bytes ++ last.bytes
          ++ rest) := by
      simp [Chunk.bytes]
    have htext' : pre ++ (c :: chunks).flatMap Chunk.bytes ++ last.bytes ++ rest
        = (pre ++ c.bytes) ++ chunks.flatMap Chunk.bytes ++ last.bytes ++ rest := by
      simp
    have hc : c.bytes.length = c.line.bytes.length + c.data.length + 2 := by
      simp [Chunk.bytes, crlf, Nat.add_assoc]
    have hsize : pre.length + c.line.bytes.length + c.data.length + 2 ≤ len := by
      rw [htext'] at hlen
      simp only [List.length_append] at hlen
      omega
    have hpos : (pre ++ (c :: chunks).flatMap Chunk.bytes ++ last.bytes).length
        = ((pre ++ c.bytes) ++ chunks.flatMap Chunk.bytes ++ last.bytes).length := by
      simp
    -- When the size line of the chunk has arrived, the walk takes a step over the whole chunk.
    by_cases hs : pre.length + c.line.bytes.length ≤ s
    · have hstep : ChunkStep ((pre ++ (c :: chunks).flatMap Chunk.bytes ++ last.bytes
          ++ rest).take s) len pre.length (pre ++ c.bytes).length := by
        refine ⟨c.line.bytes.length, c.data.length, ?_, ?_, ?_, ?_⟩
        · rw [htext]
          exact chunkAt_take c.line (by omega) pre _ hs
        · have := List.length_pos_iff.mpr c.data_ne
          omega
        · unfold chunkEnd
          rw [int64_of_range (by omega) (by omega), List.length_append, hc]
          omega
        · rw [List.length_append, hc]
          omega
      rw [hstep.stop_iff, htext', ih (pre ++ c.bytes) (by rwa [← htext']), hpos]
    · -- The walk waits for this size line, and the last one is behind it.
      constructor
      · intro hstop
        rw [htext] at hstop
        exact absurd hstop (ChunkWalk.not_stop_of_wait .refl
          (chunkWaitAt_take c.line (by omega) pre _ (by omega)))
      · intro hle
        rw [hpos] at hle
        simp only [List.length_append] at hle
        omega

/-! ### The header fields -/

/-- Two byte strings agree up to ASCII case, as the client compares them. -/
def FoldEq (xs needle : Bytes) : Prop :=
  List.Forall₂ (fun h n => foldDiffers h n = false) xs needle

theorem foldMatchAt_iff {haystack needle : Bytes} :
    FoldMatchAt haystack needle i ↔
      ∃ xs rest, haystack.drop i = xs ++ rest ∧ FoldEq xs needle ∧ i ≤ haystack.length := by
  constructor
  · rintro ⟨hlen, hall⟩
    refine ⟨(haystack.drop i).take needle.length, (haystack.drop i).drop needle.length,
      (List.take_append_drop _ _).symm, ?_, by omega⟩
    refine List.forall₂_iff_get.mpr ⟨?_, fun j h1 h2 => ?_⟩
    · rw [List.length_take, List.length_drop]
      omega
    · have := hall j h2
      rw [List.getD_eq_getElem _ _ (by omega), List.getD_eq_getElem _ _ h2] at this
      simpa using this
  · rintro ⟨xs, rest, hdrop, heq, hi⟩
    have hlen := heq.length_eq
    have hlen' := congrArg List.length hdrop
    rw [List.length_drop, List.length_append] at hlen'
    refine ⟨by omega, fun j hj => ?_⟩
    have hget := (List.forall₂_iff_get.mp heq).2 j (by omega) hj
    rw [List.getD_eq_getElem?_getD, List.getD_eq_getElem _ _ hj, ← List.getElem?_drop, hdrop,
      List.getElem?_append_left (by omega), List.getElem?_eq_getElem (by omega)]
    simpa using hget

/-- The bytes of the three header names, apart from the line end. -/
def IsNameByte (n : UInt8) : Prop :=
  n = 32 ∨ n = 45 ∨ n = 58 ∨ 65 ≤ n ∧ n ≤ 90 ∨ 97 ≤ n ∧ n ≤ 122

instance (n : UInt8) : Decidable (IsNameByte n) := inferInstanceAs (Decidable (_ ∨ _))

theorem eq_of_lower_eq {h m : UInt8} (heq : lower h = m) : h = m ∨ h = m - 32 := by
  unfold lower at heq
  split at heq
  · right
    rw [← heq, UInt8.add_sub_cancel]
  · exact .inl heq

/-- On such bytes the client compares up to the case of letters. -/
theorem foldDiffers_iff_lower (h n : UInt8) (hn : IsNameByte n) :
    foldDiffers h n = false ↔ lower h = lower n := by
  have key : ∀ n : Fin 256, IsNameByte (UInt8.ofFin n) →
      (foldDiffers (UInt8.ofFin n ^^^ 32) (UInt8.ofFin n) = false →
        lower (UInt8.ofFin n ^^^ 32) = lower (UInt8.ofFin n)) ∧
      foldDiffers (lower (UInt8.ofFin n)) (UInt8.ofFin n) = false ∧
      (lower (lower (UInt8.ofFin n) - 32) = lower (UInt8.ofFin n) →
        foldDiffers (lower (UInt8.ofFin n) - 32) (UInt8.ofFin n) = false) := by
    decide +kernel
  obtain ⟨hflip, hlow, hup⟩ := key n.toFin hn
  constructor
  · intro hd
    rcases eq_of_foldDiffers hd with rfl | rfl
    · rfl
    · exact hflip hd
  · intro heq
    rcases eq_of_lower_eq heq with rfl | rfl
    · exact hlow
    · exact hup heq

theorem foldEq_iff_lower {xs needle : Bytes} (hn : ∀ n ∈ needle, IsNameByte n) :
    FoldEq xs needle ↔ xs.map lower = needle.map lower := by
  induction needle generalizing xs with
  | nil => cases xs <;> simp [FoldEq]
  | cons n needle ih =>
    cases xs with
    | nil => simp [FoldEq]
    | cons x xs =>
      have hrest : FoldEq xs needle ↔ xs.map lower = needle.map lower :=
        ih fun m hm => hn m (by simp [hm])
      unfold FoldEq at hrest ⊢
      rw [List.forall₂_cons, hrest, foldDiffers_iff_lower x n (hn n (by simp))]
      simp

theorem foldEq_crlf {xs : Bytes} : FoldEq xs crlf ↔ xs = crlf := by
  have key : ∀ n : Fin 256, (foldDiffers (UInt8.ofFin n) 13 = false ↔ UInt8.ofFin n = 13) ∧
      (foldDiffers (UInt8.ofFin n) 10 = false ↔ UInt8.ofFin n = 10) := by
    decide +kernel
  rcases xs with _ | ⟨a, _ | ⟨b, _ | ⟨x, xs⟩⟩⟩
  · simp [FoldEq, crlf]
  · simp [FoldEq, crlf]
  · simp only [FoldEq, crlf, List.forall₂_cons, List.Forall₂.nil, and_true, List.cons.injEq]
    exact and_congr (key a.toFin).1 (key b.toFin).2
  · simp [FoldEq, crlf]

theorem foldEq_append {xs a b : Bytes} :
    FoldEq xs (a ++ b) ↔ ∃ ys zs, xs = ys ++ zs ∧ FoldEq ys a ∧ FoldEq zs b := by
  constructor
  · intro h
    refine ⟨xs.take a.length, xs.drop a.length, (List.take_append_drop _ _).symm, ?_, ?_⟩
    · have := List.forall₂_take a.length h
      rwa [List.take_left] at this
    · have := List.forall₂_drop a.length h
      rwa [List.drop_left] at this
  · rintro ⟨ys, zs, rfl, h1, h2⟩
    exact List.rel_append h1 h2

theorem append_colon_inj {a b x y : Bytes} (ha : 58 ∉ a) (hb : 58 ∉ b)
    (h : a ++ 58 :: x = b ++ 58 :: y) : a = b ∧ x = y := by
  induction a generalizing b with
  | nil =>
    cases b with
    | nil => exact ⟨rfl, (List.cons.inj h).2⟩
    | cons c b =>
      cases h
      exact absurd List.mem_cons_self hb
  | cons c a ih =>
    cases b with
    | nil =>
      cases h
      exact absurd List.mem_cons_self ha
    | cons c' b =>
      obtain ⟨rfl, h'⟩ := List.cons.inj h
      obtain ⟨rfl, rfl⟩ := ih (fun hm => ha (by simp [hm])) (fun hm => hb (by simp [hm])) h'
      exact ⟨rfl, rfl⟩

theorem lower_eq_colon (b : UInt8) : lower b = 58 ↔ b = 58 := by
  have key : ∀ n : Fin 256, lower (UInt8.ofFin n) = 58 ↔ UInt8.ofFin n = 58 := by decide +kernel
  exact key b.toFin

theorem lower_ne_cr (n : UInt8) (hn : IsNameByte n) : lower 13 ≠ lower n := by
  have key : ∀ n : Fin 256, IsNameByte (UInt8.ofFin n) → lower 13 ≠ lower (UInt8.ofFin n) := by
    decide +kernel
  exact key n.toFin hn

theorem mem_colon_of_map_lower {xs ys : Bytes} (h : xs.map lower = ys.map lower) :
    58 ∈ xs ↔ 58 ∈ ys := by
  have hmem : ∀ zs : Bytes, 58 ∈ zs ↔ 58 ∈ zs.map lower := fun zs => by
    simp [List.mem_map, lower_eq_colon]
  rw [hmem xs, hmem ys, h]

/-- A match of a header name in the header block is a field of that name, and what stands
behind the colon is its value. -/
theorem field_of_match (R : Response) {name more : Bytes} (hname : ∀ n ∈ name, IsNameByte n)
    (hcolon : 58 ∉ name) (hne : name ≠ [])
    (h : FoldMatchAt R.headers (crlf ++ (name ++ 58 :: more)) i) :
    ∃ f ∈ R.fields, f.name.map lower = name.map lower ∧
      ∃ rest, R.headers.drop (i + 2 + (name.length + 1)) = f.value ++ crlf ++ rest := by
  obtain ⟨xs, rest, hdrop, heq, hi⟩ := foldMatchAt_iff.mp h
  obtain ⟨c, ys, rfl, hc, hys⟩ := foldEq_append.mp heq
  obtain ⟨name', zs, rfl, hname', hzs⟩ := foldEq_append.mp hys
  obtain rfl := foldEq_crlf.mp hc
  obtain ⟨colon, more', rfl, hcol⟩ : ∃ colon more', zs = colon :: more' ∧
      foldDiffers colon 58 = false := by
    cases hzs with
    | cons h1 _ => exact ⟨_, _, rfl, h1⟩
  obtain rfl := eq_colon_of_foldDiffers colon hcol
  rw [foldEq_iff_lower hname] at hname'
  have hget : ∀ j, R.headers[i + j]? = (crlf ++ (name' ++ 58 :: more') ++ rest)[j]? := fun j => by
    rw [← hdrop, List.getElem?_drop]
  have hdrop2 : R.headers.drop (i + 2) = name' ++ 58 :: (more' ++ rest) := by
    rw [← List.drop_drop, hdrop]
    simp [crlf]
  rcases R.next_line ⟨hget 0, hget 1⟩ with hnil | hcrlf | ⟨f, hf, rest', hline⟩
  · simp [hnil] at hdrop2
  · -- The name would begin with a carriage return.
    rw [hcrlf] at hdrop2
    cases name with
    | nil => exact absurd rfl hne
    | cons n name =>
      cases name' with
      | nil => simp at hname'
      | cons b name' =>
        obtain ⟨rfl, -⟩ := List.cons.inj (show (13 : UInt8) :: [10] = _ from hdrop2)
        exact absurd (List.cons.inj hname').1 (lower_ne_cr n (hname n (by simp)))
  · have hcolon' : 58 ∉ name' := fun hm => hcolon ((mem_colon_of_map_lower hname').mp hm)
    have hsplit :
        f.name ++ 58 :: (f.value ++ (crlf ++ rest')) = name' ++ 58 :: (more' ++ rest) := by
      rw [← hdrop2, hline]
      simp [Field.line]
    obtain ⟨rfl, -⟩ := append_colon_inj f.name_colon hcolon' hsplit
    have hlen : name.length = f.name.length := by
      have := congrArg List.length hname'
      rw [List.length_map, List.length_map] at this
      exact this.symm
    refine ⟨f, hf, hname', rest', ?_⟩
    rw [← List.drop_drop, hline, show f.line ++ (crlf ++ rest')
      = (f.name ++ [58]) ++ (f.value ++ crlf ++ rest') by simp [Field.line],
      show name.length + 1 = (f.name ++ [58]).length by simp [hlen], List.drop_left]

/-! ### The headers -/

theorem statusCode_bytes (R : Response) : statusCode R.bytes = statusOK := by
  obtain ⟨rest, heq⟩ := R.bytes_eq
  unfold statusCode
  rw [heq, List.take_append_of_le_length (by decide)]
  decide

theorem headers_length_ge (R : Response) : retcodeOffset + 8 ≤ R.headers.length := by
  simp only [Response.headers, Response.lines, Response.statusLine, List.cons_append,
    joinLines_cons, joinLines_append, List.length_append]
  have : (ascii "HTTP/1.1 200 ").length = 13 := by decide
  have : crlf.length = 2 := rfl
  unfold retcodeOffset
  omega

/-- The client finds the end of the header block exactly when no read ends inside one of the
two line ends there. -/
theorem headerEnd_iff_not_cut (R : Response) {pieces : List Bytes}
    (hP : pieces.flatten = R.bytes) :
    HeaderEnd pieces R.headers.length ↔
      ¬ IsCut pieces (R.headers.length - 3) ∧ ¬ IsCut pieces (R.headers.length - 1) := by
  have hge := headers_length_ge R
  obtain ⟨p, hp⟩ : ∃ p, R.headers.length = p + 4 := ⟨R.headers.length - 4, by omega⟩
  have hcrlf : CrlfAt R.bytes p ∧ CrlfAt R.bytes (p + 2) := by
    obtain ⟨init, hinit⟩ := R.headers_eq
    have hlen : init.length = p := by
      rw [hinit] at hp
      simp [crlf] at hp
      omega
    have htext : R.bytes = init ++ (crlf ++ crlf ++ R.body.bytes) := by
      rw [Response.bytes, hinit]
      simp
    rw [htext, ← hlen]
    exact ⟨(crlfAt_append_right (q := 0)).mpr ⟨rfl, rfl⟩, crlfAt_append_right.mpr ⟨rfl, rfl⟩⟩
  rw [hp, show p + 4 - 3 = p + 1 by omega, show p + 4 - 1 = p + 2 + 1 by omega]
  constructor
  · rintro ⟨p', hp', hseen, _⟩
    obtain rfl : p' = p := by omega
    exact ⟨hseen.1.2.2, hseen.2.2.2⟩
  · rintro ⟨h1, h3⟩
    refine ⟨p, rfl, ⟨⟨by omega, hP ▸ hcrlf.1, h1⟩, ⟨by omega, hP ▸ hcrlf.2, h3⟩⟩, ?_⟩
    intro q hq hseen
    -- There is no other blank line in the header block.
    have hin : ∀ x, x + 1 < R.headers.length → CrlfAt pieces.flatten x → CrlfAt R.headers x :=
      fun x hx hc => (crlfAt_append_left hx).mp (by rw [← Response.bytes, ← hP]; exact hc)
    have := R.blankLine (hin q (by omega) hseen.1.2.1) (hin (q + 2) (by omega) hseen.2.2.1)
    omega

theorem take_headers (R : Response) {r : Nat} (hr : R.headers.length ≤ r) :
    (R.bytes.take r).take R.headers.length = R.headers := by
  rw [List.take_take, Nat.min_eq_left hr, Response.bytes, List.take_left]

/-- A space or a tab. -/
def isBlank (b : UInt8) : Bool := b == 32 || b == 9

/-- The framing field is spelt as the client looks for it: no tab in front of a content
length, and one space in front of `chunked`. -/
def Recognised (R : Response) : Prop :=
  match R.body with
  | .length _ => ∀ f ∈ R.fields, f.Named contentLength → 9 ∉ f.value.takeWhile isBlank
  | .chunked _ => ∃ f ∈ R.fields, f.Named transferEncoding ∧
      (f.value.take 8).map lower = ascii " chunked"

theorem contentLengthHeader_eq :
    contentLengthHeader = crlf ++ (contentLength ++ 58 :: []) := by decide

theorem chunkedHeader_eq :
    chunkedHeader = crlf ++ (ascii "Transfer-Encoding" ++ 58 :: ascii " chunked") := by decide

/-- A match of the content-length name is a content-length field. -/
theorem contentLength_of_match (R : Response) (h : FoldMatchAt R.headers contentLengthHeader i) :
    ∃ f ∈ R.fields, f.Named contentLength ∧
      ∃ rest, R.headers.drop (i + contentLengthHeader.length) = f.value ++ crlf ++ rest := by
  rw [contentLengthHeader_eq] at h
  obtain ⟨f, hf, hn, rest, hdrop⟩ := field_of_match R (by decide) (by decide) (by decide) h
  exact ⟨f, hf, hn.trans (by decide), rest, hdrop⟩

/-- Every field of a name is a match of that name. -/
theorem exists_match (R : Response) (name more : Bytes) {f : Field} (hf : f ∈ R.fields)
    (hname : ∀ n ∈ name, IsNameByte n) (hmore : ∀ n ∈ more, IsNameByte n)
    (hn : f.name.map lower = name.map lower)
    (hm : (f.value.take more.length).map lower = more.map lower) :
    ∃ i, FoldMatchAt R.headers (crlf ++ (name ++ 58 :: more)) i := by
  obtain ⟨i, rest, hi, hdrop⟩ := R.exists_drop_field hf
  refine ⟨i, foldMatchAt_iff.mpr ⟨crlf ++ (f.name ++ 58 :: f.value.take more.length),
    f.value.drop more.length ++ crlf ++ rest, ?_, ?_, hi⟩⟩
  · rw [hdrop, Field.line, ← List.append_assoc, ← List.append_assoc]
    simp only [List.append_assoc, List.cons_append]
    rw [← List.append_assoc (f.value.take _), List.take_append_drop]
  · refine foldEq_append.mpr ⟨_, _, rfl, foldEq_crlf.mpr rfl, foldEq_append.mpr ⟨_, _, rfl,
      (foldEq_iff_lower hname).mpr hn, .cons (by decide) ((foldEq_iff_lower hmore).mpr hm)⟩⟩

/-! ### The framing -/

section
variable (hg : g.checkConnectionClosedHeader = false)
include hg

theorem limited_of_unchecked (headers : Bytes) {max : Int} (hmax : max ≤ len) :
    limited g headers len max = (true, max) := by
  unfold limited
  rw [if_neg (by simp [hg]), min_eq_left hmax]

/-- The client reads the content length. -/
theorem framing_length (R : Response) {content : Bytes} (hbody : R.body = .length content)
    (hrec : Recognised R) {r : Nat} (hr : R.headers.length ≤ r) (hfit : R.bytes.length ≤ len)
    (hlen : len < 2 ^ 63) :
    framing g len (R.bytes.take r) R.headers.length = .length true R.bytes.length := by
  have hframed := R.framed
  rw [hbody] at hframed
  obtain ⟨⟨f₀, hf₀, hn₀⟩, hnum, -⟩ := hframed
  have hsize : R.bytes.length = R.headers.length + content.length := by
    rw [Response.bytes, hbody, List.length_append, Body.bytes]
  -- There is a first content-length field, and its value is the length of the content.
  obtain ⟨i₀, hi₀⟩ := exists_match R contentLength [] hf₀ (by decide) (by decide)
    (hn₀.trans (by decide)) rfl
  cases hfind : foldFind R.headers contentLengthHeader with
  | none => exact absurd hi₀ ((foldFind_eq_none_iff _ _ (by decide)).mp hfind i₀)
  | some offset =>
    have hm := ((foldFind_eq_some_iff _ _ (by decide) _).mp hfind).1
    obtain ⟨f, hf, hn, rest, hdrop⟩ := contentLength_of_match R hm
    obtain ⟨core, hne, ⟨before, after, hvalue, hbefore, hafter⟩, hval⟩ := hnum f hf hn
    have htab : 9 ∉ f.value.takeWhile isBlank := by
      have := hrec
      unfold Recognised at this
      rw [hbody] at this
      exact this f hf hn
    have hspaces : ∀ b ∈ before, b = 32 := fun b hb => (hbefore b hb).resolve_right fun h9 => by
      refine htab ?_
      rw [hvalue, List.append_assoc, List.takeWhile_append_of_pos fun x hx => by
        rcases hbefore x hx with rfl | rfl <;> rfl]
      exact List.mem_append_left _ (h9 ▸ hb)
    have hparse : parseDecimal (R.headers.drop (offset + contentLengthHeader.length))
        = content.length := by
      rw [hdrop, hvalue, List.append_assoc, List.append_assoc (before ++ core)]
      refine parseDecimal_numeral hspaces hne hval (by omega) fun b hb => ?_
      -- The byte behind the number is white space or a carriage return.
      cases after with
      | nil =>
        obtain rfl : 13 = b := by simpa [crlf] using hb
        decide
      | cons x after =>
        obtain rfl : x = b := by simpa using hb
        rcases hafter x (by simp) with rfl | rfl <;> decide
    unfold framing
    simp only [take_headers R hr, hfind, hparse]
    rw [if_neg (by omega), limited_of_unchecked hg _ (by
        rw [int64_of_range (by omega) (by omega)]
        omega),
      int64_of_range (by omega) (by omega), hsize]
    rfl

/-- The client recognises a chunked body, and it looks at the first size line in the read
that completes the headers. -/
theorem framing_chunks (R : Response) {body : ChunkedBody} (hbody : R.body = .chunked body)
    (hrec : Recognised R) {r : Nat} (hr : R.headers.length ≤ r) (l : SizeLine n) (rest : Bytes)
    (hbytes : R.bytes = R.headers ++ l.bytes ++ rest)
    (hfit : R.headers.length + l.bytes.length + n + 2 ≤ len) (hlen : len < 2 ^ 63) :
    framing g len (R.bytes.take r) R.headers.length
      = .chunks true (if R.headers.length + l.bytes.length ≤ r
          then (R.headers.length + l.bytes.length + n + 2 : Nat) else R.headers.length) := by
  have hframed := R.framed
  rw [hbody] at hframed
  -- A chunked response has no field for the length.
  have hnone : foldFind R.headers contentLengthHeader = none := by
    rw [foldFind_eq_none_iff _ _ (by decide)]
    intro i hi
    obtain ⟨f, hf, hn, _⟩ := contentLength_of_match R hi
    exact hframed.2 f hf hn
  have hsome : (foldFind R.headers chunkedHeader).isSome = true := by
    have hrec' := hrec
    unfold Recognised at hrec'
    rw [hbody] at hrec'
    obtain ⟨f, hf, hn, hv⟩ := hrec'
    obtain ⟨i, hi⟩ := exists_match R (ascii "Transfer-Encoding") (ascii " chunked") hf
      (by decide) (by decide) (hn.trans (by decide))
      (hv.trans (by decide))
    rw [Option.isSome_iff_ne_none]
    exact fun hno => (foldFind_eq_none_iff _ _ (by decide)).mp hno i hi
  have hp := parseChunkSize_sizeLine l (by omega) rest
  have hdrop : (R.bytes.take r).drop R.headers.length
      = (l.bytes ++ rest).take (r - R.headers.length) := by
    rw [List.drop_take, hbytes, List.append_assoc, List.drop_left]
  unfold framing
  simp only [take_headers R hr, hnone, hsome, if_true, hdrop]
  by_cases hle : R.headers.length + l.bytes.length ≤ r
  · rw [if_pos hle, parseChunkSize_take _ _ (by rw [hp]; simp) (by rw [hp]; omega), hp,
      if_neg (by simp), int64_of_range (by push_cast; omega) (by push_cast; omega),
      limited_of_unchecked hg _ (by omega)]
    rfl
  · -- The size line is not complete, and the client looks at it again behind the headers.
    have hno : (parseChunkSize ((l.bytes ++ rest).take (r - R.headers.length))).2 = -1 := by
      by_contra hne
      have := ((parseChunkSize_take_ne_iff _ _).mp hne).2
      rw [hp] at this
      omega
    rw [if_neg hle, if_pos hno]

end

end IstioVendor.Fhttp
