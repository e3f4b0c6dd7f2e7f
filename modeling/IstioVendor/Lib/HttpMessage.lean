import IstioVendor.Lib.Lines

/-!
# `IstioVendor.Lib.HttpMessage`: well-formed HTTP/1.1 responses

The text of a `200` response, built from its parts: a status line, header fields, a blank
line, and a body that is either framed by a content length or sent in chunks. Every part
carries its own conditions, so that a value of type `Response` is a complete and well-formed
response, and `Response.bytes` is its text.

A body and its framing field agree by `Body.FramedBy`. The white space around the value of a
field, the case of field names, leading zeros, chunk extensions and trailers are free, as
the protocol leaves them free.

`Response.blankLine` says that the header block ends with its only blank line, and
`Response.next_line` what stands behind each of its line ends.
-/

set_option autoImplicit false

namespace IstioVendor.Lib.Http

/-! ### Numbers -/

/-- The value of a decimal digit. -/
def decVal (b : UInt8) : Option Nat := if 48 ≤ b ∧ b ≤ 57 then some (b.toNat - 48) else none

/-- The value of a hexadecimal digit of either case. -/
def hexVal (b : UInt8) : Option Nat :=
  if 48 ≤ b ∧ b ≤ 57 then some (b.toNat - 48)
  else if 65 ≤ b ∧ b ≤ 70 then some (b.toNat - 55)
  else if 97 ≤ b ∧ b ≤ 102 then some (b.toNat - 87)
  else none

/-- The number that a list of digits continues from `acc`, `none` at a byte that is no
digit. -/
def numeral (base : Nat) (val : UInt8 → Option Nat) : Nat → Bytes → Option Nat
  | acc, [] => some acc
  | acc, b :: ds => (val b).bind fun v => numeral base val (base * acc + v) ds

/-- A number is at least its accumulator. -/
theorem le_numeral {base : Nat} {val : UInt8 → Option Nat} (hbase : 0 < base) {acc n : Nat}
    {ds : Bytes} (h : numeral base val acc ds = some n) : acc ≤ n := by
  induction ds generalizing acc with
  | nil => exact Nat.le_of_eq (Option.some.inj h)
  | cons b ds ih =>
    obtain ⟨v, _, hv⟩ := Option.bind_eq_some_iff.mp h
    have := ih hv
    have := Nat.le_mul_of_pos_left acc hbase
    omega

/-! ### Fields -/

/-- The lower-case form of an ASCII letter, any other byte as it is. -/
def lower (b : UInt8) : UInt8 := if 65 ≤ b ∧ b ≤ 90 then b + 32 else b

/-- A header field. The value contains the white space around it. -/
structure Field where
  name : Bytes
  value : Bytes
  name_ne : name ≠ []
  name_line : IsLine name
  name_colon : 58 ∉ name
  value_line : IsLine value

namespace Field

/-- The line of a field. -/
def line (f : Field) : Bytes := f.name ++ 58 :: f.value

/-- The name of the field, up to case. `name` is in lower case. -/
def Named (f : Field) (name : Bytes) : Prop := f.name.map lower = name

/-- The value of the field without the spaces and tabs around it. -/
def Holds (f : Field) (core : Bytes) : Prop :=
  ∃ before after, f.value = before ++ core ++ after ∧
    (∀ b ∈ before, b = 32 ∨ b = 9) ∧ ∀ b ∈ after, b = 32 ∨ b = 9

theorem line_ne (f : Field) : f.line ≠ [] := by simp [line]

theorem isLine_line (f : Field) : IsLine f.line := by
  intro b hb
  rcases List.mem_append.mp hb with hb | hb
  · exact f.name_line b hb
  · rcases List.mem_cons.mp hb with rfl | hb
    · decide
    · exact f.value_line b hb

end Field

/-! ### Bodies -/

/-- The size line of a chunk of `n` bytes. -/
structure SizeLine (n : Nat) where
  digits : Bytes
  ext : Bytes
  digits_ne : digits ≠ []
  value : numeral 16 hexVal 0 digits = some n
  ext_line : IsLine ext
  ext_start : ∀ b ∈ ext.head?, hexVal b = none

/-- The text of a size line. -/
def SizeLine.bytes {n : Nat} (l : SizeLine n) : Bytes := l.digits ++ l.ext ++ crlf

/-- A chunk, other than the last one. -/
structure Chunk where
  data : Bytes
  data_ne : data ≠ []
  line : SizeLine data.length

/-- The text of a chunk. -/
def Chunk.bytes (c : Chunk) : Bytes := c.line.bytes ++ c.data ++ crlf

/-- A body sent in chunks. -/
structure ChunkedBody where
  chunks : List Chunk
  last : SizeLine 0
  trailer : List Field

/-- The text behind the size line of the last chunk: the trailer and the final line end. -/
def ChunkedBody.tail (b : ChunkedBody) : Bytes := joinLines (b.trailer.map Field.line) ++ crlf

/-- The text of a chunked body. -/
def ChunkedBody.bytes (b : ChunkedBody) : Bytes :=
  b.chunks.flatMap Chunk.bytes ++ b.last.bytes ++ b.tail

/-- A body with its framing. -/
inductive Body where
  | length (content : Bytes)
  | chunked (body : ChunkedBody)

/-- The text of a body. -/
def Body.bytes : Body → Bytes
  | .length content => content
  | .chunked body => body.bytes

def contentLength : Bytes := ascii "content-length"

def transferEncoding : Bytes := ascii "transfer-encoding"

/-- The fields announce the body. A content length is the same in every field that gives it,
and it excludes a transfer encoding. -/
def Body.FramedBy (fields : List Field) : Body → Prop
  | .length content =>
    (∃ f ∈ fields, f.Named contentLength) ∧
    (∀ f ∈ fields, f.Named contentLength → ∃ core, core ≠ [] ∧ f.Holds core ∧
      numeral 10 decVal 0 core = some content.length) ∧
    ∀ f ∈ fields, ¬ f.Named transferEncoding
  | .chunked _ =>
    (∃ f ∈ fields, f.Named transferEncoding ∧
      ∃ core, f.Holds core ∧ core.map lower = ascii "chunked") ∧
    ∀ f ∈ fields, ¬ f.Named contentLength

/-! ### Responses -/

/-- A complete response with the status code `200`. -/
structure Response where
  reason : Bytes
  reason_line : IsLine reason
  fields : List Field
  body : Body
  framed : body.FramedBy fields

namespace Response

/-- The status line. -/
def statusLine (r : Response) : Bytes := ascii "HTTP/1.1 200 " ++ r.reason

/-- The lines before the blank line. -/
def lines (r : Response) : List Bytes := r.statusLine :: r.fields.map Field.line

/-- The header block, with the blank line at its end. -/
def headers (r : Response) : Bytes := joinLines (r.lines ++ [[]])

/-- The text of the response. -/
def bytes (r : Response) : Bytes := r.headers ++ r.body.bytes

theorem lines_spec (r : Response) : ∀ l ∈ r.lines, IsLine l ∧ l ≠ [] := by
  intro l hl
  rcases List.mem_cons.mp hl with rfl | hl
  · refine ⟨fun b hb => ?_, by simp [statusLine, ascii]⟩
    have hcode : IsLine (ascii "HTTP/1.1 200 ") := by decide
    rcases List.mem_append.mp hb with hb | hb
    · exact hcode b hb
    · exact r.reason_line b hb
  · obtain ⟨f, _, rfl⟩ := List.mem_map.mp hl
    exact ⟨f.isLine_line, f.line_ne⟩

/-- The header block ends with its only blank line. -/
theorem blankLine (r : Response) {p : Nat} (h1 : CrlfAt r.headers p)
    (h2 : CrlfAt r.headers (p + 2)) : p + 4 = r.headers.length :=
  blankLine_joinLines r.lines_spec h1 h2

/-- The header block ends with two line ends. -/
theorem headers_eq (r : Response) : ∃ init, r.headers = init ++ crlf ++ crlf := by
  obtain ⟨init, last, heq⟩ := List.eq_nil_or_concat r.lines |>.resolve_left (by simp [lines])
  refine ⟨joinLines init ++ last, ?_⟩
  unfold headers
  rw [heq]
  simp

/-- The text begins with the version and the code. -/
theorem bytes_eq (r : Response) : ∃ rest, r.bytes = ascii "HTTP/1.1 200 " ++ rest :=
  ⟨_, by simp only [bytes, headers, lines, statusLine, List.cons_append, joinLines_cons,
    List.append_assoc]; rfl⟩

/-- Every field stands behind a line end of the header block. -/
theorem exists_drop_field (R : Response) {f : Field} (hf : f ∈ R.fields) :
    ∃ i rest, i ≤ R.headers.length ∧ R.headers.drop i = crlf ++ f.line ++ crlf ++ rest := by
  obtain ⟨before, after, hfields⟩ := List.append_of_mem hf
  obtain ⟨init, last, hinit⟩ :=
    List.eq_nil_or_concat (R.statusLine :: before.map Field.line) |>.resolve_left (by simp)
  refine ⟨(joinLines init ++ last).length, joinLines (after.map Field.line ++ [[]]), ?_⟩
  rw [List.concat_eq_append] at hinit
  have hlines : R.lines ++ [[]] = init ++ [last] ++ (f.line :: (after.map Field.line ++ [[]])) := by
    rw [← hinit, lines, hfields]
    simp
  have htext : R.headers = (joinLines init ++ last)
      ++ (crlf ++ f.line ++ crlf ++ joinLines (after.map Field.line ++ [[]])) := by
    rw [headers, hlines]
    simp
  rw [htext]
  exact ⟨by simp, List.drop_left⟩

/-- Behind a line end of the header block comes a field, or the blank line, or nothing. -/
theorem next_line (R : Response) {i : Nat} (h : CrlfAt R.headers i) :
    R.headers.drop (i + 2) = [] ∨ R.headers.drop (i + 2) = crlf ∨
      ∃ f ∈ R.fields, ∃ rest, R.headers.drop (i + 2) = f.line ++ (crlf ++ rest) := by
  have hlines : ∀ l ∈ R.lines ++ [[]], IsLine l := fun l hl => by
    rcases List.mem_append.mp hl with hl | hl
    · exact (R.lines_spec l hl).1
    · rw [List.mem_singleton.mp hl]
      exact fun b hb => nomatch hb
  obtain ⟨pre, l, post, hls, rfl⟩ := crlfAt_joinLines hlines h
  have hdrop : R.headers.drop ((joinLines pre).length + l.length + 2) = joinLines post := by
    rw [headers, hls, show joinLines (pre ++ l :: post)
        = (joinLines pre ++ l ++ crlf) ++ joinLines post by simp,
      show (joinLines pre).length + l.length + 2 = (joinLines pre ++ l ++ crlf).length by
        simp [crlf, Nat.add_assoc],
      List.drop_left]
  rw [hdrop]
  -- The lines behind the first one are the fields and the empty line.
  obtain ⟨skip, htail⟩ : ∃ skip, R.fields.map Field.line ++ [[]] = skip ++ post := by
    cases pre with
    | nil =>
      obtain ⟨-, htail⟩ := List.cons.inj (show R.statusLine ::
        (R.fields.map Field.line ++ [[]]) = l :: post from hls)
      exact ⟨[], htail⟩
    | cons s pre =>
      obtain ⟨-, htail⟩ := List.cons.inj (show R.statusLine ::
        (R.fields.map Field.line ++ [[]]) = s :: (pre ++ l :: post) from hls)
      exact ⟨pre ++ [l], by simpa using htail⟩
  rcases List.append_eq_append_iff.mp htail with ⟨as, _, hpost⟩ | ⟨cs, hfields, hpost⟩
  · cases as with
    | nil =>
      right; left
      rw [← show [[]] = post from hpost]
      rfl
    | cons a as =>
      left
      obtain ⟨-, hnil⟩ := List.cons.inj hpost
      rw [(List.append_eq_nil_iff.mp hnil.symm).2]
      rfl
  · cases cs with
    | nil =>
      right; left
      rw [hpost]
      rfl
    | cons l' cs =>
      right; right
      have hmem : l' ∈ R.fields.map Field.line := by
        rw [hfields]
        simp
      obtain ⟨f, hf, rfl⟩ := List.mem_map.mp hmem
      refine ⟨f, hf, joinLines (cs ++ [[]]), ?_⟩
      rw [hpost]
      simp

end Response

end IstioVendor.Lib.Http
