import IstioVendor.ProtocGenDocs.Model

/-!
# `IstioVendor.ProtocGenDocs.Comments`: the text of comments

`generateComment` takes the comment of a location apart into lines, removes the indentation of
the first line from all of them, lowers the headings, and looks for type links of the form
`[name][type]`. These are the steps that work on the text alone. What a type link is replaced by
depends on the model (`IstioVendor.ProtocGenDocs.HtmlGenerator`).
-/

set_option autoImplicit false

namespace IstioVendor.ProtocGenDocs

open Lib

/-- The comment that is shown: the leading one, or the trailing one if there is none. -/
def commentOf (loc : Option Location) : Bytes :=
  match loc with
  | none => []
  | some l => if l.leadingComments = [] then l.trailingComments else l.leadingComments

/-! ### Indentation -/

/-- The characters for which `unicode.IsSpace` holds, in UTF-8. -/
def spaceChars : List Bytes :=
  [[0x09], [0x0A], [0x0B], [0x0C], [0x0D], [0x20], [0xC2, 0x85], [0xC2, 0xA0],
    [0xE1, 0x9A, 0x80], [0xE2, 0x80, 0x80], [0xE2, 0x80, 0x81], [0xE2, 0x80, 0x82],
    [0xE2, 0x80, 0x83], [0xE2, 0x80, 0x84], [0xE2, 0x80, 0x85], [0xE2, 0x80, 0x86],
    [0xE2, 0x80, 0x87], [0xE2, 0x80, 0x88], [0xE2, 0x80, 0x89], [0xE2, 0x80, 0x8A],
    [0xE2, 0x80, 0xA8], [0xE2, 0x80, 0xA9], [0xE2, 0x80, 0xAF], [0xE2, 0x81, 0x9F],
    [0xE3, 0x80, 0x80]]

/-- The width of the space at the start of a text, 0 if there is no space. -/
def spaceWidth (l : Bytes) : Nat :=
  ((spaceChars.find? fun ch => ch.isPrefixOf l).map List.length).getD 0

/-- The loop over the first line: the position of the first character that is not a space. -/
def firstNonSpace : Nat → Bytes → Nat → Option Nat
  | 0, _, _ => none
  | fuel + 1, l, i =>
    if l = [] then none
    else if spaceWidth l = 0 then some i
    else firstNonSpace fuel (l.drop (spaceWidth l)) (i + spaceWidth l)

/-- The indentation of a line, 0 if there are only spaces in it. -/
def padOf (line : Bytes) : Nat := (firstNonSpace line.length line 0).getD 0

/-- The loop over another line: spaces are skipped up to `pad`. At the end of the line the loop
stays at the last character. -/
def skipSpaces (pad : Nat) : Nat → Bytes → Nat → Nat
  | 0, _, skip => skip
  | fuel + 1, l, skip =>
    if spaceWidth l = 0 ∨ skip = pad ∨ l.drop (spaceWidth l) = [] then skip
    else skipSpaces pad fuel (l.drop (spaceWidth l)) (skip + spaceWidth l)

def removePad (pad : Nat) (line : Bytes) : Bytes :=
  if pad < line.length then line.drop (skipSpaces pad line.length line 0) else line

/-! ### Headings -/

/-- A heading in a comment is put below the headings around the comment. -/
def adjustHeader (grouping : Bool) (line : Bytes) : Bytes :=
  if (ascii "#").isPrefixOf line then (if grouping then ascii "###" else ascii "##") ++ line
  else line

/-- The lines of a comment before the type links are replaced. -/
def commentLines (grouping : Bool) (com : Bytes) : List Bytes :=
  let text := if com.getLast? = some 10 then com.dropLast else com
  let lines := text.splitOn 10
  let pad := padOf (lines.headD [])
  lines.map fun line => adjustHeader grouping (removePad pad line)

/-! ### Type links -/

/-- The match of the pattern `\[.*\]\[.*\]` at the start of a text: its length. Both stars take as
much as they can, and the first one takes first. -/
def typeLinkLength (l : Bytes) : Option Nat :=
  if l.head? = some 91 then
    (List.range l.length).reverse.findSome? fun i =>
      if l[1 + i]? = some 93 ∧ l[2 + i]? = some 91 then
        (List.range l.length).reverse.findSome? fun j =>
          if l[3 + i + j]? = some 93 then some (4 + i + j) else none
      else none
  else none

/-- The leftmost match in a text: where it starts, and its length. -/
def findTypeLink (l : Bytes) : Option (Nat × Nat) :=
  (List.range l.length).findSome? fun start =>
    (typeLinkLength (l.drop start)).map fun length => (start, length)

/-- A part of a line: a text, or the two names of a type link. -/
inductive LinePart where
  | text (b : Bytes)
  | typeLink (linkName typeName : Bytes)
  deriving DecidableEq

/-- The names in a match. The first one ends at the first bracket, and the second one starts two
bytes behind it. -/
def splitTypeLink (matched : Bytes) : LinePart :=
  let stop := (matched.takeWhile (· ≠ 93)).length
  .typeLink ((matched.take stop).drop 1) ((matched.take (matched.length - 1)).drop (stop + 2))

/-- The parts of a line that `ReplaceAllStringFunc` tells apart. -/
def lineParts : Nat → Bytes → List LinePart
  | 0, l => [.text l]
  | fuel + 1, l =>
    match findTypeLink l with
    | none => [.text l]
    | some (start, length) =>
      .text (l.take start) :: splitTypeLink ((l.drop start).take length) ::
        lineParts fuel (l.drop (start + length))

end IstioVendor.ProtocGenDocs
