import IstioVendor.Proofs.ProtocGenDocs.Comments
import IstioVendor.Proofs.ProtocGenDocs.Pages

/-!
# `IstioVendor.Proofs.ProtocGenDocs.TypeLinks`: lines with several type links

`generateComment` looks for type links of the form `[name][type]` with the pattern `\[.*\]\[.*\]`,
and replaces each match. `LinkedLine` is a line with any number of such links, with texts before,
between and behind them, and without other brackets. `Rewritten` says that every link is replaced
on its own and that the texts stay.

The stars of the pattern take as much as they can. The match starts at the first bracket of the line
and ends at the last one (`typeLinkLength_append`), so a line with links has one match, whatever the
number of its links (`lineParts_linked`). The name of the type is then everything behind the first
name, and the texts between the links are lost. `rewritten_iff`: the links are replaced on their own
exactly when there is at most one.
-/

set_option autoImplicit false

namespace IstioVendor.ProtocGenDocs

open Lib

/-! ### The match -/

section Match

variable {a t typeName linkName : Bytes}

/-- The match at a bracket ends at the last closing bracket, if there is a pair of brackets in the
middle and only one closing bracket behind the last pair. -/
theorem typeLinkLength_append (htype : 91 ∉ typeName) (ht : 91 ∉ t ∧ 93 ∉ t) :
    typeLinkLength (91 :: (a ++ 93 :: 91 :: (typeName ++ 93 :: t)))
      = some (4 + a.length + typeName.length) := by
  have hopen : 91 ∉ typeName ++ 93 :: t := by
    simp [htype, ht.1]
  refine findSome?_reverse_range (i := a.length) ?_ ?_ ?_
  · simp only [List.length_cons, List.length_append]
    omega
  · -- The second star, behind the last pair.
    have hpair : (91 :: (a ++ 93 :: 91 :: (typeName ++ 93 :: t)))[1 + a.length]? = some 93 ∧
        (91 :: (a ++ 93 :: 91 :: (typeName ++ 93 :: t)))[2 + a.length]? = some 91 := by
      rw [show 2 + a.length = 1 + a.length + 1 by omega, Nat.add_comm 1]
      simp
    rw [if_pos hpair]
    have hat : ∀ j, (91 :: (a ++ 93 :: 91 :: (typeName ++ 93 :: t)))[3 + a.length + j]?
        = (typeName ++ 93 :: t)[j]? := by
      intro j
      rw [show 3 + a.length + j = a.length + (j + 2) + 1 by omega, List.getElem?_cons_succ,
        List.getElem?_append_right (by omega), Nat.add_sub_cancel_left]
      rfl
    refine findSome?_reverse_range (i := typeName.length) ?_ ?_ ?_
    · simp only [List.length_cons, List.length_append]
      omega
    · rw [hat, if_pos (by simp)]
    · -- Only the text is behind the bracket.
      intro j hj
      rw [hat, if_neg]
      obtain ⟨k, rfl⟩ := Nat.exists_eq_add_of_lt hj
      rw [List.getElem?_append_right (by omega), show typeName.length + k + 1 - typeName.length
        = k + 1 by omega, List.getElem?_cons_succ]
      exact fun hk => ht.2 (List.mem_of_getElem? hk)
  · -- No pair of brackets stands behind the last one.
    intro j hj
    rw [if_neg]
    rintro ⟨-, hbracket⟩
    obtain ⟨k, rfl⟩ := Nat.exists_eq_add_of_lt hj
    rw [show 2 + (a.length + k + 1) = a.length + (k + 2) + 1 by omega, List.getElem?_cons_succ,
      List.getElem?_append_right (by omega), Nat.add_sub_cancel_left] at hbracket
    exact hopen (List.mem_of_getElem? hbracket)

/-- The names in a match: the first one ends at the first closing bracket. -/
theorem splitTypeLink_append (hlink : 93 ∉ linkName) :
    splitTypeLink (91 :: (linkName ++ 93 :: 91 :: (typeName ++ [93])))
      = .typeLink linkName typeName := by
  have hstop : (91 :: (linkName ++ 93 :: 91 :: (typeName ++ [93]))).takeWhile (· ≠ 93)
      = 91 :: linkName := by
    rw [List.takeWhile_cons_of_pos (by decide), List.takeWhile_append_of_pos,
      List.takeWhile_cons_of_neg (by decide), List.append_nil]
    intro b hb
    rw [decide_eq_true_eq]
    rintro rfl
    exact hlink hb
  -- `match[end+2 : len(match)-1]` leaves the last bracket out.
  have hlast : (91 :: (linkName ++ 93 :: 91 :: (typeName ++ [93]))).take
      ((91 :: (linkName ++ 93 :: 91 :: (typeName ++ [93]))).length - 1)
      = 91 :: (linkName ++ 93 :: 91 :: typeName) := by
    have happend : 91 :: (linkName ++ 93 :: 91 :: (typeName ++ [93]))
        = 91 :: (linkName ++ 93 :: 91 :: typeName) ++ [93] := by simp
    rw [← List.dropLast_eq_take, happend, List.dropLast_concat]
  unfold splitTypeLink
  rw [hstop, hlast]
  simp

theorem findTypeLink_plain (ht : 91 ∉ t) : findTypeLink t = none := by
  have happend := findTypeLink_append (l := []) ht
  rwa [List.append_nil] at happend

theorem lineParts_plain (ht : 91 ∉ t) (fuel : Nat) : lineParts fuel t = [.text t] := by
  cases fuel with
  | zero => rfl
  | succ fuel => rw [lineParts, findTypeLink_plain ht]

/-- A match at the start of a text is the leftmost one. -/
theorem findTypeLink_of_typeLinkLength {l : Bytes} {length : Nat}
    (h : typeLinkLength l = some length) : findTypeLink l = some (0, length) := by
  cases l with
  | nil => cases h
  | cons b l =>
    rw [findTypeLink, List.length_cons, List.range_succ_eq_map, List.findSome?_cons_of_isSome]
    · rw [List.drop_zero, h, Option.map_some]
    · rw [List.drop_zero, h]
      rfl

end Match

/-! ### Lines with links -/

/-- The texts without brackets. -/
abbrev Plain := {b : Bytes // 91 ∉ b ∧ 93 ∉ b}

/-- A type link, and the text between it and the next one. -/
structure LinkedText where
  linkName : Plain
  typeName : Plain
  text : Plain

/-- A line with type links. -/
structure LinkedLine where
  first : Plain
  links : List LinkedText

def LinkedText.bytes (l : LinkedText) : Bytes :=
  91 :: (l.linkName.val ++ 93 :: 91 :: (l.typeName.val ++ 93 :: l.text.val))

def LinkedLine.bytes (line : LinkedLine) : Bytes :=
  line.first.val ++ line.links.flatMap LinkedText.bytes

/-- The type name of the match that starts with the link `l`, with the links `ls` behind it. -/
def matchedType (l : LinkedText) : List LinkedText → Bytes
  | [] => l.typeName.val
  | l' :: ls =>
    l.typeName.val ++ 93 :: (l.text.val ++ 91 ::
      (l'.linkName.val ++ 93 :: 91 :: matchedType l' ls))

/-- The text behind this match. -/
def textBehind (l : LinkedText) : List LinkedText → Plain
  | [] => l.text
  | l' :: ls => textBehind l' ls

theorem flatMap_bytes (l : LinkedText) (ls : List LinkedText) :
    (l :: ls).flatMap LinkedText.bytes = 91 :: (l.linkName.val ++ 93 :: 91 ::
      (matchedType l ls ++ 93 :: (textBehind l ls).val)) := by
  induction ls generalizing l with
  | nil => rw [List.flatMap_singleton]; rfl
  | cons l' ls ih =>
    rw [List.flatMap_cons, ih, matchedType, textBehind, LinkedText.bytes]
    simp

/-- The match goes on to the last link. -/
theorem typeLinkLength_linked (a : Bytes) (l : LinkedText) (ls : List LinkedText) :
    typeLinkLength (91 :: (a ++ 93 :: 91 :: (matchedType l ls ++ 93 :: (textBehind l ls).val)))
      = some (4 + a.length + (matchedType l ls).length) := by
  induction ls generalizing a l with
  | nil => exact typeLinkLength_append l.typeName.property.1 l.text.property
  | cons l' ls ih =>
    -- The first star takes this link and the next name too.
    have hnext := ih (a ++ 93 :: 91 :: (l.typeName.val ++ 93 :: (l.text.val ++ 91 ::
      l'.linkName.val))) l'
    rw [matchedType, textBehind]
    simp only [List.append_assoc, List.cons_append, List.length_append, List.length_cons]
      at hnext ⊢
    rw [hnext]
    congr 1
    omega

/-- A line with links has one match. -/
theorem lineParts_linked (t : Plain) (l : LinkedText) (ls : List LinkedText) :
    lineParts (LinkedLine.bytes ⟨t, l :: ls⟩).length (LinkedLine.bytes ⟨t, l :: ls⟩)
      = [.text t.val, .typeLink l.linkName.val (matchedType l ls),
          .text (textBehind l ls).val] := by
  have hbytes : LinkedLine.bytes ⟨t, l :: ls⟩ = t.val ++ (91 :: (l.linkName.val ++ 93 :: 91 ::
      (matchedType l ls ++ [93]))) ++ (textBehind l ls).val := by
    rw [LinkedLine.bytes, flatMap_bytes]
    simp
  have hfind : findTypeLink (LinkedLine.bytes ⟨t, l :: ls⟩)
      = some (t.val.length, 4 + l.linkName.val.length + (matchedType l ls).length) := by
    rw [LinkedLine.bytes, flatMap_bytes, findTypeLink_append t.property.1,
      findTypeLink_of_typeLinkLength (typeLinkLength_linked _ l ls)]
    rfl
  obtain ⟨fuel, hfuel⟩ : ∃ fuel, (LinkedLine.bytes ⟨t, l :: ls⟩).length = fuel + 1 := by
    refine Nat.exists_eq_succ_of_ne_zero ?_
    rw [hbytes]
    simp
  rw [hfuel, lineParts, hfind]
  dsimp only
  generalize hmatched : 91 :: (l.linkName.val ++ 93 :: 91 :: (matchedType l ls ++ [93])) = matched
    at hbytes
  have hlength : 4 + l.linkName.val.length + (matchedType l ls).length = matched.length := by
    rw [← hmatched]
    simp only [List.length_append, List.length_cons, List.length_nil]
    omega
  -- Behind the match there are no brackets, and so there is no second match.
  have hrest : (LinkedLine.bytes ⟨t, l :: ls⟩).drop (t.val.length + matched.length)
      = (textBehind l ls).val := by
    rw [hbytes]
    exact List.drop_left' List.length_append
  rw [hlength, hrest, lineParts_plain (textBehind l ls).property.1, hbytes, List.append_assoc,
    List.take_left' rfl, List.drop_left' rfl, List.take_left' rfl, ← hmatched,
    splitTypeLink_append l.linkName.property.2]

/-! ### The step of `generateComment` -/

namespace Generator

/-- The text of a line of a comment behind the step that replaces the type links. -/
def linkLine (g : Generator) (line : Bytes) : Bytes :=
  ((lineParts line.length line).flatMap g.linePart).flatMap Inline.render

/-- What a type link is replaced by: a link to the descriptor, a link to a well-known type, or the
emphasised name. -/
def linkText (g : Generator) (linkName typeName : Bytes) : Bytes :=
  (g.linePart (.typeLink linkName typeName)).flatMap Inline.render

theorem render_text (g : Generator) (b : Bytes) :
    (g.linePart (.text b)).flatMap Inline.render = b := by
  rw [linePart, List.flatMap_singleton, Inline.render]

/-- A comment is made of these lines. -/
theorem commentText_render (g : Generator) (loc : Option Location) :
    (g.commentText loc).flatMap Inline.render
      = [10].intercalate ((commentLines g.grouping (commentOf loc)).map g.linkLine) := by
  rw [commentText, List.intercalate, List.intercalate]
  induction commentLines g.grouping (commentOf loc) with
  | nil => rfl
  | cons line lines ih =>
    cases lines with
    | nil => simp [linkLine]
    | cons next lines =>
      simp only [List.map_cons, List.intersperse_cons_cons, List.flatten_cons,
        List.flatMap_append] at ih ⊢
      rw [ih]
      rfl

end Generator

/-- Every link of the line is replaced on its own, and the texts stay. -/
def Rewritten (line : LinkedLine) : Prop :=
  ∀ g : Generator, g.linkLine line.bytes = line.first.val ++ line.links.flatMap fun l =>
    g.linkText l.linkName.val l.typeName.val ++ l.text.val

theorem rewritten_of_nil (t : Plain) : Rewritten ⟨t, []⟩ := by
  intro g
  have hbytes : LinkedLine.bytes ⟨t, []⟩ = t.val := List.append_nil _
  rw [hbytes, Generator.linkLine, lineParts_plain t.property.1]
  rfl

theorem linkLine_linked (g : Generator) (t : Plain) (l : LinkedText) (ls : List LinkedText) :
    g.linkLine (LinkedLine.bytes ⟨t, l :: ls⟩) = t.val ++
      (g.linkText l.linkName.val (matchedType l ls) ++ (textBehind l ls).val) := by
  rw [Generator.linkLine, lineParts_linked]
  simp only [List.flatMap_cons, List.flatMap_nil, List.append_nil, List.flatMap_append,
    Generator.render_text, Generator.linkText]

theorem rewritten_of_singleton (t : Plain) (l : LinkedText) : Rewritten ⟨t, [l]⟩ := by
  intro g
  rw [linkLine_linked, List.flatMap_singleton]
  rfl

/-! ### Two links -/

/-- A generator whose model has no names. -/
def unnamed : Generator where
  model := ⟨[], ∅⟩
  mode := .htmlPage
  htmlStyle := []
  currentPackage := ⟨[], [], [], [], [], none⟩
  grouping := false

theorem linkText_unnamed (linkName typeName : Bytes) :
    unnamed.linkText linkName typeName = match wellKnownTypes.lookup typeName with
      | some place => ascii "<a href=\"" ++ place ++ ascii "\">" ++ linkName ++ ascii "</a>"
      | none => ascii "*" ++ linkName ++ ascii "*" := by
  have hlookup : unnamed.model.allDescByName.lookup (ascii "." ++ typeName) = none := rfl
  rw [Generator.linkText, Generator.linePart, hlookup]
  cases wellKnownTypes.lookup typeName with
  | none => rw [List.flatMap_singleton, Inline.render]
  | some place => rw [List.flatMap_singleton, Inline.render]

theorem lt_length_linkText_unnamed (linkName typeName : Bytes) :
    linkName.length + 1 < (unnamed.linkText linkName typeName).length := by
  rw [linkText_unnamed]
  have hstar : (ascii "*").length = 1 := rfl
  have hstart : (ascii "<a href=\"").length = 9 := rfl
  cases wellKnownTypes.lookup typeName with
  | none =>
    simp only [List.length_append]
    omega
  | some place =>
    simp only [List.length_append]
    omega

/-- No well-known type has a bracket in its name. -/
theorem lookup_wellKnownTypes_of_mem {typeName : Bytes} (h : 91 ∈ typeName) :
    wellKnownTypes.lookup typeName = none := by
  have hnames : ∀ e ∈ wellKnownTypes, 91 ∉ e.1 := by decide
  rw [List.lookup_eq_none_iff]
  intro e he
  rw [bne_iff_ne]
  rintro rfl
  exact hnames e he h

theorem bracket_mem_matchedType (l l' : LinkedText) (ls : List LinkedText) :
    91 ∈ matchedType l (l' :: ls) := by
  simp [matchedType]

theorem length_textBehind_lt (l : LinkedText) (ls : List LinkedText) :
    (textBehind l ls).val.length <
      ((l :: ls).flatMap fun l => unnamed.linkText l.linkName.val l.typeName.val
        ++ l.text.val).length := by
  induction ls generalizing l with
  | nil =>
    have hlink := lt_length_linkText_unnamed l.linkName.val l.typeName.val
    rw [List.flatMap_singleton, List.length_append, textBehind]
    omega
  | cons l' ls ih =>
    have hrest := ih l'
    rw [List.flatMap_cons, List.length_append, textBehind]
    omega

/-- With two links, a text or a link is missing: the line is too short. -/
theorem not_rewritten (t : Plain) (l l' : LinkedText) (ls : List LinkedText) :
    ¬ Rewritten ⟨t, l :: l' :: ls⟩ := by
  intro hrewritten
  -- The match has a bracket in its type name, so that the generator knows no such type.
  have hlength := congrArg List.length (hrewritten unnamed)
  have hone := lt_length_linkText_unnamed l.linkName.val l.typeName.val
  have hrest := length_textBehind_lt l' ls
  have hstar : (ascii "*").length = 1 := rfl
  rw [linkLine_linked, linkText_unnamed _ (matchedType _ _),
    lookup_wellKnownTypes_of_mem (bracket_mem_matchedType l l' ls)] at hlength
  rw [List.flatMap_cons] at hlength
  simp only [List.length_append, textBehind] at hlength hrest
  omega

/-- The type links of a line are replaced on their own, and the texts stay, exactly when the line
has at most one. -/
theorem rewritten_iff (line : LinkedLine) : Rewritten line ↔ line.links.length ≤ 1 := by
  obtain ⟨t, links⟩ := line
  match links with
  | [] => exact iff_of_true (rewritten_of_nil t) (Nat.zero_le 1)
  | [l] => exact iff_of_true (rewritten_of_singleton t l) le_rfl
  | l :: l' :: ls =>
    refine iff_of_false (not_rewritten t l l' ls) ?_
    rw [List.length_cons, List.length_cons]
    omega

theorem plain_filter (b : Bytes) :
    91 ∉ b.filter (fun c => c ≠ 91 ∧ c ≠ 93) ∧ 93 ∉ b.filter (fun c => c ≠ 91 ∧ c ≠ 93) := by
  simp [List.mem_filter]

/-- A text without its brackets. -/
def plain (s : String) : Plain :=
  ⟨(ascii s).filter fun c => c ≠ 91 ∧ c ≠ 93, plain_filter (ascii s)⟩

/-- The line `see [a][b] and [c][d]!`. -/
def twoLinks : LinkedLine :=
  ⟨plain "see ", [⟨plain "a", plain "b", plain " and "⟩, ⟨plain "c", plain "d", plain "!"⟩]⟩

/-- The two links are one match. The text between them and the second link are lost. -/
theorem linkLine_drops_text :
    twoLinks.bytes = ascii "see [a][b] and [c][d]!" ∧
    unnamed.linkLine twoLinks.bytes = ascii "see *a*!" ∧
    ¬ Rewritten twoLinks := by
  refine ⟨by decide, by decide +kernel, ?_⟩
  exact not_rewritten _ _ _ _

end IstioVendor.ProtocGenDocs
