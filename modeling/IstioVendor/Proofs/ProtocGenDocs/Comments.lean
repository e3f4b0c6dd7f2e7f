import IstioVendor.ProtocGenDocs.Comments

/-!
# `IstioVendor.Proofs.ProtocGenDocs.Comments`: the type links of a comment

`typeLinks` are the links of the form `[name][type]` that are found in a line. A text without an
opening bracket in front of a line does not change them (`typeLinks_append`), so the links of a
comment do not depend on how far its headings are lowered (`commentLines_typeLinks`).
-/

set_option autoImplicit false

namespace IstioVendor.ProtocGenDocs

open Lib

/-- The two names of a type link. -/
def LinePart.names : LinePart → Option (Bytes × Bytes)
  | .text _ => none
  | .typeLink linkName typeName => some (linkName, typeName)

/-- The type links that are found in a line. -/
def typeLinks (line : Bytes) : List (Bytes × Bytes) :=
  (lineParts line.length line).filterMap LinePart.names

section
variable {p l : Bytes} {start length : Nat}

theorem findTypeLink_append (hp : 91 ∉ p) :
    findTypeLink (p ++ l) = (findTypeLink l).map fun m => (p.length + m.1, m.2) := by
  have hpre : (List.range p.length).findSome? (fun start =>
      (typeLinkLength ((p ++ l).drop start)).map fun length => (start, length)) = none := by
    rw [List.findSome?_eq_none_iff]
    intro start hstart
    have hlt : start < p.length := List.mem_range.mp hstart
    rw [typeLinkLength, if_neg, Option.map_none]
    rw [List.head?_drop, List.getElem?_append_left hlt]
    intro h
    exact hp (List.mem_of_getElem? h)
  rw [findTypeLink, List.length_append, List.range_add, List.findSome?_append, hpre,
    Option.none_or, List.findSome?_map, findTypeLink, List.map_findSome?]
  congr 1
  funext start
  simp only [Function.comp_apply, List.drop_length_add_append, Option.map_map]
  rfl

theorem findTypeLink_bounds (h : findTypeLink l = some (start, length)) :
    start < l.length ∧ 0 < length := by
  obtain ⟨s, hs, hmatch⟩ := List.exists_of_findSome?_eq_some h
  obtain ⟨n, hn, heq⟩ := Option.map_eq_some_iff.mp hmatch
  obtain ⟨rfl, rfl⟩ := Prod.mk.injEq .. ▸ heq
  refine ⟨List.mem_range.mp hs, ?_⟩
  unfold typeLinkLength at hn
  split_ifs at hn
  obtain ⟨i, -, hi⟩ := List.exists_of_findSome?_eq_some hn
  split_ifs at hi
  obtain ⟨j, -, hj⟩ := List.exists_of_findSome?_eq_some hi
  obtain rfl := Option.some.inj (Option.ite_none_right_eq_some.mp hj).2
  omega

/-- More fuel than bytes finds no other links. -/
theorem lineParts_fuel {n m : Nat} (hn : l.length ≤ n) (hm : l.length ≤ m) :
    lineParts n l = lineParts m l := by
  induction n generalizing m l with
  | zero =>
    obtain rfl := List.length_eq_zero_iff.mp (Nat.le_zero.mp hn)
    cases m with
    | zero => rfl
    | succ m => rfl
  | succ n ih =>
    cases m with
    | zero =>
      obtain rfl := List.length_eq_zero_iff.mp (Nat.le_zero.mp hm)
      rfl
    | succ m =>
      rw [lineParts, lineParts]
      cases hfind : findTypeLink l with
      | none => rfl
      | some found =>
        obtain ⟨start, length⟩ := found
        obtain ⟨hstart, hlength⟩ := findTypeLink_bounds hfind
        have hrest : (l.drop (start + length)).length < l.length := by
          rw [List.length_drop]
          omega
        dsimp only
        rw [ih (by omega) (by omega : (l.drop (start + length)).length ≤ m)]

theorem typeLinks_eq :
    typeLinks l = (match findTypeLink l with
      | none => []
      | some (start, length) =>
        (splitTypeLink ((l.drop start).take length)).names.toList ++
          typeLinks (l.drop (start + length))) := by
  rw [typeLinks]
  cases hfind : findTypeLink l with
  | none =>
    cases hlength : l.length with
    | zero => simp [lineParts, LinePart.names]
    | succ n => simp [lineParts, hfind, LinePart.names]
  | some found =>
    obtain ⟨start, length⟩ := found
    obtain ⟨hstart, hpos⟩ := findTypeLink_bounds hfind
    obtain ⟨n, hn⟩ := Nat.exists_eq_add_of_lt hstart
    have hrest : (l.drop (start + length)).length ≤ start + n := by
      rw [List.length_drop]
      omega
    rw [hn, lineParts, hfind]
    dsimp only
    rw [List.filterMap_cons_none rfl, typeLinks, lineParts_fuel hrest le_rfl]
    cases hnames : (splitTypeLink ((l.drop start).take length)).names with
    | none => rw [List.filterMap_cons_none hnames]; rfl
    | some names => rw [List.filterMap_cons_some hnames]; rfl

/-- A text in front of a line does not change its links. -/
theorem typeLinks_append (hp : 91 ∉ p) : typeLinks (p ++ l) = typeLinks l := by
  rw [typeLinks_eq, findTypeLink_append hp, typeLinks_eq (l := l)]
  cases findTypeLink l with
  | none => rfl
  | some found => simp only [Option.map_some, Nat.add_assoc, List.drop_length_add_append]

end

/-- The type links of a comment. -/
def commentLinks (com : Bytes) : List (Bytes × Bytes) := (commentLines false com).flatMap typeLinks

theorem typeLinks_adjustHeader (grouping : Bool) (line : Bytes) :
    typeLinks (adjustHeader grouping line) = typeLinks line := by
  unfold adjustHeader
  split_ifs
  · exact typeLinks_append (by decide)
  · exact typeLinks_append (by decide)
  · rfl

/-- The links of a comment do not depend on the level of the headings. -/
theorem commentLines_typeLinks (grouping : Bool) (com : Bytes) :
    (commentLines grouping com).flatMap typeLinks = commentLinks com := by
  simp only [commentLinks, commentLines, List.flatMap_map, typeLinks_adjustHeader]

end IstioVendor.ProtocGenDocs
