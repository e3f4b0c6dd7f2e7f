import Mathlib.Data.List.Infix
import IstioVendor.ProtocGenDocs.NewModel

/-!
# `IstioVendor.Proofs.ProtocGenDocs.Classes`: the class in a comment

`getClass` looks for the first `$class: ` and for the first blank behind it. `IsFirst` says what the
first occurrence of a text is, and `indexOf_eq_some_iff` that `strings.Index` finds it.

The class ends at a blank. The code has a branch for a class that ends the comment, but it is never
taken: the position of the blank is -1 then, and `start + 8 - 1` is not negative. The slice of the
class ends before it starts, and `getClass` panics. A line comment ends with a newline, so that
there is a blank. A block comment need not have one behind its class.

`getClass_exact_iff` is the result: the class of a comment is exact, and the descriptor is made, iff
there is a blank behind the first `$class: `.
-/

set_option autoImplicit false

namespace IstioVendor.ProtocGenDocs

open Lib

/-! ### The first occurrence of a text -/

section
variable {part s pre rest : Bytes}

/-- `part` stands in `s` behind `pre`, and nowhere before. -/
structure IsFirst (part s pre rest : Bytes) : Prop where
  eq : s = pre ++ part ++ rest
  first : ∀ pre' rest', s = pre' ++ part ++ rest' → pre.length ≤ pre'.length

theorem IsFirst.unique {pre' rest' : Bytes} (h : IsFirst part s pre rest)
    (h' : IsFirst part s pre' rest') : pre = pre' ∧ rest = rest' := by
  have hlength : pre.length = pre'.length := le_antisymm (h.first _ _ h'.eq) (h'.first _ _ h.eq)
  have heq : pre ++ (part ++ rest) = pre' ++ (part ++ rest') := by
    rw [← List.append_assoc, ← List.append_assoc, ← h.eq, ← h'.eq]
  obtain ⟨hpre, hrest⟩ := List.append_inj heq hlength
  exact ⟨hpre, List.append_cancel_left hrest⟩

theorem isPrefixOf_drop (pre : Bytes) :
    part.isPrefixOf ((pre ++ part ++ rest).drop pre.length) := by
  rw [List.append_assoc, List.drop_left, List.isPrefixOf_iff_prefix]
  exact List.prefix_append part rest

theorem indexOf_eq_none_iff : indexOf part s = none ↔ ∀ pre rest, s ≠ pre ++ part ++ rest := by
  unfold indexOf
  rw [List.findIdx?_eq_none_iff]
  constructor
  · rintro h pre rest rfl
    have hmem : (pre ++ part ++ rest).drop pre.length ∈ (pre ++ part ++ rest).tails :=
      (List.mem_tails _ _).mpr (List.drop_suffix _ _)
    have hfalse := h _ hmem
    rw [isPrefixOf_drop] at hfalse
    cases hfalse
  · intro h tail htail
    obtain ⟨pre, hpre⟩ := (List.mem_tails _ _).mp htail
    rw [Bool.eq_false_iff]
    intro hpart
    obtain ⟨rest, hrest⟩ := List.isPrefixOf_iff_prefix.mp hpart
    exact h pre rest (by rw [List.append_assoc, hrest, hpre])

theorem indexOf_eq_some_iff {i : Nat} :
    indexOf part s = some i ↔ ∃ pre rest, IsFirst part s pre rest ∧ i = pre.length := by
  unfold indexOf
  rw [List.findIdx?_eq_some_iff_getElem]
  constructor
  · rintro ⟨hi, hpart, hbefore⟩
    have hle : i ≤ s.length := by
      rw [List.length_tails] at hi
      omega
    rw [List.getElem_tails] at hpart
    obtain ⟨rest, hrest⟩ := List.isPrefixOf_iff_prefix.mp hpart
    refine ⟨s.take i, rest, ⟨?_, ?_⟩, (List.length_take_of_le hle).symm⟩
    · rw [List.append_assoc, hrest, List.take_append_drop]
    · -- An earlier occurrence would be the start of an earlier tail.
      rintro pre' rest' rfl
      rw [List.length_take_of_le hle]
      by_contra hlt
      apply hbefore pre'.length (Nat.lt_of_not_le hlt)
      rw [List.getElem_tails]
      exact isPrefixOf_drop pre'
  · rintro ⟨pre, rest, hfirst, rfl⟩
    obtain rfl := hfirst.eq
    refine ⟨?_, ?_, ?_⟩
    · rw [List.length_tails, List.length_append, List.length_append]
      omega
    · rw [List.getElem_tails]
      exact isPrefixOf_drop pre
    · intro j hj hpart
      rw [List.getElem_tails] at hpart
      obtain ⟨rest', hrest'⟩ := List.isPrefixOf_iff_prefix.mp hpart
      have heq : pre ++ part ++ rest = (pre ++ part ++ rest).take j ++ part ++ rest' := by
        rw [List.append_assoc _ part rest', hrest', List.take_append_drop]
      have hle := hfirst.first _ _ heq
      rw [List.length_take] at hle
      omega

end

/-! ### The class -/

/-- The annotation for a class. -/
def classMark : Bytes := ascii "$class: "

/-- The bytes that end a class. -/
def isBlank (b : UInt8) : Bool := b = 32 || b = 9 || b = 10

theorem getClass_of_indexOf_none {com : Bytes} (h : indexOf classMark com = none) :
    getClass com = some ([], []) := by
  unfold getClass
  rw [show indexOf (ascii "$class: ") com = none from h]

/-- What `getClass` returns for a comment with a class. -/
theorem getClass_of_isFirst {com pre rest : Bytes} (h : IsFirst classMark com pre rest) :
    getClass com = (rest.findIdx? isBlank).map fun n => (rest.take n, pre ++ rest.drop n) := by
  have hindex : indexOf (ascii "$class: ") com = some pre.length :=
    indexOf_eq_some_iff.mpr ⟨pre, rest, h, rfl⟩
  -- The class starts 8 bytes behind `start`, the length of the annotation.
  have hrest : com.drop (pre.length + 8) = rest := by
    rw [h.eq]
    exact List.drop_left' (by rw [List.length_append]; rfl)
  have hpre : com.take pre.length = pre := by
    rw [h.eq, List.append_assoc, List.take_left]
  unfold getClass
  rw [hindex]
  dsimp only
  rw [hrest, hpre]
  rfl

/-- The class is extracted from a comment, and nothing else is removed from it. -/
structure ClassExact (com cl newCom : Bytes) : Prop where
  found : ∀ pre rest, IsFirst classMark com pre rest →
    cl = rest.takeWhile (!isBlank ·) ∧ newCom = pre ++ rest.dropWhile (!isBlank ·)
  missing : (∀ pre rest, com ≠ pre ++ classMark ++ rest) → cl = []

/-- The comment that `newBaseDesc` reads at a location. -/
def SourceLocation.comment (loc : SourceLocation) : Bytes :=
  if loc.leadingComments ≠ [] then loc.leadingComments else loc.trailingComments

/-- `getClass` returns the class of a comment, and `newBaseDesc` does not panic on it. -/
structure ClassRead (com : Bytes) : Prop where
  returns : ∃ cl newCom, getClass com = some (cl, newCom) ∧ ClassExact com cl newCom
  describes : ∀ src path q, (find src.location path).map SourceLocation.comment = some com →
    (newBaseDesc src path q).isSome

/-- Behind the first annotation for a class there is a blank. -/
def ClassEnds (com : Bytes) : Prop :=
  ∀ pre rest, IsFirst classMark com pre rest → ∃ b ∈ rest, isBlank b

theorem takeWhile_not_eq_take {p : UInt8 → Bool} {s : Bytes} {n : Nat}
    (h : s.findIdx? p = some n) :
    s.takeWhile (!p ·) = s.take n ∧ s.dropWhile (!p ·) = s.drop n := by
  induction s generalizing n with
  | nil => cases h
  | cons b s ih =>
    rw [List.findIdx?_cons] at h
    cases hb : p b with
    | true =>
      rw [hb, if_pos rfl] at h
      cases h
      simp [hb]
    | false =>
      rw [hb, if_neg Bool.false_ne_true] at h
      obtain ⟨m, hm, rfl⟩ := Option.map_eq_some_iff.mp h
      obtain ⟨htake, hdrop⟩ := ih hm
      simp [hb, htake, hdrop]

theorem getClass_isSome_iff (com : Bytes) : (getClass com).isSome ↔ ClassEnds com := by
  cases hindex : indexOf classMark com with
  | none =>
    rw [getClass_of_indexOf_none hindex]
    have hmissing := indexOf_eq_none_iff.mp hindex
    exact iff_of_true rfl fun pre rest hfirst => absurd hfirst.eq (hmissing pre rest)
  | some i =>
    obtain ⟨pre, rest, hfirst, -⟩ := indexOf_eq_some_iff.mp hindex
    rw [getClass_of_isFirst hfirst, Option.isSome_map, List.findIdx?_isSome, List.any_eq_true]
    constructor
    · intro h pre' rest' hfirst'
      rw [← (hfirst.unique hfirst').2]
      exact h
    · intro h
      exact h pre rest hfirst

/-- If `getClass` returns, it returns the class. -/
theorem classExact_of_getClass {com cl newCom : Bytes} (h : getClass com = some (cl, newCom)) :
    ClassExact com cl newCom where
  found := by
    intro pre rest hfirst
    rw [getClass_of_isFirst hfirst] at h
    obtain ⟨n, hn, heq⟩ := Option.map_eq_some_iff.mp h
    obtain ⟨htake, hdrop⟩ := takeWhile_not_eq_take hn
    obtain ⟨hcl, hnewCom⟩ := Prod.mk.injEq .. ▸ heq
    exact ⟨by rw [htake, hcl], by rw [hdrop, hnewCom]⟩
  missing := by
    intro hmissing
    rw [getClass_of_indexOf_none (indexOf_eq_none_iff.mpr hmissing)] at h
    exact ((Prod.mk.injEq .. ▸ Option.some.inj h).1).symm

theorem newBaseDesc_isSome_of_getClass {src : FileSource} {path : List Int} (q : List Bytes)
    {loc : SourceLocation} (hloc : find src.location path = some loc)
    (h : (getClass loc.comment).isSome) : (newBaseDesc src path q).isSome := by
  obtain ⟨found, hfound⟩ := Option.isSome_iff_exists.mp h
  unfold SourceLocation.comment at hfound
  unfold newBaseDesc baseDescOf
  rw [hloc]
  dsimp only
  by_cases hleading : loc.leadingComments ≠ []
  · rw [if_pos hleading] at hfound ⊢
    rw [hfound]
    rfl
  · rw [if_neg hleading] at hfound ⊢
    by_cases htrailing : loc.trailingComments ≠ []
    · rw [if_pos htrailing, hfound]
      rfl
    · -- Without comments `getClass` is not called.
      rw [if_neg htrailing]
      rfl

/-- The class of a comment is read iff there is a blank behind it. -/
theorem getClass_exact_iff (com : Bytes) : ClassRead com ↔ ClassEnds com := by
  rw [← getClass_isSome_iff]
  constructor
  · intro h
    obtain ⟨cl, newCom, hclass, -⟩ := h.returns
    rw [hclass]
    rfl
  · intro h
    obtain ⟨⟨cl, newCom⟩, hclass⟩ := Option.isSome_iff_exists.mp h
    refine ⟨⟨cl, newCom, hclass, classExact_of_getClass hclass⟩, ?_⟩
    intro src path q hcomment
    obtain ⟨loc, hloc, rfl⟩ := Option.map_eq_some_iff.mp hcomment
    exact newBaseDesc_isSome_of_getClass q hloc h

/-- A block comment that ends with its class makes the plugin panic. -/
theorem getClass_panics_at_end :
    getClass (ascii "$class: x") = none ∧
      newBaseDesc ⟨⟨[], [], ⟨[], [], [], [], [], none⟩⟩, [⟨[4, 0], ascii "$class: x", [], []⟩]⟩
        [4, 0] [ascii "Message"] = none ∧
      ¬ ClassRead (ascii "$class: x") := by
  have hpanics : getClass (ascii "$class: x") = none := by decide
  refine ⟨hpanics, by decide, fun h => ?_⟩
  obtain ⟨cl, newCom, hclass, -⟩ := h.returns
  cases hclass

end IstioVendor.ProtocGenDocs
