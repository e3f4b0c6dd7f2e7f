import IstioVendor.Proofs.ProtocGenDocs.Comments
import IstioVendor.Proofs.ProtocGenDocs.Sections

/-!
# `IstioVendor.Proofs.ProtocGenDocs.Links`: the links inside a page

A link of the form `href="#X"` should point to an element of the same page with the `id` `X`.
`linkify` makes such a link for every descriptor that has no other place: it is hidden, or its
package has no place on the web, or the place of the current package. Whether the descriptor is on
the page is decided elsewhere. It is not when it is hidden, when it is in a file that is not
generated, or when it is more than one step away from the files that are generated.

`mem_links_sectionView` says what a section refers to, and `anchors_sectionView` what of it can be
referred to. `linksResolve_iff` compares the two.
-/

set_option autoImplicit false

namespace IstioVendor.ProtocGenDocs

open Lib

/-! ### Links and elements -/

/-- The links into the page. -/
def Inline.links : Inline → List Bytes
  | .text _ => []
  | .link target => [target]

def Piece.links : Piece → List Bytes
  | .inline i => i.links
  | .comment text => text.flatMap Inline.links
  | _ => []

/-- The elements that can be linked to. -/
def Piece.anchors : Piece → List Bytes
  | .heading _ id | .row id => [id]
  | _ => []

namespace Page

def links (p : Page) : List Bytes := p.content.flatMap Piece.links

def anchors (p : Page) : List Bytes := p.content.flatMap Piece.anchors

/-- Every link into the page has its element. -/
def LinksResolve (p : Page) : Prop := ∀ target ∈ p.links, target ∈ p.anchors

end Page

/-! ### Types inside of types -/

namespace Model

/-- What the name of the type of a field links to: the value of a map, also inside of maps. -/
inductive TypeRefers (model : Model) : FieldDescriptor → CoreDesc → Prop where
  | value {field value : FieldDescriptor} {msg : MessageDescriptor} {o : CoreDesc}
      (type : field.type = .message) (typ : model.typ field = some (.message msg))
      (entry : msg.mapEntry = true) (second : msg.fields[1]? = some value)
      (target : model.typ value = some o) : TypeRefers model field o
  | inKey {field key : FieldDescriptor} {msg : MessageDescriptor} {o : CoreDesc}
      (type : field.type = .message) (typ : model.typ field = some (.message msg))
      (entry : msg.mapEntry = true) (first : msg.fields[0]? = some key)
      (inner : TypeRefers model key o) : TypeRefers model field o
  | inValue {field value : FieldDescriptor} {msg : MessageDescriptor} {o : CoreDesc}
      (type : field.type = .message) (typ : model.typ field = some (.message msg))
      (entry : msg.mapEntry = true) (second : msg.fields[1]? = some value)
      (inner : TypeRefers model value o) : TypeRefers model field o

section
variable {model : Model} {field : FieldDescriptor} {o : CoreDesc}

theorem TypeRefers.isMap (h : model.TypeRefers field o) :
    field.type = .message ∧ ∃ msg, model.typ field = some (.message msg) ∧ msg.mapEntry = true := by
  cases h with
  | value type typ entry | inKey type typ entry | inValue type typ entry =>
    exact ⟨type, _, typ, entry⟩

/-- The map that is the type of a field. -/
theorem typeRefers_map {msg : MessageDescriptor} {key value : FieldDescriptor}
    (type : field.type = .message) (typ : model.typ field = some (.message msg))
    (entry : msg.mapEntry = true) (first : msg.fields[0]? = some key)
    (second : msg.fields[1]? = some value) :
    model.TypeRefers field o ↔
      model.TypeRefers key o ∨ model.typ value = some o ∨ model.TypeRefers value o := by
  constructor
  · intro h
    cases h with
    | value _ typ' _ second' target =>
      cases typ.symm.trans typ'
      cases second.symm.trans second'
      exact .inr (.inl target)
    | inKey _ typ' _ first' inner =>
      cases typ.symm.trans typ'
      cases first.symm.trans first'
      exact .inl inner
    | inValue _ typ' _ second' inner =>
      cases typ.symm.trans typ'
      cases second.symm.trans second'
      exact .inr (.inr inner)
  · rintro (inner | target | inner)
    · exact .inKey type typ entry first inner
    · exact .value type typ entry second target
    · exact .inValue type typ entry second inner

end

end Model

variable {loc : Option Location} {name : List Inline} {field : FieldDescriptor}

namespace Generator

/-- `linkify` makes a link into the page. -/
def InPage (g : Generator) (o : CoreDesc) : Prop :=
  o.isMapEntry = false ∧ known o.base = none ∧
    (o.base.hidden = true ∨ o.base.packageDesc.homeLocation = [] ∨
      o.base.packageDesc.homeLocation = g.currentPackage.homeLocation)

/-- `#t` is the link into the page that `linkify` makes for a descriptor. -/
def LinksTo (g : Generator) (o : CoreDesc) (t : Bytes) : Prop :=
  g.InPage o ∧ t = g.relativeName o.base

section
variable {g : Generator} {t : Bytes} {o : CoreDesc} {field : FieldDescriptor} {depth : Nat}

theorem mem_links_linkify_some :
    t ∈ (g.linkify (some o) name).flatMap Inline.links ↔
      g.LinksTo o t ∨ t ∈ name.flatMap Inline.links := by
  unfold linkify LinksTo InPage
  dsimp only
  cases o.isMapEntry with
  | true => simp
  | false =>
    cases known o.base with
    | some place => simp [Inline.links]
    | none =>
      by_cases hin : o.base.hidden = true ∨ o.base.packageDesc.homeLocation = [] ∨
          o.base.packageDesc.homeLocation = g.currentPackage.homeLocation
      · have hplace : ¬ ((!o.base.hidden) = true ∧ o.base.packageDesc.homeLocation ≠ [] ∧
            o.base.packageDesc.homeLocation ≠ g.currentPackage.homeLocation) := by
          rintro ⟨hhidden, hsome, hother⟩
          rcases hin with h | h | h
          · simp [h] at hhidden
          · exact hsome h
          · exact hother h
        rw [if_neg hplace]
        simp [hin, Inline.links]
      · have hplace : (!o.base.hidden) = true ∧ o.base.packageDesc.homeLocation ≠ [] ∧
            o.base.packageDesc.homeLocation ≠ g.currentPackage.homeLocation := by
          rw [not_or, not_or] at hin
          exact ⟨by simpa using hin.1, hin.2⟩
        rw [if_pos hplace]
        simp [hin, Inline.links]

/-- A link is made to the descriptor, and the links of its name are kept. -/
theorem mem_links_linkify {desc : Option CoreDesc} :
    t ∈ (g.linkify desc name).flatMap Inline.links ↔
      (∃ o, desc = some o ∧ g.LinksTo o t) ∨ t ∈ name.flatMap Inline.links := by
  cases desc with
  | none => simp [linkify]
  | some o => simp only [mem_links_linkify_some, Option.some.injEq, exists_eq_left']

/-! ### The types of fields -/

/-- The name of a type is a text, or it is made of the key and the value of a map. -/
theorem fieldTypeName_cases (h : g.fieldTypeName (depth + 1) field = some name) :
    (∃ b, name = [.text b]) ∧ (∀ o, ¬ g.model.TypeRefers field o) ∨
      ∃ key value keyType valType, g.fieldTypeName depth key = some keyType ∧
        g.fieldTypeName depth value = some valType ∧
        name = [.text (ascii "map&lt;")] ++ keyType ++ [.text (ascii ",&nbsp;")] ++
          g.linkify (g.model.typ value) valType ++ [.text (ascii "&gt;")] ∧
        ∀ o, g.model.TypeRefers field o ↔ g.model.TypeRefers key o ∨
          g.model.typ value = some o ∨ g.model.TypeRefers value o := by
  rw [fieldTypeName] at h
  by_cases htype : field.type = .message
  · rw [htype] at h
    cases htyp : g.model.typ field with
    | none =>
      rw [htyp] at h
      cases h
    | some desc =>
      rw [htyp] at h
      cases desc with
      | message msg =>
        dsimp only at h
        by_cases hentry : msg.mapEntry = true
        · rw [if_pos hentry] at h
          obtain ⟨key, hkey, h⟩ := Option.bind_eq_some_iff.mp h
          obtain ⟨value, hvalue, h⟩ := Option.bind_eq_some_iff.mp h
          obtain ⟨keyType, hkeyType, h⟩ := Option.bind_eq_some_iff.mp h
          obtain ⟨valType, hvalType, h⟩ := Option.bind_eq_some_iff.mp h
          exact .inr ⟨key, value, keyType, valType, hkeyType, hvalType,
            (Option.some.inj h).symm,
            fun o => Model.typeRefers_map htype htyp hentry hkey hvalue⟩
        · -- Another message is named by its text. The link to it is made by the caller.
          rw [if_neg hentry] at h
          refine .inl ⟨⟨_, (Option.some.inj h).symm⟩, fun o ho => ?_⟩
          obtain ⟨-, msg', hmsg', hentry'⟩ := ho.isMap
          cases htyp.symm.trans hmsg'
          exact hentry hentry'
      | _ => cases h
  · refine .inl ⟨?_, fun o ho => htype ho.isMap.1⟩
    cases hkind : field.type with
    | message => exact (htype hkind).elim
    | enum =>
      rw [hkind] at h
      obtain ⟨o, -, h⟩ := Option.bind_eq_some_iff.mp h
      exact ⟨_, (Option.some.inj h).symm⟩
    | _ =>
      rw [hkind] at h
      exact ⟨_, (Option.some.inj h).symm⟩

theorem mem_links_fieldTypeName (h : g.fieldTypeName depth field = some name) :
    t ∈ name.flatMap Inline.links ↔ ∃ o, g.model.TypeRefers field o ∧ g.LinksTo o t := by
  -- Induction on the bound for the nesting of maps.
  induction depth generalizing field name with
  | zero => cases h
  | succ depth ih =>
    rcases fieldTypeName_cases h with ⟨⟨b, rfl⟩, hnone⟩ |
      ⟨key, value, keyType, valType, hkey, hvalue, rfl, hrefers⟩
    · simp [Inline.links, hnone]
    · simp only [List.flatMap_append, List.mem_append, mem_links_linkify, ih hkey, ih hvalue,
        hrefers, or_and_right, exists_or]
      simp [Inline.links]

/-- What the row of a field links to in the column of the types. -/
def FieldRefers (g : Generator) (field : FieldDescriptor) (o : CoreDesc) : Prop :=
  g.model.typ field = some o ∨ g.model.TypeRefers field o

theorem mem_links_fieldType (h : (g.fieldTypeName depth field).isSome) :
    t ∈ (g.linkify (g.model.typ field) ((g.fieldTypeName depth field).getD [])).flatMap
        Inline.links ↔
      ∃ o, g.FieldRefers field o ∧ g.LinksTo o t := by
  obtain ⟨name, hname⟩ := Option.isSome_iff_exists.mp h
  rw [hname, Option.getD_some, mem_links_linkify, mem_links_fieldTypeName hname]
  simp only [FieldRefers, or_and_right, exists_or]

/-! ### Comments -/

/-- What the type links of a comment are links to. -/
def commentRefs (g : Generator) (loc : Option Location) : List CoreDesc :=
  (commentLinks (commentOf loc)).filterMap fun names =>
    g.model.allDescByName.lookup (ascii "." ++ names.2)

theorem mem_links_linePart {part : LinePart} :
    t ∈ (g.linePart part).flatMap Inline.links ↔
      ∃ names, part.names = some names ∧
        ∃ o, g.model.allDescByName.lookup (ascii "." ++ names.2) = some o ∧ g.LinksTo o t := by
  cases part with
  | text b => simp [linePart, LinePart.names, Inline.links]
  | typeLink linkName typeName =>
    simp only [LinePart.names, Option.some.injEq, exists_eq_left']
    unfold linePart
    dsimp only
    cases g.model.allDescByName.lookup (ascii "." ++ typeName) with
    | some o =>
      rw [mem_links_linkify]
      simp [Inline.links]
    | none =>
      cases wellKnownTypes.lookup typeName with
      | some place => simp [Inline.links]
      | none => simp [Inline.links]

/-- The links of lines are the links of each line, as there is none in between. -/
theorem mem_links_intercalate {lines : List (List Inline)} :
    t ∈ ([Inline.text [10]].intercalate lines).flatMap Inline.links ↔
      ∃ line ∈ lines, t ∈ line.flatMap Inline.links := by
  rw [List.intercalate]
  induction lines with
  | nil => simp
  | cons line lines ih =>
    cases lines with
    | nil => simp
    | cons next lines =>
      rw [List.intersperse_cons_cons, List.flatten_cons, List.flatten_cons,
        List.flatMap_append, List.flatMap_append, List.mem_append, List.mem_append, ih,
        List.exists_mem_cons_iff _ line]
      simp only [List.flatMap_singleton, Inline.links, List.not_mem_nil, false_or]

/-- A comment links to what its type links name. -/
theorem mem_links_commentText :
    t ∈ (g.commentText loc).flatMap Inline.links ↔ ∃ o ∈ g.commentRefs loc, g.LinksTo o t := by
  have hline : ∀ line, t ∈ ((lineParts line.length line).flatMap g.linePart).flatMap Inline.links ↔
      ∃ names ∈ typeLinks line, ∃ o, g.model.allDescByName.lookup (ascii "." ++ names.2) = some o ∧
        g.LinksTo o t := by
    intro line
    rw [List.flatMap_assoc, List.mem_flatMap]
    simp only [mem_links_linePart, typeLinks, List.mem_filterMap]
    constructor
    · rintro ⟨part, hpart, names, hnames, ho⟩
      exact ⟨names, ⟨part, hpart, hnames⟩, ho⟩
    · rintro ⟨names, ⟨part, hpart, hnames⟩, ho⟩
      exact ⟨part, hpart, names, hnames, ho⟩
  rw [commentText, mem_links_intercalate, commentRefs, ← commentLines_typeLinks g.grouping]
  simp only [List.mem_map, List.mem_filterMap, List.mem_flatMap (l := commentLines _ _)]
  constructor
  · rintro ⟨-, ⟨line, hl, rfl⟩, ht⟩
    obtain ⟨names, hnames, o, ho, hrest⟩ := (hline line).mp ht
    exact ⟨o, ⟨names, ⟨line, hl, hnames⟩, ho⟩, hrest⟩
  · rintro ⟨o, ⟨names, ⟨line, hl, hnames⟩, ho⟩, hrest⟩
    exact ⟨_, ⟨line, hl, rfl⟩, (hline line).mpr ⟨names, hnames, o, ho, hrest⟩⟩

theorem mem_links_comment :
    t ∈ (g.generateComment loc).flatMap Piece.links ↔ ∃ o ∈ g.commentRefs loc, g.LinksTo o t := by
  rw [generateComment_eq]
  split_ifs with hempty
  · have hnone : g.commentRefs loc = [] := by
      rw [commentRefs, hempty]
      rfl
    simp [hnone]
  · rw [← mem_links_commentText]
    simp only [List.flatMap_singleton, Piece.links]

/-! ### Sections -/

/-- What the section of a descriptor refers to. -/
def Refers (g : Generator) (desc o : CoreDesc) : Prop :=
  match desc with
  | .message m => o ∈ g.commentRefs m.loc ∨ ∃ field ∈ m.fields, field.hidden = false ∧
      (g.FieldRefers field o ∨ o ∈ g.commentRefs field.loc)
  | .enum e => o ∈ g.commentRefs e.loc ∨ ∃ v ∈ e.values, v.hidden = false ∧ o ∈ g.commentRefs v.loc
  | .service s => o ∈ g.commentRefs s.loc ∨ ∃ m ∈ s.methods, m.hidden = false ∧
      o ∈ g.commentRefs m.loc
  | _ => False

end

end Generator

/-- The elements of the section of a descriptor: the heading, and the rows. -/
def CoreDesc.elements : CoreDesc → List BaseDesc
  | .message m => m.toBaseDesc :: (m.fields.filter (!·.hidden)).map (·.toBaseDesc)
  | .enum e => e.toBaseDesc :: (e.values.filter (!·.hidden)).map (·.toBaseDesc)
  | .service s => s.toBaseDesc :: (s.methods.filter (!·.hidden)).map (·.toBaseDesc)
  | _ => []

namespace Generator

section
variable {g : Generator} {t : Bytes} {desc : CoreDesc} {depth : Nat}

theorem anchors_comment (loc : Option Location) :
    (g.generateComment loc).flatMap Piece.anchors = [] := by
  rw [generateComment_eq]
  split_ifs <;> rfl

/-- The elements of a section can be linked to. -/
theorem anchors_sectionView :
    g.sectionView depth Piece.anchors desc = desc.elements.map g.relativeName := by
  have hfield : ∀ field : FieldDescriptor,
      g.fieldView depth Piece.anchors field = [g.relativeName field.toBaseDesc] := by
    intro field
    rw [fieldView, anchors_comment, List.append_nil]
    simp [Piece.anchors]
  cases desc with
  | service s =>
    simp [sectionView, serviceView, anchors_comment, Piece.anchors, CoreDesc.elements,
      serviceName, ← List.map_eq_flatMap]
  | enum e =>
    simp [sectionView, enumView, anchors_comment, Piece.anchors, CoreDesc.elements,
      enumName, ← List.map_eq_flatMap]
  | message m =>
    simp [sectionView, messageView, anchors_comment, Piece.anchors, CoreDesc.elements,
      messageName, List.flatMap_congr fun f _ => hfield f, ← List.map_eq_flatMap]
  | field | enumValue | method => rfl

/-- The rows of a section link to what each of them refers to. -/
theorem mem_flatMap_rows {α : Type} {rows : List α} {hidden : α → Bool} {links : α → List Bytes}
    {refers : α → CoreDesc → Prop}
    (h : ∀ r ∈ rows, hidden r = false → (t ∈ links r ↔ ∃ o, refers r o ∧ g.LinksTo o t)) :
    t ∈ (rows.filter (!hidden ·)).flatMap links ↔
      ∃ o, (∃ r ∈ rows, hidden r = false ∧ refers r o) ∧ g.LinksTo o t := by
  simp only [List.mem_flatMap, List.mem_filter, Bool.not_eq_true']
  constructor
  · rintro ⟨r, ⟨hr, hhidden⟩, ht⟩
    obtain ⟨o, ho, hlink⟩ := (h r hr hhidden).mp ht
    exact ⟨o, ⟨r, hr, hhidden, ho⟩, hlink⟩
  · rintro ⟨o, ⟨r, hr, hhidden, ho⟩, hlink⟩
    exact ⟨r, ⟨hr, hhidden⟩, (h r hr hhidden).mpr ⟨o, ho, hlink⟩⟩

/-- The row of a value or a method links to what its comment refers to. -/
theorem mem_links_row {id : Bytes} :
    t ∈ Piece.links (.row id) ++ (g.generateComment loc).flatMap Piece.links ↔
      ∃ o ∈ g.commentRefs loc, g.LinksTo o t := mem_links_comment

/-- A section links to what it refers to. -/
theorem mem_links_sectionView
    (htyped : ∀ m, desc = .message m → ∀ field ∈ m.fields, field.hidden = false →
      (g.fieldTypeName depth field).isSome) :
    t ∈ g.sectionView depth Piece.links desc ↔ ∃ o, g.Refers desc o ∧ g.LinksTo o t := by
  cases desc with
  | service s =>
    rw [sectionView, serviceView, List.mem_append, List.mem_append, mem_links_comment,
      mem_flatMap_rows fun _ _ _ => mem_links_row]
    simp only [Piece.links, Refers, List.not_mem_nil, false_or, or_and_right, exists_or]
  | enum e =>
    rw [sectionView, enumView, List.mem_append, List.mem_append, mem_links_comment,
      mem_flatMap_rows fun _ _ _ => mem_links_row]
    simp only [Piece.links, Refers, List.not_mem_nil, false_or, or_and_right, exists_or]
  | message m =>
    have hfield : ∀ field ∈ m.fields, field.hidden = false →
        (t ∈ g.fieldView depth Piece.links field ↔
          ∃ o, (g.FieldRefers field o ∨ o ∈ g.commentRefs field.loc) ∧ g.LinksTo o t) := by
      intro field hfield hhidden
      have htype := mem_links_fieldType (t := t) (htyped m rfl field hfield hhidden)
      rw [fieldView, List.mem_append, mem_links_comment, List.mem_append]
      simp only [or_and_right, exists_or, ← htype]
      simp only [Piece.links, List.not_mem_nil, false_or]
    rw [sectionView, messageView, List.mem_append, List.mem_append, mem_links_comment,
      mem_flatMap_rows hfield]
    simp only [Piece.links, Refers, List.not_mem_nil, false_or, or_and_right, exists_or]
  | field | enumValue | method => simp [sectionView, Refers]

/-! ### Pages -/

variable {orders : RangeOrders} {types : Types} {pkg : Package} {page : Page}
  {files : List FileDescriptor}

theorem isSome_of_fieldRows {fields : List FieldDescriptor} {oneof : Int} {ps : List Piece}
    (h : g.fieldRows depth oneof fields = some ps) (hfield : field ∈ fields)
    (hhidden : field.hidden = false) : (g.fieldTypeName depth field).isSome := by
  induction fields generalizing oneof ps with
  | nil => cases hfield
  | cons first fields ih =>
    rw [fieldRows] at h
    by_cases hfirst : first.hidden = true
    · rw [if_pos hfirst] at h
      rcases List.mem_cons.mp hfield with rfl | hrest
      · rw [hhidden] at hfirst
        cases hfirst
      · exact ih h hrest
    · rw [if_neg hfirst] at h
      obtain ⟨typeName, htype, h⟩ := Option.bind_eq_some_iff.mp h
      obtain ⟨rest, hrows, -⟩ := Option.bind_eq_some_iff.mp h
      rcases List.mem_cons.mp hfield with rfl | hrest
      · rw [htype]
        rfl
      · exact ih hrows hrest

/-- On a page that is made, the types of the fields have names. -/
theorem isSome_of_generateFile (h : g.generateFile orders depth pkg types = some page)
    {m : MessageDescriptor} (hm : .message m ∈ documented orders types)
    (hfield : field ∈ m.fields) (hhidden : field.hidden = false) :
    ((g.grouped orders types).fieldTypeName depth field).isSome := by
  obtain ⟨services, -, h⟩ := Option.bind_eq_some_iff.mp h
  obtain ⟨sections, hsections, -⟩ := Option.bind_eq_some_iff.mp h
  obtain ⟨k, hmessage, hshows, henum⟩ := message_mem_documented.mp hm
  have hk : k ∈ typeList orders types := mem_typeList.mpr (.inr ⟨m, hmessage, hshows⟩)
  obtain ⟨ps, hps⟩ := exists_of_mem_mapM hsections hk
  rw [generateType, henum, hmessage] at hps
  obtain ⟨rows, hrows, -⟩ := Option.bind_eq_some_iff.mp hps
  exact isSome_of_fieldRows hrows hfield hhidden

/-- What has a section on the page, by what is selected for it. -/
def Shown (g : Generator) (files : List FileDescriptor) : CoreDesc → Prop
  | .message m =>
    firstNamed g.messageName (g.messageName m) (g.selectedMessages files) = some m ∧
      showsMessage m = true ∧ ∀ e ∈ g.selectedEnums files, g.enumName e ≠ g.messageName m
  | .enum e =>
    firstNamed g.enumName (g.enumName e) (g.selectedEnums files) = some e ∧
      (showsEnum e = true ∨ ∃ m, firstNamed g.messageName (g.enumName e)
        (g.selectedMessages files) = some m ∧ showsMessage m = true)
  | .service s =>
    firstNamed g.serviceName (g.serviceName s) (selectedServices files) = some s ∧
      showsService s = true
  | _ => False

theorem Selects.mem_documented (hsel : g.Selects files types) :
    desc ∈ documented orders types ↔ g.Shown files desc := by
  cases desc with
  | message m =>
    rw [message_mem_documented, Shown]
    constructor
    · rintro ⟨k, hk, hshows, henum⟩
      rw [hsel.messageName_eq hk, ← hsel.messages, ← firstNamed_eq_none, ← hsel.enums]
      exact ⟨hk, hshows, henum⟩
    · rintro ⟨hkept, hshows, henum⟩
      refine ⟨g.messageName m, (hsel.messages _).trans hkept, hshows, ?_⟩
      exact (hsel.enums _).trans (firstNamed_eq_none.mpr henum)
  | enum e =>
    simp only [enum_mem_documented, Shown, ← hsel.messages, ← hsel.enums]
    constructor
    · rintro ⟨k, hk, hshows⟩
      rw [hsel.enumName_eq hk]
      exact ⟨hk, hshows⟩
    · rintro ⟨hkept, hshows⟩
      exact ⟨g.enumName e, hkept, hshows⟩
  | service s =>
    simp only [service_mem_documented, Shown, ← hsel.services]
    constructor
    · rintro ⟨k, hk, hshows⟩
      rw [hsel.serviceName_eq hk]
      exact ⟨hk, hshows⟩
    · rintro ⟨hkept, hshows⟩
      exact ⟨g.serviceName s, hkept, hshows⟩
  | field | enumValue | method => exact iff_of_false isSection_of_documented id

theorem mem_links (hsel : g.Selects files types)
    (h : g.generateFile orders depth pkg types = some page) :
    t ∈ page.links ↔
      ∃ o, (o ∈ g.commentRefs pkg.loc ∨ ∃ d, g.Shown files d ∧ g.Refers d o) ∧ g.LinksTo o t := by
  -- Whether the sections are in groups does not change the links.
  have hsection : ∀ d ∈ documented orders types,
      (t ∈ (g.grouped orders types).sectionView depth Piece.links d ↔
        ∃ o, g.Refers d o ∧ g.LinksTo o t) := by
    intro d hd
    refine mem_links_sectionView fun m hm field hfield hhidden => ?_
    subst hm
    exact isSome_of_generateFile h hd hfield hhidden
  rw [Page.links, view_generateFile (fun _ => rfl) h, List.mem_append, mem_links_comment,
    List.mem_flatMap]
  simp only [or_and_right, exists_or]
  refine or_congr Iff.rfl ⟨?_, ?_⟩
  · rintro ⟨d, hd, ht⟩
    obtain ⟨o, ho, hlink⟩ := (hsection d hd).mp ht
    exact ⟨o, ⟨d, hsel.mem_documented.mp hd, ho⟩, hlink⟩
  · rintro ⟨o, ⟨d, hd, ho⟩, hlink⟩
    have hd' : d ∈ documented orders types := hsel.mem_documented.mpr hd
    exact ⟨d, hd', (hsection d hd').mpr ⟨o, ho, hlink⟩⟩

theorem mem_anchors (hsel : g.Selects files types)
    (h : g.generateFile orders depth pkg types = some page) :
    t ∈ page.anchors ↔ ∃ d, g.Shown files d ∧ ∃ a ∈ d.elements, g.relativeName a = t := by
  rw [Page.anchors, view_generateFile (fun _ => rfl) h, anchors_comment, List.nil_append,
    List.mem_flatMap]
  simp only [anchors_sectionView, List.mem_map, hsel.mem_documented]
  rfl

end

/-- Everything that the page links to inside of the page is an element of a section. -/
def LinksAnchored (g : Generator) (files : List FileDescriptor) (pkg : Package) : Prop :=
  ∀ o, (o ∈ g.commentRefs pkg.loc ∨ ∃ d, g.Shown files d ∧ g.Refers d o) → g.InPage o →
    ∃ d, g.Shown files d ∧ ∃ a ∈ d.elements, g.relativeName a = g.relativeName o.base

/-- The links into a page have their elements exactly when what is referred to from the package
and from what is shown is shown, too, or leads away from the page. -/
theorem linksResolve_iff (g : Generator) (orders : RangeOrders) (depth : Nat)
    (filesToGen : FileDescriptor → Bool) (pkg : PackageDescriptor) (page : Page)
    (hpage : g.generatePackage orders depth filesToGen pkg = some page) :
    page.LinksResolve ↔
      (g.enter pkg).LinksAnchored (pkg.files.filter filesToGen) pkg.toPackage := by
  obtain ⟨types, htypes, hfile⟩ := Option.bind_eq_some_iff.mp hpage
  have hsel := selects_of_collectTypes htypes
  constructor
  · intro h o ho hin
    exact (mem_anchors hsel hfile).mp (h _ ((mem_links hsel hfile).mpr ⟨o, ho, hin, rfl⟩))
  · intro h t ht
    obtain ⟨o, ho, hin, rfl⟩ := (mem_links hsel hfile).mp ht
    exact (mem_anchors hsel hfile).mpr (h o ho hin)

end Generator

/-! ### Chains of types -/

/-- The chain without its last link: `b.B` has no fields. -/
def Chain.short : Generator where
  model := .ofPackages [a, { b with files := [⟨fileB, [.flat (.bare fileB ["B"]) []], [], []⟩] }]
  mode := .htmlPage
  htmlStyle := []
  currentPackage := pkgA
  grouping := false

open Chain in
/-- The row of the field of `a.A` links to `b.B`, which is on the page. -/
theorem chain_short_linksResolve :
    ∃ page, short.generatePackage .same 2 (fun _ => true) a = some page ∧
      page.links = [ascii "b.B"] ∧ page.LinksResolve ∧
        (short.enter a).LinksAnchored (a.files.filter fun _ => true) pkgA := by
  have hpage : (short.generatePackage .same 2 (fun _ => true) a).any (fun page =>
      page.links = [ascii "b.B"] && page.links.all fun t => t ∈ page.anchors) = true := by
    decide +kernel
  obtain ⟨page, hpage, hlinks⟩ := (Option.any_eq_true _ _).mp hpage
  rw [Bool.and_eq_true, decide_eq_true_eq, List.all_eq_true] at hlinks
  have hresolve : page.LinksResolve := fun t ht => of_decide_eq_true (hlinks.2 t ht)
  exact ⟨page, hpage, hlinks.1, hresolve,
    (Generator.linksResolve_iff short .same 2 (fun _ => true) a page hpage).mp hresolve⟩

open Chain in
/-- The row of the field of `b.B` links to `b.C`, which has no section. -/
theorem chain_link_dangling :
    ∃ page, generator.generatePackage .same 2 (fun _ => true) a = some page ∧
      ¬ page.LinksResolve := by
  have hpage : (generator.generatePackage .same 2 (fun _ => true) a).any (fun page =>
      page.links.any fun t => t ∉ page.anchors) = true := by
    decide +kernel
  obtain ⟨page, hpage, hlink⟩ := (Option.any_eq_true _ _).mp hpage
  obtain ⟨t, ht, hanchor⟩ := List.any_eq_true.mp hlink
  exact ⟨page, hpage, fun h => of_decide_eq_true hanchor (h t ht)⟩

end IstioVendor.ProtocGenDocs
