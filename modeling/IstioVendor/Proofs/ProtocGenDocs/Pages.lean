import IstioVendor.Proofs.ProtocGenDocs.Selection

/-!
# `IstioVendor.Proofs.ProtocGenDocs.Pages`: what a page is made of

The results about a page look at some of its pieces only: at the headings of its sections, at the
elements that can be linked to, at the links. Each of these is a view, a function that says what
it sees of a piece, and it sees nothing of a text. For every view there is one equation for each
function of the generator, which leaves out all texts. `view_generateFile` puts them together.

The lists of names are characterised by `mem_typeList` and `mem_serviceList`.
-/

set_option autoImplicit false

namespace IstioVendor.ProtocGenDocs

open Lib

/-! ### Views -/

variable {fields : List FieldDescriptor} {m : MessageDescriptor} {ps : List Piece}
  {s : ServiceDescriptor} {field : FieldDescriptor}

section
variable {β : Type} {view : Piece → List β}

/-- A view sees nothing of a text. -/
def IgnoresText (view : Piece → List β) : Prop := ∀ b, view (.inline (.text b)) = []

theorem IgnoresText.txt (hv : IgnoresText view) (b : Bytes) : view (txt b) = [] := hv b

theorem IgnoresText.lit (hv : IgnoresText view) (s : String) : view (lit s) = [] := hv _

theorem IgnoresText.emit (hv : IgnoresText view) (ps : List Piece) :
    (emit ps).flatMap view = ps.flatMap view := by
  simp [ProtocGenDocs.emit, hv.txt]

theorem IgnoresText.classAttr (hv : IgnoresText view) (cl : Bytes) :
    (classAttr cl).flatMap view = [] := by
  unfold ProtocGenDocs.classAttr
  split_ifs <;> simp [hv.lit, hv.txt]

namespace Generator

variable {g : Generator} {depth : Nat}

/-- The text of a comment, before it is turned into HTML. -/
def commentText (g : Generator) (loc : Option Location) : List Inline :=
  ([Inline.text [10]]).intercalate ((commentLines g.grouping (commentOf loc)).map fun line =>
    (lineParts line.length line).flatMap g.linePart)

theorem generateComment_eq (loc : Option Location) :
    g.generateComment loc = if commentOf loc = [] then [] else [.comment (g.commentText loc)] := rfl

section
variable (hv : IgnoresText view)
include hv

theorem view_sectionHeading (desc : CoreDesc) :
    (g.generateSectionHeading desc).flatMap view
      = view (.heading desc (g.relativeName desc.base)) := by
  unfold generateSectionHeading
  split_ifs <;> simp [hv.emit, hv.lit, hv.txt]

theorem view_sectionTrailing : generateSectionTrailing.flatMap view = [] := by
  simp [generateSectionTrailing, hv.emit, hv.lit]

theorem view_tableHead (cl : String) (columns : List String) :
    (tableHead cl columns).flatMap view = [] := by
  have hcolumns : (columns.flatMap fun column =>
      ProtocGenDocs.emit [ProtocGenDocs.lit "<th>", ProtocGenDocs.lit column,
        ProtocGenDocs.lit "</th>"]).flatMap view = [] := by
    simp [List.flatMap_assoc, hv.emit, hv.lit]
  simp [tableHead, hv.emit, hv.lit, hcolumns]

theorem view_tableFoot : tableFoot.flatMap view = [] := by
  simp [tableFoot, hv.emit, hv.lit]

/-- The row of a field. -/
theorem view_fieldRow (field : FieldDescriptor) (cl : Bytes) (typeName : List Inline) :
    (g.fieldRow field cl typeName).flatMap view
      = view (.row (g.relativeName field.toBaseDesc)) ++
        (g.linkify (g.model.typ field) typeName).flatMap (fun i => view (.inline i)) ++
        (g.generateComment field.loc).flatMap view := by
  simp [fieldRow, hv.emit, hv.lit, hv.txt, hv.classAttr, List.flatMap_map]

end

/-- What is seen of the row of a field. -/
def fieldView (g : Generator) (depth : Nat) (view : Piece → List β) (field : FieldDescriptor) :
    List β :=
  view (.row (g.relativeName field.toBaseDesc)) ++
    (g.linkify (g.model.typ field) ((g.fieldTypeName depth field).getD [])).flatMap
      (fun i => view (.inline i)) ++
    (g.generateComment field.loc).flatMap view

theorem view_fieldRows (hv : IgnoresText view) {oneof : Int}
    (h : g.fieldRows depth oneof fields = some ps) :
    ps.flatMap view = (fields.filter (!·.hidden)).flatMap (g.fieldView depth view) := by
  induction fields generalizing oneof ps with
  | nil =>
    cases h
    rfl
  | cons field fields ih =>
    rw [fieldRows] at h
    by_cases hhidden : field.hidden = true
    · rw [if_pos hhidden] at h
      rw [List.filter_cons_of_neg (by simp [hhidden]), ih h]
    · rw [if_neg hhidden] at h
      obtain ⟨typeName, htype, h⟩ := Option.bind_eq_some_iff.mp h
      obtain ⟨rest, hrest, ⟨⟩⟩ := Option.bind_eq_some_iff.mp h
      rw [List.filter_cons_of_pos (by simp [hhidden]), List.flatMap_append, view_fieldRow hv,
        ih hrest, List.flatMap_cons, fieldView, htype, Option.getD_some]

/-- What is seen of the section of a message. -/
def messageView (g : Generator) (depth : Nat) (view : Piece → List β) (m : MessageDescriptor) :
    List β :=
  view (.heading (.message m) (g.messageName m)) ++ (g.generateComment m.loc).flatMap view ++
    (m.fields.filter (!·.hidden)).flatMap (g.fieldView depth view)

/-- What is seen of the section of an enum. -/
def enumView (g : Generator) (view : Piece → List β) (e : EnumDescriptor) : List β :=
  view (.heading (.enum e) (g.enumName e)) ++ (g.generateComment e.loc).flatMap view ++
    (e.values.filter (!·.hidden)).flatMap fun v =>
      view (.row (g.relativeName v.toBaseDesc)) ++ (g.generateComment v.loc).flatMap view

/-- What is seen of the section of a service. -/
def serviceView (g : Generator) (view : Piece → List β) (s : ServiceDescriptor) : List β :=
  view (.heading (.service s) (g.serviceName s)) ++ (g.generateComment s.loc).flatMap view ++
    (s.methods.filter (!·.hidden)).flatMap fun m =>
      view (.row (g.relativeName m.toBaseDesc)) ++ (g.generateComment m.loc).flatMap view

section
variable (hv : IgnoresText view)
include hv

theorem view_message (h : g.generateMessage depth m = some ps) :
    ps.flatMap view = g.messageView depth view m := by
  obtain ⟨rows, hrows, ⟨⟩⟩ := Option.bind_eq_some_iff.mp h
  have htable : (if m.fields ≠ [] then
      tableHead "message-fields" ["Field", "Type", "Description"] ++ rows ++ tableFoot
      else []).flatMap view = rows.flatMap view := by
    split_ifs with hfields
    · simp [view_tableHead hv, view_tableFoot hv]
    · rw [not_not.mp hfields] at hrows
      cases hrows
      rfl
  simp only [List.flatMap_append, view_sectionHeading hv, view_sectionTrailing hv, htable,
    view_fieldRows hv hrows, List.append_nil]
  rfl

theorem view_enum (e : EnumDescriptor) : (g.generateEnum e).flatMap view = g.enumView view e := by
  have hrow : ∀ v, (g.valueRow v).flatMap view = view (.row (g.relativeName v.toBaseDesc)) ++
      (g.generateComment v.loc).flatMap view := by
    intro v
    simp [valueRow, hv.emit, hv.lit, hv.txt, hv.classAttr]
  have htable : (if e.values ≠ [] then
      tableHead "enum-values" ["Name", "Description"] ++
        (e.values.filter (!·.hidden)).flatMap g.valueRow ++ tableFoot
      else []).flatMap view = (e.values.filter (!·.hidden)).flatMap fun v =>
        (g.valueRow v).flatMap view := by
    split_ifs with hvalues
    · simp [view_tableHead hv, view_tableFoot hv, List.flatMap_assoc]
    · simp [not_not.mp hvalues]
  simp only [generateEnum, List.flatMap_append, view_sectionHeading hv, view_sectionTrailing hv,
    htable, hrow, List.append_nil]
  rfl

theorem view_methodRow {m : MethodDescriptor} (h : g.methodRow m = some ps) :
    ps.flatMap view
      = view (.row (g.relativeName m.toBaseDesc)) ++ (g.generateComment m.loc).flatMap view := by
  obtain ⟨input, -, h⟩ := Option.bind_eq_some_iff.mp h
  obtain ⟨output, -, ⟨⟩⟩ := Option.bind_eq_some_iff.mp h
  simp [hv.emit, hv.lit, hv.txt, hv.classAttr]

theorem view_service (h : g.generateService s = some ps) :
    ps.flatMap view = g.serviceView view s := by
  obtain ⟨rows, hrows, ⟨⟩⟩ := Option.bind_eq_some_iff.mp h
  have hrow := flatMap_of_forall₂ (mapM_eq_some_iff.mp hrows) fun m _ ps => view_methodRow hv
  simp only [List.flatMap_append, view_sectionHeading hv, view_sectionTrailing hv, hrow,
    List.append_nil]
  rfl

theorem view_fileHeader (pkg : Package) (n : Nat) :
    (g.generateFileHeader pkg n).flatMap view = (g.generateComment pkg.loc).flatMap view := by
  have hfrontMatter : (pkg.frontMatter.flatMap fun fm =>
      ProtocGenDocs.emit [ProtocGenDocs.txt fm]).flatMap view = [] := by
    simp [List.flatMap_assoc, hv.emit, hv.txt]
  unfold generateFileHeader
  rw [List.flatMap_append]
  refine (congrArg (· ++ _) ?_).trans (List.nil_append _)
  cases g.mode with
  | jekyllHTML =>
    simp only [List.flatMap_append, hfrontMatter]
    split_ifs <;> simp [hv.emit, hv.lit, hv.txt]
  | htmlPage =>
    split_ifs <;> simp [hv.emit, hv.lit, hv.txt]
  | htmlFragment =>
    split_ifs <;> simp [hv.emit, hv.lit, hv.txt]

theorem view_fileFooter : g.generateFileFooter.flatMap view = [] := by
  unfold generateFileFooter
  split_ifs <;> simp [hv.emit, hv.lit]

end

/-- What is seen of the section of a descriptor. -/
def sectionView (g : Generator) (depth : Nat) (view : Piece → List β) : CoreDesc → List β
  | .service s => g.serviceView view s
  | .enum e => g.enumView view e
  | .message m => g.messageView depth view m
  | _ => []

end Generator

/-- What the section of a name in the list of types is about. -/
def typeAt (types : Types) (name : Bytes) : Option CoreDesc :=
  match types.enums.lookup name with
  | some e => some (.enum e)
  | none => (types.messages.lookup name).map .message

def serviceAt (types : Types) (name : Bytes) : Option CoreDesc :=
  (types.services.lookup name).map .service

/-- What the sections of a page are about, from the first to the last. -/
def documented (orders : RangeOrders) (types : Types) : List CoreDesc :=
  (serviceList orders types).filterMap (serviceAt types) ++
    (typeList orders types).filterMap (typeAt types)

theorem flatMap_filterMap {α γ : Type} (f : α → Option γ) (F : γ → List β) (xs : List α) :
    (xs.filterMap f).flatMap F = xs.flatMap fun x => (f x).elim [] F := by
  induction xs with
  | nil => rfl
  | cons x xs ih =>
    cases h : f x with
    | none => rw [List.filterMap_cons_none h, ih, List.flatMap_cons, h]; rfl
    | some y => rw [List.filterMap_cons_some h, List.flatMap_cons, ih, List.flatMap_cons, h]; rfl

namespace Generator

variable {g : Generator} {depth : Nat} {orders : RangeOrders} {types : Types} {pkg : Package}
  {page : Page}

theorem view_generateType (hv : IgnoresText view) {name : Bytes}
    (h : g.generateType depth types name = some ps) :
    ps.flatMap view = (typeAt types name).elim [] (g.sectionView depth view) := by
  unfold generateType at h
  unfold typeAt
  cases he : types.enums.lookup name with
  | some e =>
    rw [he] at h
    cases h
    exact view_enum hv e
  | none =>
    rw [he] at h
    cases hm : types.messages.lookup name with
    | some m =>
      rw [hm] at h
      exact view_message hv h
    | none =>
      rw [hm] at h
      cases h
      rfl

/-- The generator when it writes the sections. -/
def grouped (g : Generator) (orders : RangeOrders) (types : Types) : Generator :=
  { g with grouping := decide (typeList orders types ≠ [] ∧ serviceList orders types ≠ []) }

/-- What is seen of a page: the comment of the package, and the sections. -/
theorem view_generateFile (hv : IgnoresText view)
    (h : g.generateFile orders depth pkg types = some page) :
    page.content.flatMap view
      = ((g.grouped orders types).generateComment pkg.loc).flatMap view ++
        (documented orders types).flatMap ((g.grouped orders types).sectionView depth view) := by
  obtain ⟨services, hservices, h⟩ := Option.bind_eq_some_iff.mp h
  obtain ⟨sections, hsections, ⟨⟩⟩ := Option.bind_eq_some_iff.mp h
  have htypes : sections.flatten.flatMap view = (typeList orders types).flatMap fun name =>
      (typeAt types name).elim [] ((g.grouped orders types).sectionView depth view) :=
    flatMap_of_forall₂ (mapM_eq_some_iff.mp hsections) fun _ _ _ => view_generateType hv
  have hall : services.flatten.flatMap view = (serviceList orders types).flatMap fun name =>
      (serviceAt types name).elim [] ((g.grouped orders types).sectionView depth view) := by
    refine flatMap_of_forall₂ (mapM_eq_some_iff.mp hservices) fun name _ ps hps => ?_
    obtain ⟨s, hs, hps⟩ := Option.bind_eq_some_iff.mp hps
    rw [serviceAt, hs]
    exact view_service hv hps
  simp only [documented, List.flatMap_append, flatMap_filterMap, ← htypes, ← hall,
    view_fileHeader hv, view_fileFooter hv]
  split_ifs <;> simp [hv.emit, hv.lit, grouped]

end Generator

end

/-! ### The lists of names -/

section
variable {ν : Type} {order : RangeOrder} {m : GoMap ν} {shows : ν → Bool}

/-- The names that a `range` loop takes from a map. -/
theorem mem_visit_filter {k : Bytes} :
    k ∈ (order.visit m.keys).filter (fun name => (m.lookup name).any shows) ↔
      ∃ v, m.lookup k = some v ∧ shows v = true := by
  rw [List.mem_filter, (order.perm m.keys).mem_iff, Option.any_eq_true]
  constructor
  · rintro ⟨-, h⟩
    exact h
  · rintro ⟨v, hv, hshows⟩
    refine ⟨AList.mem_keys.mp (AList.lookup_isSome.mp ?_), v, hv, hshows⟩
    rw [hv]
    rfl

theorem nodup_visit_filter :
    ((order.visit m.keys).filter fun name => (m.lookup name).any shows).Nodup :=
  ((order.perm m.keys).nodup_iff.mpr m.nodupKeys).filter _

end

section
variable {orders : RangeOrders} {types : Types} {k : Bytes}

theorem mem_typeList :
    k ∈ typeList orders types ↔
      (∃ e, types.enums.lookup k = some e ∧ showsEnum e = true) ∨
        ∃ m, types.messages.lookup k = some m ∧ showsMessage m = true := by
  rw [typeList, (List.perm_insertionSort _ _).mem_iff, List.mem_append, mem_visit_filter,
    mem_visit_filter]

/-- A name is twice in the list of types when an enum and a message have it. -/
theorem nodup_typeList :
    (typeList orders types).Nodup ↔
      ∀ k e m, types.enums.lookup k = some e → showsEnum e = true →
        types.messages.lookup k = some m → showsMessage m = false := by
  rw [typeList, (List.perm_insertionSort _ _).nodup_iff, List.nodup_append]
  constructor
  · rintro ⟨-, -, h⟩ k e m he hshows hm
    by_contra hshown
    exact h k (mem_visit_filter.mpr ⟨e, he, hshows⟩) k
      (mem_visit_filter.mpr ⟨m, hm, by simpa using hshown⟩) rfl
  · intro h
    refine ⟨nodup_visit_filter, nodup_visit_filter, ?_⟩
    rintro k hk k' hk' rfl
    obtain ⟨e, he, hshows⟩ := mem_visit_filter.mp hk
    obtain ⟨m, hm, hshown⟩ := mem_visit_filter.mp hk'
    rw [h k e m he hshows hm] at hshown
    cases hshown

theorem mem_serviceList :
    k ∈ serviceList orders types ↔
      ∃ s, types.services.lookup k = some s ∧ showsService s = true := by
  rw [serviceList, (List.perm_insertionSort _ _).mem_iff, mem_visit_filter]

theorem nodup_serviceList : (serviceList orders types).Nodup := by
  rw [serviceList, (List.perm_insertionSort _ _).nodup_iff]
  exact nodup_visit_filter

/-! ### What is documented -/

theorem service_mem_documented :
    .service s ∈ documented orders types ↔
      ∃ k, types.services.lookup k = some s ∧ showsService s = true := by
  simp only [documented, List.mem_append, List.mem_filterMap, serviceAt, Option.map_eq_some_iff,
    CoreDesc.service.injEq, exists_eq_right]
  constructor
  · rintro (⟨k, hk, hs⟩ | ⟨k, -, htype⟩)
    · obtain ⟨s', hs', hshows⟩ := mem_serviceList.mp hk
      cases hs.symm.trans hs'
      exact ⟨k, hs, hshows⟩
    · unfold typeAt at htype
      split at htype
      · cases htype
      · simp at htype
  · rintro ⟨k, hs, hshows⟩
    exact .inl ⟨k, mem_serviceList.mpr ⟨s, hs, hshows⟩, hs⟩

theorem enum_mem_documented {e : EnumDescriptor} :
    .enum e ∈ documented orders types ↔
      ∃ k, types.enums.lookup k = some e ∧
        (showsEnum e = true ∨ ∃ m, types.messages.lookup k = some m ∧ showsMessage m = true) := by
  simp only [documented, List.mem_append, List.mem_filterMap, serviceAt, Option.map_eq_some_iff,
    reduceCtorEq, and_false, exists_false, false_or]
  constructor
  · rintro ⟨k, hk, htype⟩
    unfold typeAt at htype
    cases he : types.enums.lookup k with
    | none => simp [he] at htype
    | some e' =>
      rw [he] at htype
      obtain rfl : e' = e := by simpa using htype
      rcases mem_typeList.mp hk with ⟨e, he', hshows⟩ | hm
      · cases he.symm.trans he'
        exact ⟨k, he, .inl hshows⟩
      · exact ⟨k, he, .inr hm⟩
  · rintro ⟨k, he, hshows⟩
    refine ⟨k, mem_typeList.mpr (hshows.imp (fun h => ⟨e, he, h⟩) id), ?_⟩
    rw [typeAt, he]

theorem message_mem_documented :
    .message m ∈ documented orders types ↔
      ∃ k, types.messages.lookup k = some m ∧ showsMessage m = true ∧
        types.enums.lookup k = none := by
  simp only [documented, List.mem_append, List.mem_filterMap, serviceAt, Option.map_eq_some_iff,
    reduceCtorEq, and_false, exists_false, false_or]
  constructor
  · rintro ⟨k, hk, htype⟩
    unfold typeAt at htype
    cases he : types.enums.lookup k with
    | some e => simp [he] at htype
    | none =>
      rw [he] at htype
      have hm : types.messages.lookup k = some m := by simpa using htype
      rcases mem_typeList.mp hk with ⟨e, he', -⟩ | ⟨m', hm', hshows⟩
      · rw [he] at he'
        cases he'
      · cases hm.symm.trans hm'
        exact ⟨k, hm, hshows, he⟩
  · rintro ⟨k, hm, hshows, he⟩
    refine ⟨k, mem_typeList.mpr (.inr ⟨m, hm, hshows⟩), ?_⟩
    rw [typeAt, he, hm]
    rfl

end

/-! ### Pages that are made -/

/-- The type of a field is known, and it is not a map. -/
def Model.PlainField (m : Model) (field : FieldDescriptor) : Prop :=
  match field.type with
  | .message => ∃ msg, m.typ field = some (.message msg) ∧ msg.mapEntry = false
  | .enum => ∃ e, m.typ field = some (.enum e)
  | _ => True

/-- The type of a field is known. If it is a map, the key and the value are no maps. -/
def Model.TypedField (m : Model) (field : FieldDescriptor) : Prop :=
  m.PlainField field ∨ field.type = .message ∧ ∃ msg key value rest,
    m.typ field = some (.message msg) ∧ msg.fields = key :: value :: rest ∧
      m.PlainField key ∧ m.PlainField value

/-- The types of what is selected for a page are known, as `protoc` has checked. -/
structure WellTyped (g : Generator) (files : List FileDescriptor) : Prop where
  fields : ∀ m ∈ g.selectedMessages files, ∀ field ∈ m.fields, g.model.TypedField field
  methods : ∀ s ∈ Generator.selectedServices files, ∀ m ∈ s.methods,
    (g.model.messageNamed m.inputType).isSome ∧ (g.model.messageNamed m.outputType).isSome

namespace Generator

variable {g : Generator} {files : List FileDescriptor} {types : Types} {depth : Nat}

theorem exists_fieldTypeName_of_plain (h : g.model.PlainField field) :
    ∃ name, g.fieldTypeName (depth + 1) field = some name := by
  unfold fieldTypeName
  unfold Model.PlainField at h
  cases htype : field.type with
  | message =>
    rw [htype] at h
    obtain ⟨msg, hmsg, hentry⟩ := h
    simp [hmsg, hentry]
  | enum =>
    rw [htype] at h
    obtain ⟨e, he⟩ := h
    simp [he]
  | _ => exact ⟨_, rfl⟩

theorem exists_fieldTypeName (h : g.model.TypedField field) :
    ∃ name, g.fieldTypeName (depth + 2) field = some name := by
  rcases h with hplain | ⟨htype, msg, key, value, rest, hmsg, hfields, hkey, hvalue⟩
  · exact exists_fieldTypeName_of_plain hplain
  · obtain ⟨keyType, hkeyType⟩ : ∃ name, g.fieldTypeName (depth + 1) key = some name :=
      exists_fieldTypeName_of_plain hkey
    obtain ⟨valType, hvalType⟩ : ∃ name, g.fieldTypeName (depth + 1) value = some name :=
      exists_fieldTypeName_of_plain hvalue
    rw [fieldTypeName, htype]
    cases hentry : msg.mapEntry with
    | false => simp [hmsg, hentry]
    | true => simp [hmsg, hentry, hfields, hkeyType, hvalType]

theorem exists_fieldRows {oneof : Int} (h : ∀ field ∈ fields, g.model.TypedField field) :
    ∃ rows, g.fieldRows (depth + 2) oneof fields = some rows := by
  induction fields generalizing oneof with
  | nil => exact ⟨[], rfl⟩
  | cons field fields ih =>
    have hrest := fun f hf => h f (List.mem_cons_of_mem field hf)
    rw [fieldRows]
    split_ifs with hhidden
    · exact ih hrest
    · obtain ⟨typeName, htypeName⟩ := exists_fieldTypeName (h field List.mem_cons_self)
      obtain ⟨rows, hrows⟩ := ih hrest
      exact ⟨_, Option.bind_eq_some_iff.mpr ⟨typeName, htypeName,
        Option.bind_eq_some_iff.mpr ⟨rows, hrows, rfl⟩⟩⟩

theorem exists_generateService (h : ∀ m ∈ s.methods, (g.model.messageNamed m.inputType).isSome ∧
      (g.model.messageNamed m.outputType).isSome) : ∃ ps, g.generateService s = some ps := by
  obtain ⟨rows, hrows⟩ : ∃ rows, (s.methods.filter (!·.hidden)).mapM g.methodRow = some rows := by
    refine exists_mapM fun m hm => ?_
    obtain ⟨hinput, houtput⟩ := h m (List.mem_of_mem_filter hm)
    obtain ⟨input, hinput⟩ := Option.isSome_iff_exists.mp hinput
    obtain ⟨output, houtput⟩ := Option.isSome_iff_exists.mp houtput
    exact ⟨_, Option.bind_eq_some_iff.mpr ⟨input, hinput,
      Option.bind_eq_some_iff.mpr ⟨output, houtput, rfl⟩⟩⟩
  exact ⟨_, Option.bind_eq_some_iff.mpr ⟨rows, hrows, rfl⟩⟩

/-- The page is written when the types are known. -/
theorem exists_generateFile {orders : RangeOrders} {pkg : Package} (htyped : WellTyped g files)
    (hsel : g.Selects files types) :
    ∃ page, g.generateFile orders (depth + 2) pkg types = some page := by
  have hservices : ∃ services, (serviceList orders types).mapM (fun name =>
      (types.services.lookup name).bind (g.grouped orders types).generateService)
        = some services := by
    refine exists_mapM fun k hk => ?_
    obtain ⟨s, hs, -⟩ := mem_serviceList.mp hk
    rw [hs]
    exact exists_generateService
      (htyped.methods s (mem_of_firstNamed ((hsel.services k).symm.trans hs)))
  have hsections : ∃ sections, (typeList orders types).mapM
      ((g.grouped orders types).generateType (depth + 2) types) = some sections := by
    refine exists_mapM fun k hk => ?_
    unfold generateType
    cases he : types.enums.lookup k with
    | some e => exact ⟨_, rfl⟩
    | none =>
      cases hm : types.messages.lookup k with
      | none => exact ⟨_, rfl⟩
      | some m =>
        have hmem := mem_of_firstNamed ((hsel.messages k).symm.trans hm)
        obtain ⟨rows, hrows⟩ : ∃ rows, (g.grouped orders types).fieldRows (depth + 2) (-1)
            m.fields = some rows := exists_fieldRows (htyped.fields m hmem)
        exact ⟨_, Option.bind_eq_some_iff.mpr ⟨rows, hrows, rfl⟩⟩
  obtain ⟨services, hservices⟩ := hservices
  obtain ⟨sections, hsections⟩ := hsections
  exact ⟨_, Option.bind_eq_some_iff.mpr ⟨services, hservices,
    Option.bind_eq_some_iff.mpr ⟨sections, hsections, rfl⟩⟩⟩

/-- The page of a package is made when the depth is great enough. -/
theorem exists_generatePackage (orders : RangeOrders) {filesToGen : FileDescriptor → Bool}
    {pkg : PackageDescriptor}
    (htyped : WellTyped (g.enter pkg) (pkg.files.filter filesToGen)) :
    ∃ n, ∀ depth, n ≤ depth →
      ∃ page, g.generatePackage orders depth filesToGen pkg = some page := by
  obtain ⟨types, n, hends⟩ := collectTypes_ends (g.enter pkg) (pkg.files.filter filesToGen)
  refine ⟨n + 2, fun depth hle => ?_⟩
  obtain ⟨depth, rfl⟩ := Nat.exists_eq_add_of_le' ((Nat.le_add_left 2 n).trans hle)
  have htypes := hends (depth + 2) ((Nat.le_add_right n 2).trans hle)
  obtain ⟨page, hpage⟩ := exists_generateFile htyped (selects_of_collectTypes htypes)
  exact ⟨page, Option.bind_eq_some_iff.mpr ⟨types, htypes, hpage⟩⟩

variable {filesToGen : FileDescriptor → Bool}

/-- One depth is great enough for all packages. -/
theorem exists_depth (orders : Bytes → RangeOrders) {pkgs : List PackageDescriptor}
    (htyped : ∀ pkg ∈ pkgs, WellTyped (g.enter pkg) (pkg.files.filter filesToGen)) :
    ∃ n, ∀ depth, n ≤ depth → ∀ pkg ∈ pkgs,
      ∃ page, g.generatePackage (orders pkg.name) depth filesToGen pkg = some page := by
  induction pkgs with
  | nil => exact ⟨0, fun _ _ _ hpkg => absurd hpkg List.not_mem_nil⟩
  | cons pkg pkgs ih =>
    obtain ⟨n, hn⟩ := exists_generatePackage (orders pkg.name) (htyped pkg List.mem_cons_self)
    obtain ⟨n', hn'⟩ := ih fun p hp => htyped p (List.mem_cons_of_mem pkg hp)
    refine ⟨max n n', fun depth hle => List.forall_mem_cons.mpr ⟨?_, ?_⟩⟩
    · exact hn depth ((le_max_left n n').trans hle)
    · exact hn' depth ((le_max_right n n').trans hle)

end Generator

end IstioVendor.ProtocGenDocs
