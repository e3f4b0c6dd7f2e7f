import IstioVendor.Proofs.ProtocGenDocs.Locations
import IstioVendor.Proofs.ProtocGenDocs.Sections

/-!
# `IstioVendor.Proofs.ProtocGenDocs.Resolution`: type references find their descriptors

`newModel` records all descriptors in one map, under their full names, and looks up the types of
fields and methods in it. `newModel_resolves` is about the requests that `protoc` makes
(`ProtocRequest`). Every field of every message, at any depth, gets the message or enum that its
type name denotes, or nil without one. Every method gets its two messages, so that no type
assertion fails. The model is then missing only when a comment makes `getClass` panic.

A later record replaces an earlier one with the same name. The names of messages, fields, enums,
services and methods are unique, but the values of enums are recorded too. Such a name is the name
of an enum with a part behind it. A message or enum with this name would be in a message or in a
package with the name of the enum, which `protoc` does not allow (`ProtocRequest.values_apart`). So
all records under the name of a type are this type (`entry_of_type`).

The records of a file are compared with the elements of the request by their names and kinds only
(`tags_of_newFileDescriptor`).
-/

set_option autoImplicit false

namespace IstioVendor.ProtocGenDocs

open Lib

/-! ### Names that are nested -/

/-- How the elements of a file or of a message are nested, inside of the name `outer`: a message or
an enum is directly inside, or inside of one of the messages, and a value is in one of the enums. -/
structure Nests (outer : List Bytes) (els : List Element) : Prop where
  types : ∀ el ∈ els, el.kind = .message ∨ el.kind = .enum → ∃ q name,
    el.qualifiedName = q ++ [name] ∧
      (q = outer ∨ ∃ msg ∈ els, msg.kind = .message ∧ msg.qualifiedName = q)
  values : ∀ el ∈ els, el.kind = .enumValue → ∃ e ∈ els, e.kind = .enum ∧
    ∃ name, el.qualifiedName = e.qualifiedName ++ [name]

variable {name k : Bytes} {kinds : Kind → Bool} {f : FileDescriptor} {c : CoreDesc}
  {m msg : MessageDescriptor} {e : Bytes × CoreDesc} {parent : List Bytes} {path : List Int}
  {src : FileSource} {method : MethodDescriptor} {s : ServiceDescriptor}
  {a : FieldDescriptor × Option CoreDesc} {descMap : GoMap CoreDesc}

namespace Nests

variable {outer : List Bytes} {els els' : List Element}

theorem nil (outer : List Bytes) : Nests outer [] := ⟨by simp, by simp⟩

theorem append (h : Nests outer els) (h' : Nests outer els') : Nests outer (els ++ els') := by
  constructor
  · intro el hel hkind
    rcases List.mem_append.mp hel with hel | hel
    · obtain ⟨q, name, hq, hin⟩ := h.types el hel hkind
      exact ⟨q, name, hq, hin.imp_right fun ⟨msg, hmsg, hrest⟩ =>
        ⟨msg, List.mem_append_left _ hmsg, hrest⟩⟩
    · obtain ⟨q, name, hq, hin⟩ := h'.types el hel hkind
      exact ⟨q, name, hq, hin.imp_right fun ⟨msg, hmsg, hrest⟩ =>
        ⟨msg, List.mem_append_right _ hmsg, hrest⟩⟩
  · intro el hel hkind
    rcases List.mem_append.mp hel with hel | hel
    · obtain ⟨e, he, hrest⟩ := h.values el hel hkind
      exact ⟨e, List.mem_append_left _ he, hrest⟩
    · obtain ⟨e, he, hrest⟩ := h'.values el hel hkind
      exact ⟨e, List.mem_append_right _ he, hrest⟩

theorem flatMap {α : Type} {g : α → List Element} (xs : List α) (h : ∀ x, Nests outer (g x)) :
    Nests outer (xs.flatMap g) := by
  induction xs with
  | nil => exact .nil outer
  | cons x xs ih =>
    exact (h x).append ih

/-- Fields, services and methods are neither types nor values. -/
theorem other {kind : Kind} (hkind : kind = .field ∨ kind = .service ∨ kind = .method)
    (path : List Int) (q : List Bytes) : Nests outer [⟨kind, path, q⟩] := by
  constructor
  · intro el hel hel'
    obtain rfl := List.mem_singleton.mp hel
    rcases hkind with rfl | rfl | rfl <;> simp at hel'
  · intro el hel hel'
    obtain rfl := List.mem_singleton.mp hel
    rcases hkind with rfl | rfl | rfl <;> simp at hel'

theorem enum (path : List Int) (e : EnumDescriptorProto) : Nests outer (e.elements outer path) := by
  have hvalue : ∀ el ∈ eachAt path 2 (fun p v => [⟨.enumValue, p, outer ++ [e.name] ++ [v.name]⟩])
      e.value, el.kind = .enumValue ∧ ∃ name, el.qualifiedName = outer ++ [e.name] ++ [name] := by
    intro el hel
    obtain ⟨x, -, hel⟩ := List.mem_flatMap.mp hel
    obtain rfl := List.mem_singleton.mp hel
    exact ⟨rfl, x.1.name, rfl⟩
  constructor
  · intro el hel hkind
    rcases List.mem_cons.mp hel with rfl | hel
    · exact ⟨outer, e.name, rfl, .inl rfl⟩
    · rw [(hvalue el hel).1] at hkind
      simp at hkind
  · intro el hel hkind
    rcases List.mem_cons.mp hel with rfl | hel
    · cases hkind
    · exact ⟨_, List.mem_cons_self, rfl, (hvalue el hel).2⟩

/-- What is inside of a message, with the message. -/
theorem message (path : List Int) (h : Nests (outer ++ [name]) els) :
    Nests outer (⟨.message, path, outer ++ [name]⟩ :: els) := by
  constructor
  · intro el hel hkind
    rcases List.mem_cons.mp hel with rfl | hel
    · exact ⟨outer, name, rfl, .inl rfl⟩
    · obtain ⟨q, n, hq, hin⟩ := h.types el hel hkind
      -- What is directly inside is now inside of the message that is put in front.
      refine ⟨q, n, hq, .inr ?_⟩
      rcases hin with rfl | ⟨msg, hmsg, hrest⟩
      · exact ⟨_, List.mem_cons_self, rfl, rfl⟩
      · exact ⟨msg, List.mem_cons_of_mem _ hmsg, hrest⟩
  · intro el hel hkind
    rcases List.mem_cons.mp hel with rfl | hel
    · cases hkind
    · obtain ⟨e, he, hrest⟩ := h.values el hel hkind
      exact ⟨e, List.mem_cons_of_mem _ he, hrest⟩

end Nests

mutual

theorem nests_message (desc : DescriptorProto) (outer : List Bytes) (path : List Int) :
    Nests outer (desc.elements outer path) := by
  obtain ⟨name, mapEntry, field, nestedType, enumType⟩ := desc
  have hfields : Nests (outer ++ [name])
      (eachAt path 2 (fun p f => [⟨.field, p, outer ++ [name] ++ [f.name]⟩]) field) :=
    .flatMap _ fun x => .other (.inl rfl) _ _
  have henums : Nests (outer ++ [name])
      (eachAt path 4 (EnumDescriptorProto.elements (outer ++ [name])) enumType) :=
    .flatMap _ fun x => .enum _ x.1
  exact .message path ((hfields.append (nests_messages nestedType _ _ 0)).append henums)

theorem nests_messages (descs : List DescriptorProto) (outer : List Bytes) (path : List Int)
    (i : Int) : Nests outer (elementsOf outer path i descs) := by
  match descs with
  | [] =>
    exact .nil outer
  | desc :: rest =>
    exact (nests_message desc outer (path ++ [i])).append
      (nests_messages rest outer path (i + 1))

end

theorem nests_file (desc : FileDescriptorProto) : Nests [] desc.elements := by
  have henums : Nests [] (eachAt [] 5 (EnumDescriptorProto.elements []) desc.enumType) :=
    .flatMap _ fun x => .enum _ x.1
  have hmethods : ∀ (path : List Int) (s : ServiceDescriptorProto),
      Nests [] (eachAt path 2 (fun p m => [⟨.method, p, [s.name] ++ [m.name]⟩]) s.method) :=
    fun path s => .flatMap _ fun x => .other (.inr (.inr rfl)) _ _
  have hservices : Nests [] (eachAt [] 6 ServiceDescriptorProto.elements desc.service) :=
    .flatMap _ fun x => (Nests.other (.inr (.inl rfl)) _ _).append (hmethods _ x.1)
  exact ((nests_messages desc.messageType [] [4] 0).append henums).append hservices

/-! ### Full names -/

def FileDescriptorProto.dottedPkg (desc : FileDescriptorProto) : Bytes :=
  if desc.package = [] then ascii "." else ascii "." ++ desc.package ++ ascii "."

/-- The fully qualified name of an element of a file. -/
def FileDescriptorProto.fullNameOf (desc : FileDescriptorProto) (el : Element) : Bytes :=
  fullName desc.dottedPkg el.qualifiedName

/-- The fully qualified names of the elements of some kinds. -/
def CodeGeneratorRequest.named (request : CodeGeneratorRequest) (kinds : Kind → Bool) :
    List Bytes :=
  request.protoFile.flatMap fun desc =>
    (desc.elements.filter fun el => kinds el.kind).map desc.fullNameOf

theorem fullName_append (pkg : Bytes) {q : List Bytes} (hq : q ≠ []) (name : Bytes) :
    fullName pkg (q ++ [name]) = fullName pkg q ++ [dot] ++ name := by
  have hintercalate : (ascii ".").intercalate (q ++ [name])
      = (ascii ".").intercalate q ++ [dot] ++ name := by
    induction q with
    | nil => exact absurd rfl hq
    | cons first q ih =>
      cases q with
      | nil => simp [List.intercalate, ascii, dot]
      | cons next q =>
        have hrest := ih (List.cons_ne_nil _ _)
        simp only [List.intercalate, List.cons_append, List.intersperse_cons_cons,
          List.flatten_cons, List.append_assoc] at hrest ⊢
        rw [hrest]
  rw [fullName, hintercalate, fullName]
  simp only [List.append_assoc]

theorem dot_append_inj {a b v w : Bytes} (hv : dot ∉ v) (hw : dot ∉ w)
    (h : a ++ [dot] ++ v = b ++ [dot] ++ w) : a = b := by
  -- The last dot is the one in the middle.
  have hlast := congrArg (lastPart dot) h
  rw [lastPart_append hv, lastPart_append hw] at hlast
  subst hlast
  exact List.append_cancel_right (List.append_cancel_right h)

/-! ### What `protoc` guarantees -/

/-- The kinds that a field can have as its type. -/
def Kind.isType : Kind → Bool
  | .message | .enum => true
  | _ => false

/-- A message is in a file of the request, at any depth. -/
inductive FileDescriptorProto.HasMessage (desc : FileDescriptorProto) : DescriptorProto → Prop where
  | top {msg : DescriptorProto} (mem : msg ∈ desc.messageType) : desc.HasMessage msg
  | nested {msg inner : DescriptorProto} (outer : desc.HasMessage msg)
      (mem : inner ∈ msg.nestedType) : desc.HasMessage inner

/-- A request as `protoc` makes it. Names are identifiers, so there is no dot in them. -/
structure ProtocRequest extends CodeGeneratorRequest where
  identifiers : ∀ desc ∈ protoFile, ∀ el ∈ desc.elements, ∀ name ∈ el.qualifiedName, dot ∉ name
  /-- The names of messages, fields, enums, services and methods are unique. -/
  unique : (toCodeGeneratorRequest.named fun kind => kind ≠ .enumValue).Nodup
  /-- The name of a package is not the name of a message or enum, and does not extend one. -/
  packagesApart : ∀ desc ∈ protoFile, desc.package ≠ [] →
    ∀ name ∈ toCodeGeneratorRequest.named Kind.isType,
      ascii "." ++ desc.package ≠ name ∧ ¬ name ++ ascii "." <+: ascii "." ++ desc.package
  /-- The types of fields and methods are defined in the request. -/
  fieldTypes : ∀ desc ∈ protoFile, ∀ msg, desc.HasMessage msg → ∀ field ∈ msg.field,
    field.typeName ≠ [] → field.typeName ∈ toCodeGeneratorRequest.named Kind.isType
  methodTypes : ∀ desc ∈ protoFile, ∀ service ∈ desc.service, ∀ method ∈ service.method,
    method.inputType ∈ toCodeGeneratorRequest.named (· = .message) ∧
      method.outputType ∈ toCodeGeneratorRequest.named (· = .message)

theorem CodeGeneratorRequest.mem_named {request : CodeGeneratorRequest} :
    name ∈ request.named kinds ↔ ∃ desc ∈ request.protoFile,
      ∃ el ∈ desc.elements, kinds el.kind = true ∧ desc.fullNameOf el = name := by
  simp only [CodeGeneratorRequest.named, List.mem_flatMap, List.mem_map, List.mem_filter, and_assoc]

/-- A name belongs to one element. -/
theorem eq_of_nodup_flatMap_map {α β γ : Type} {xs : List α} {g : α → List β} {h : α → β → γ}
    (hnodup : (xs.flatMap fun x => (g x).map (h x)).Nodup) {x x' : α} (hx : x ∈ xs) (hx' : x' ∈ xs)
    {y y' : β} (hy : y ∈ g x) (hy' : y' ∈ g x') (hsame : h x y = h x' y') : y = y' := by
  have hmem : h x y ∈ (g x').map (h x') := by
    rw [hsame]
    exact List.mem_map_of_mem hy'
  obtain rfl := eq_of_nodup_flatMap hnodup hx hx' (List.mem_map_of_mem hy) hmem
  exact List.inj_on_of_nodup_map ((List.nodup_flatMap.mp hnodup).1 x hx) hy hy' hsame

/-- A full name starts with a dot. -/
theorem fullName_dottedPkg_ne_nil (desc : FileDescriptorProto) (q : List Bytes) :
    fullName desc.dottedPkg q ≠ [] := by
  unfold fullName FileDescriptorProto.dottedPkg
  split_ifs
  · exact List.cons_ne_nil _ _
  · exact List.cons_ne_nil _ _

/-- The full name of an enum value is not the name of a type. It stands behind the name of an enum,
where no message and no package is. -/
theorem ProtocRequest.values_apart (request : ProtocRequest) {desc desc' : FileDescriptorProto}
    (hdesc : desc ∈ request.protoFile) (hdesc' : desc' ∈ request.protoFile) {v t : Element}
    (hv : v ∈ desc.elements) (hvalue : v.kind = .enumValue) (ht : t ∈ desc'.elements)
    (htype : t.kind = .message ∨ t.kind = .enum) : desc.fullNameOf v ≠ desc'.fullNameOf t := by
  intro hsame
  obtain ⟨e, he, henum, vname, hvname⟩ := (nests_file desc).values v hv hvalue
  obtain ⟨q, tname, htname, hin⟩ := (nests_file desc').types t ht htype
  have hvdot : dot ∉ vname := request.identifiers desc hdesc v hv vname (by simp [hvname])
  have htdot : dot ∉ tname := request.identifiers desc' hdesc' t ht tname (by simp [htname])
  have hne : e.qualifiedName ≠ [] := by
    obtain ⟨q', n, hq', -⟩ := (nests_file desc).types e he (.inr henum)
    simp [hq']
  have henumName : desc.fullNameOf e ∈ request.named Kind.isType :=
    CodeGeneratorRequest.mem_named.mpr ⟨desc, hdesc, e, he, by rw [henum]; rfl, rfl⟩
  unfold FileDescriptorProto.fullNameOf at hsame henumName
  rw [hvname, htname, fullName_append _ hne] at hsame
  -- The part behind the last dot is cut off on both sides.
  by_cases hq : q = []
  · subst hq
    have hshort : fullName desc'.dottedPkg ([] ++ [tname]) = desc'.dottedPkg ++ tname := by
      simp [fullName]
    rw [hshort] at hsame
    by_cases hpkg : desc'.package = []
    · -- A file without a package: nothing stands before the name.
      have hdot : desc'.dottedPkg = [] ++ [dot] := if_pos hpkg
      rw [hdot] at hsame
      exact fullName_dottedPkg_ne_nil desc e.qualifiedName (dot_append_inj hvdot htdot hsame)
    · -- The package would have the name of the enum.
      have hdot : desc'.dottedPkg = ascii "." ++ desc'.package ++ [dot] := if_neg hpkg
      rw [hdot] at hsame
      have hcoincide := dot_append_inj hvdot htdot hsame
      exact (request.packagesApart desc' hdesc' hpkg _ henumName).1 hcoincide.symm
  · -- The message around the type would have the name of the enum.
    rcases hin with rfl | ⟨msg, hmsg, hkind, hmsgName⟩
    · exact hq rfl
    · rw [fullName_append _ hq] at hsame
      have hcoincide := dot_append_inj hvdot htdot hsame
      rw [← hmsgName] at hcoincide
      have hsameElement : e = msg := eq_of_nodup_flatMap_map request.unique hdesc hdesc'
        (List.mem_filter.mpr ⟨he, by simp [henum]⟩) (List.mem_filter.mpr ⟨hmsg, by simp [hkind]⟩)
        hcoincide
      rw [hsameElement, hkind] at henum
      cases henum

/-! ### The records of a file -/

def CoreDesc.kind : CoreDesc → Kind
  | .message _ => .message
  | .field _ => .field
  | .enum _ => .enum
  | .enumValue _ => .enumValue
  | .service _ => .service
  | .method _ => .method

/-- The full name and the kind of a record. -/
def recordTag (e : Bytes × CoreDesc) : Bytes × Kind := (e.1, e.2.kind)

/-- The full name and the kind of a descriptor. -/
def baseTag (pkg : Bytes) (b : Kind × BaseDesc) : Bytes × Kind := (pkg ++ dottedName b.2, b.1)

theorem tags_recordEnums (pkg : Bytes) (enums : List EnumDescriptor) :
    (recordEnums pkg enums).map recordTag
      = (enums.flatMap EnumDescriptor.bases).map (baseTag pkg) := by
  simp only [recordEnums, EnumDescriptor.bases, List.map_flatMap, List.map_cons, List.map_map,
    ← List.map_eq_flatMap]
  rfl

theorem tags_recordServices (pkg : Bytes) (services : List ServiceDescriptor) :
    (recordServices pkg services).map recordTag
      = (services.flatMap ServiceDescriptor.bases).map (baseTag pkg) := by
  simp only [recordServices, ServiceDescriptor.bases, List.map_flatMap, List.map_cons, List.map_map,
    ← List.map_eq_flatMap]
  rfl

theorem tags_recordFields (pkg : Bytes) (fields : List FieldDescriptor) :
    (recordFields pkg fields).map recordTag
      = (fields.flatMap fun f => [(Kind.field, f.toBaseDesc)]).map (baseTag pkg) := by
  simp only [recordFields, List.map_map, ← List.map_eq_flatMap]
  rfl

theorem recordMessages_eq (pkg : Bytes) (ms : List MessageDescriptor) :
    recordMessages pkg ms = ms.flatMap (recordMessage pkg) := by
  induction ms with
  | nil => rfl
  | cons m ms ih => rw [recordMessages, ih, List.flatMap_cons]

theorem basesOf_eq (ms : List MessageDescriptor) :
    basesOf ms = ms.flatMap MessageDescriptor.bases := by
  induction ms with
  | nil => rfl
  | cons m ms ih => rw [basesOf, ih, List.flatMap_cons]

/-- The fields of a message are recorded last. -/
theorem tags_recordMessage (pkg : Bytes) (m : MessageDescriptor) :
    ((recordMessage pkg m).map recordTag).Perm (m.bases.map (baseTag pkg)) := by
  induction m using MessageDescriptor.induct with
  | step m ih =>
    obtain ⟨base, mapEntry, fields, messages, enums⟩ := m
    have hmessages : ((recordMessages pkg messages).map recordTag).Perm
        ((basesOf messages).map (baseTag pkg)) := by
      rw [recordMessages_eq, basesOf_eq, List.map_flatMap, List.map_flatMap]
      exact List.Perm.flatMap_left _ ih
    rw [recordMessage, MessageDescriptor.bases]
    simp only [List.map_cons, List.map_append, List.cons_append, tags_recordEnums,
      tags_recordFields]
    refine .cons _ ?_
    refine ((hmessages.append_right _).append_right _).trans ?_
    rw [List.append_assoc (List.map _ (List.flatMap _ fields))]
    exact List.perm_append_comm

theorem tags_records (f : FileDescriptor) :
    (f.records.map recordTag).Perm (f.bases.map (baseTag f.dottedPkg)) := by
  have hmessages : ((recordMessages f.dottedPkg f.messages).map recordTag).Perm
      ((basesOf f.messages).map (baseTag f.dottedPkg)) := by
    rw [recordMessages_eq, basesOf_eq, List.map_flatMap, List.map_flatMap]
    exact List.Perm.flatMap_left _ fun m _ => tags_recordMessage f.dottedPkg m
  rw [FileDescriptor.records, FileDescriptor.bases]
  simp only [List.map_append, tags_recordEnums, tags_recordServices]
  refine List.Perm.append_right _ ?_
  exact (List.perm_append_comm).trans (hmessages.append_right _)

/-- The descriptors of a file are recorded under the full names of its elements. -/
theorem tags_of_newFileDescriptor {p : Package} {desc : FileDescriptorProto}
    (h : newFileDescriptor p desc = some f) : (f.records.map recordTag).Perm
      (desc.elements.map fun el => (desc.fullNameOf el, el.kind)) := by
  have hbases := bases_newFileDescriptor p desc
  rw [h, Option.map_some] at hbases
  have hpkg : f.dottedPkg = desc.dottedPkg := by
    rw [(madeFile h).file]
    rfl
  have htags : f.bases.map (baseTag f.dottedPkg)
      = desc.elements.map fun el => (desc.fullNameOf el, el.kind) := by
    refine forall₂_map_eq ((mapM_eq_some_iff.mp hbases.symm).imp fun el b hb => ?_)
    obtain ⟨base, hbase, rfl⟩ := Option.map_eq_some_iff.mp hb
    rw [baseTag, dottedName, newBaseDesc_qualifiedName hbase, hpkg]
    rfl
  rw [← htags]
  exact tags_records f

/-! ### The types of a file -/

/-- A message or an enum is in a file, at any depth. -/
def FileDescriptor.HasType (f : FileDescriptor) : CoreDesc → Prop
  | .message msg => f.HasMessage msg
  | .enum e => f.HasEnum e
  | _ => False

section
variable {pkg k : Bytes} {msg : MessageDescriptor} {e : EnumDescriptor}

theorem message_notMem_recordEnums (enums : List EnumDescriptor) :
    (k, CoreDesc.message msg) ∉ recordEnums pkg enums := by
  simp [recordEnums]

theorem enum_mem_recordEnums {enums : List EnumDescriptor} :
    (k, CoreDesc.enum e) ∈ recordEnums pkg enums ↔
      e ∈ enums ∧ k = pkg ++ dottedName e.toBaseDesc := by
  simp only [recordEnums, List.mem_flatMap, List.mem_cons, List.mem_map]
  constructor
  · rintro ⟨e', he', heq | ⟨v, -, heq⟩⟩
    · obtain ⟨hk, ⟨⟩⟩ := Prod.mk.inj heq
      exact ⟨he', hk⟩
    · cases (Prod.mk.inj heq).2
  · rintro ⟨he, rfl⟩
    exact ⟨e, he, .inl rfl⟩

/-- The messages that are recorded for a message. -/
theorem message_mem_recordMessage :
    (k, CoreDesc.message msg) ∈ recordMessage pkg m ↔
      (msg = m ∨ msg ∈ m.nestedMessages) ∧ k = pkg ++ dottedName msg.toBaseDesc := by
  induction m using MessageDescriptor.induct with
  | step m ih =>
    rw [mem_nestedMessages]
    obtain ⟨base, mapEntry, fields, messages, enums⟩ := m
    have hfields : (k, CoreDesc.message msg) ∉ recordFields pkg fields := by simp [recordFields]
    rw [recordMessage, recordMessages_eq]
    simp only [List.cons_append, List.mem_cons, List.mem_append, List.mem_flatMap, hfields,
      message_notMem_recordEnums, or_false]
    constructor
    · rintro (hself | ⟨n, hn, hin⟩)
      · obtain ⟨hk, ⟨⟩⟩ := Prod.mk.inj hself
        exact ⟨.inl rfl, hk⟩
      · obtain ⟨hin, hk⟩ := (ih n hn).mp hin
        rcases hin with rfl | hin
        · exact ⟨.inr (.inl hn), hk⟩
        · exact ⟨.inr (.inr ⟨n, hn, hin⟩), hk⟩
    · rintro ⟨rfl | hmsg | ⟨n, hn, hmsg⟩, hk⟩
      · exact .inl (by rw [hk])
      · exact .inr ⟨msg, hmsg, (ih msg hmsg).mpr ⟨.inl rfl, hk⟩⟩
      · exact .inr ⟨n, hn, (ih n hn).mpr ⟨.inr hmsg, hk⟩⟩

/-- The enums that are recorded for a message. -/
theorem enum_mem_recordMessage :
    (k, CoreDesc.enum e) ∈ recordMessage pkg m ↔
      e ∈ m.nestedEnums ∧ k = pkg ++ dottedName e.toBaseDesc := by
  induction m using MessageDescriptor.induct with
  | step m ih =>
    rw [mem_nestedEnums]
    obtain ⟨base, mapEntry, fields, messages, enums⟩ := m
    have hfields : (k, CoreDesc.enum e) ∉ recordFields pkg fields := by simp [recordFields]
    have hself : (k, CoreDesc.enum e)
        ≠ (pkg ++ dottedName base, .message ⟨base, mapEntry, fields, messages, enums⟩) :=
      fun heq => CoreDesc.noConfusion (Prod.mk.inj heq).2
    rw [recordMessage, recordMessages_eq]
    simp only [List.cons_append, List.mem_cons, List.mem_append, List.mem_flatMap, hfields, hself,
      enum_mem_recordEnums, or_false, false_or]
    constructor
    · rintro (⟨n, hn, hin⟩ | ⟨he, hk⟩)
      · obtain ⟨hin, hk⟩ := (ih n hn).mp hin
        exact ⟨.inr ⟨n, hn, hin⟩, hk⟩
      · exact ⟨.inl he, hk⟩
    · rintro ⟨he | ⟨n, hn, he⟩, hk⟩
      · exact .inr ⟨he, hk⟩
      · exact .inl ⟨n, hn, (ih n hn).mpr ⟨he, hk⟩⟩

variable {f : FileDescriptor}

theorem message_mem_records : (k, CoreDesc.message msg) ∈ f.records ↔
    f.HasMessage msg ∧ k = f.dottedPkg ++ dottedName msg.toBaseDesc := by
  have hservices : (k, CoreDesc.message msg) ∉ recordServices f.dottedPkg f.services := by
    simp [recordServices]
  rw [FileDescriptor.records, recordMessages_eq, ← FileDescriptor.mem_allMessages,
    FileDescriptor.allMessages, nestedMessagesOf_eq]
  simp only [List.mem_append, List.mem_flatMap, hservices, message_notMem_recordEnums,
    message_mem_recordMessage, or_false, false_or]
  constructor
  · rintro ⟨m, hm, rfl | hin, hk⟩
    · exact ⟨.inl hm, hk⟩
    · exact ⟨.inr ⟨m, hm, hin⟩, hk⟩
  · rintro ⟨hm | ⟨m, hm, hin⟩, hk⟩
    · exact ⟨msg, hm, .inl rfl, hk⟩
    · exact ⟨m, hm, .inr hin, hk⟩

theorem enum_mem_records : (k, CoreDesc.enum e) ∈ f.records ↔
    f.HasEnum e ∧ k = f.dottedPkg ++ dottedName e.toBaseDesc := by
  have hservices : (k, CoreDesc.enum e) ∉ recordServices f.dottedPkg f.services := by
    simp [recordServices]
  rw [FileDescriptor.records, recordMessages_eq, ← FileDescriptor.mem_allEnums,
    FileDescriptor.allEnums, nestedEnumsOf_eq]
  simp only [List.mem_append, List.mem_flatMap, hservices, enum_mem_recordEnums,
    enum_mem_recordMessage, or_false]
  constructor
  · rintro (⟨he, hk⟩ | ⟨m, hm, hin, hk⟩)
    · exact ⟨.inr he, hk⟩
    · exact ⟨.inl ⟨m, hm, hin⟩, hk⟩
  · rintro ⟨⟨m, hm, hin⟩ | he, hk⟩
    · exact .inr ⟨m, hm, hin, hk⟩
    · exact .inl ⟨he, hk⟩

/-- The messages and enums of a file are recorded under their full names. -/
theorem type_mem_records (hc : c.kind.isType = true) :
    (k, c) ∈ f.records ↔ f.HasType c ∧ k = f.dottedPkg ++ dottedName c.base := by
  cases c with
  | message msg => exact message_mem_records
  | enum e => exact enum_mem_records
  | field | enumValue | service | method => cases hc

end

theorem isType_of_hasType (h : f.HasType c) : c.kind.isType = true := by
  cases c with
  | message msg => rfl
  | enum e => rfl
  | field | enumValue | service | method => exact h.elim

/-! ### Lookups -/

theorem mem_entries : e ∈ f.entries ↔ e ∈ f.records := by
  refine ⟨mem_records_of_mem_entries, fun h => ?_⟩
  rw [FileDescriptor.entries, List.append_assoc, List.append_assoc,
    ← List.append_assoc (recordEnums _ _)]
  exact List.mem_append_right _ h

theorem mem_flatMap_entries {files : List FileDescriptor} (hf : f ∈ files) (he : e ∈ f.records) :
    e ∈ files.flatMap FileDescriptor.entries :=
  List.mem_flatMap.mpr ⟨f, hf, mem_entries.mpr he⟩

section
variable {p : Package} {desc : FileDescriptorProto} {f : FileDescriptor}

section
variable (h : newFileDescriptor p desc = some f)
include h

theorem exists_element (he : e ∈ f.records) :
    ∃ el ∈ desc.elements, desc.fullNameOf el = e.1 ∧ el.kind = e.2.kind := by
  have htag := (tags_of_newFileDescriptor h).mem_iff.mp (List.mem_map_of_mem he)
  obtain ⟨el, hel, heq⟩ := List.mem_map.mp htag
  exact ⟨el, hel, Prod.mk.inj heq⟩

theorem exists_record {el : Element} (hel : el ∈ desc.elements) :
    ∃ c : CoreDesc, (desc.fullNameOf el, c) ∈ f.records ∧
      c.kind = el.kind := by
  have htag := (tags_of_newFileDescriptor h).mem_iff.mpr
    (List.mem_map_of_mem (f := fun el => (desc.fullNameOf el, el.kind)) hel)
  obtain ⟨⟨k, c⟩, he, heq⟩ := List.mem_map.mp htag
  obtain ⟨rfl, hkind⟩ := Prod.mk.inj heq
  exact ⟨c, he, hkind⟩

theorem records_filter_perm (kinds : Kind → Bool) :
    ((f.records.filter fun e => kinds e.2.kind).map Prod.fst).Perm
      ((desc.elements.filter fun el => kinds el.kind).map desc.fullNameOf) := by
  have hperm := ((tags_of_newFileDescriptor h).filter fun tag => kinds tag.2).map Prod.fst
  rw [List.filter_map, List.filter_map, List.map_map, List.map_map] at hperm
  exact hperm

end

end

section Lookup

variable {request : ProtocRequest} {order : RangeOrder} {packages : List PackageDescriptor}

section
variable (h : newPackages order request.toCodeGeneratorRequest = some packages)
include h

/-- All entries under the name of a type are this type. -/
theorem entry_of_type (hf : f ∈ packages.flatMap PackageDescriptor.files)
    (hrecord : (k, c) ∈ f.records) (hc : c.kind.isType = true)
    (he : e ∈ (packages.flatMap PackageDescriptor.files).flatMap FileDescriptor.entries)
    (hk : e.1 = k) : e = (k, c) := by
  have hentry := mem_flatMap_entries hf hrecord
  have hkind : c.kind = .message ∨ c.kind = .enum := by
    cases c with
    | message | enum => simp [CoreDesc.kind]
    | field | enumValue | service | method => cases hc
  by_cases hvalue : e.2.kind = .enumValue
  · -- The names of values are not unique, but they are not the names of types.
    obtain ⟨f', hf', he⟩ := List.mem_flatMap.mp he
    obtain ⟨desc, hdesc, p, -, hnew⟩ := exists_proto h hf
    obtain ⟨desc', hdesc', p', -, hnew'⟩ := exists_proto h hf'
    obtain ⟨t, ht, htname, htkind⟩ := exists_element hnew hrecord
    obtain ⟨v, hv, hvname, hvkind⟩ := exists_element hnew' (mem_entries.mp he)
    refine absurd ?_ (request.values_apart hdesc' hdesc hv (hvkind.trans hvalue) ht
      (by rw [htkind]; exact hkind))
    rw [hvname, htname, hk]
  · refine entries_unique_of (fun c => c.kind ≠ .enumValue) _ (fun p desc f hnew =>
      records_filter_perm hnew fun kind => kind ≠ .enumValue) request.unique h he hentry
      (decide_eq_true hvalue) (decide_eq_true ?_) hk
    rcases hkind with hkind | hkind <;> simp [hkind]

theorem lookup_type (hf : f ∈ packages.flatMap PackageDescriptor.files)
    (hrecord : (k, c) ∈ f.records) (hc : c.kind.isType = true) :
    (Model.ofPackages packages).allDescByName.lookup k = some c := by
  have hentry := mem_flatMap_entries hf hrecord
  -- The map has the last entry under the name.
  rw [Model.ofPackages, createDescMap, lookup_foldl_insert]
  obtain ⟨e, hfirst⟩ := exists_firstNamed Prod.fst (List.mem_reverse.mpr hentry)
  have he := List.mem_reverse.mp (mem_of_firstNamed hfirst)
  have hsame := entry_of_type h hf hrecord hc he (name_of_firstNamed hfirst)
  rw [hfirst, hsame]
  rfl

/-- No descriptor has an empty name. -/
theorem lookup_nil : (Model.ofPackages packages).allDescByName.lookup [] = none := by
  rw [Model.ofPackages, createDescMap, lookup_foldl_insert]
  have hfirst : firstNamed Prod.fst [] ((packages.flatMap PackageDescriptor.files).flatMap
      FileDescriptor.entries).reverse = none := by
    refine firstNamed_eq_none.mpr fun e he hname => ?_
    obtain ⟨f, hf, he⟩ := List.mem_flatMap.mp (List.mem_reverse.mp he)
    obtain ⟨desc, -, p, -, hnew⟩ := exists_proto h hf
    obtain ⟨el, -, hel, -⟩ := exists_element hnew (mem_entries.mp he)
    exact fullName_dottedPkg_ne_nil desc el.qualifiedName (hel.trans hname)
  rw [hfirst]
  rfl

end

end Lookup

/-! ### Where the references come from -/

theorem exists_of_mem_newMessageDescriptors {i : Int} {descs : List DescriptorProto}
    {ms : List MessageDescriptor} (h : newMessageDescriptors src parent path i descs = some ms)
    (hmsg : msg ∈ ms) : ∃ d ∈ descs, ∃ path, newMessageDescriptor src parent path d = some msg := by
  induction descs generalizing i ms with
  | nil =>
    cases h
    cases hmsg
  | cons desc rest ih =>
    obtain ⟨first, hfirst, h⟩ := Option.bind_eq_some_iff.mp h
    obtain ⟨others, hothers, ⟨⟩⟩ := Option.bind_eq_some_iff.mp h
    rcases List.mem_cons.mp hmsg with rfl | hmsg
    · exact ⟨desc, List.mem_cons_self, _, hfirst⟩
    · obtain ⟨d, hd, hmade⟩ := ih hothers hmsg
      exact ⟨d, List.mem_cons_of_mem _ hd, hmade⟩

/-- The fields and the nested messages of a descriptor are those of the request. -/
theorem newMessageDescriptor_parts {d : DescriptorProto}
    (h : newMessageDescriptor src parent path d = some msg) :
    (∀ field ∈ msg.fields, ∃ fd ∈ d.field, fd.typeName = field.typeName) ∧
      ∀ inner ∈ msg.messages, ∃ d' ∈ d.nestedType, ∃ parent path,
        newMessageDescriptor src parent path d' = some inner := by
  have hparts := madeMessage h
  constructor
  · intro f hf
    obtain ⟨fd, hfd, i, hmade⟩ := forall₂_mem (forall₂_newEach hparts.fields) hf
    obtain ⟨base, -, ⟨⟩⟩ := Option.bind_eq_some_iff.mp hmade
    exact ⟨fd, hfd, rfl⟩
  · intro inner hinner
    obtain ⟨d', hd', path', hmade⟩ := exists_of_mem_newMessageDescriptors hparts.messages hinner
    exact ⟨d', hd', _, path', hmade⟩

section
variable {p : Package} {desc : FileDescriptorProto} {f : FileDescriptor}

theorem exists_message (h : newFileDescriptor p desc = some f) (hmsg : f.HasMessage msg) :
    ∃ d, desc.HasMessage d ∧ ∃ src parent path,
      newMessageDescriptor src parent path d = some msg := by
  induction hmsg with
  | top mem =>
    obtain ⟨d, hd, path, hmade⟩ := exists_of_mem_newMessageDescriptors (madeFile h).messages mem
    exact ⟨d, .top hd, _, _, path, hmade⟩
  | nested outer mem ih =>
    obtain ⟨d, hd, src, parent, path, hmade⟩ := ih
    obtain ⟨d', hd', parent', path', hmade'⟩ := (newMessageDescriptor_parts hmade).2 _ mem
    exact ⟨d', .nested hd hd', src, parent', path', hmade'⟩

theorem exists_method (h : newFileDescriptor p desc = some f) (hs : s ∈ f.services)
    (hmethod : method ∈ s.methods) :
    ∃ service ∈ desc.service, ∃ m ∈ service.method,
      m.inputType = method.inputType ∧ m.outputType = method.outputType := by
  obtain ⟨service, hservice, i, hmade⟩ := forall₂_mem (forall₂_newEach (madeFile h).services) hs
  obtain ⟨base, -, hmade⟩ := Option.bind_eq_some_iff.mp hmade
  obtain ⟨methods, hmethods, ⟨⟩⟩ := Option.bind_eq_some_iff.mp hmade
  obtain ⟨m, hm, i, hmade⟩ := forall₂_mem (forall₂_newEach hmethods) hmethod
  obtain ⟨base, -, ⟨⟩⟩ := Option.bind_eq_some_iff.mp hmade
  exact ⟨service, hservice, m, hm, rfl, rfl⟩

end

/-! ### The assignments -/

theorem resolveFieldTypes_eq (descMap : GoMap CoreDesc) (ms : List MessageDescriptor) :
    resolveFieldTypes descMap ms = ms.flatMap (resolveMessage descMap) := by
  induction ms with
  | nil => rfl
  | cons m ms ih => rw [resolveFieldTypes, ih, List.flatMap_cons]

theorem mem_resolveMessage : a ∈ resolveMessage descMap m ↔
      ∃ msg, (msg = m ∨ msg ∈ m.nestedMessages) ∧
        ∃ field ∈ msg.fields, a = (field, descMap.lookup field.typeName) := by
  induction m using MessageDescriptor.induct with
  | step m ih =>
    have hself : a ∈ resolveMessage descMap m ↔
        (∃ field ∈ m.fields, a = (field, descMap.lookup field.typeName)) ∨
          ∃ n ∈ m.messages, a ∈ resolveMessage descMap n := by
      cases m
      rw [resolveMessage, resolveFieldTypes_eq, List.mem_append, List.mem_map, List.mem_flatMap]
      simp only [eq_comm (b := a)]
    rw [hself]
    constructor
    · rintro (hfield | ⟨n, hn, ha⟩)
      · exact ⟨m, .inl rfl, hfield⟩
      · obtain ⟨msg, hmsg, hfield⟩ := (ih n hn).mp ha
        refine ⟨msg, .inr (mem_nestedMessages.mpr ?_), hfield⟩
        rcases hmsg with rfl | hmsg
        · exact .inl hn
        · exact .inr ⟨n, hn, hmsg⟩
    · rintro ⟨msg, rfl | hmsg, hfield⟩
      · exact .inl hfield
      · rcases mem_nestedMessages.mp hmsg with hmsg | ⟨n, hn, hmsg⟩
        · exact .inr ⟨msg, hmsg, (ih msg hmsg).mpr ⟨msg, .inl rfl, hfield⟩⟩
        · exact .inr ⟨n, hn, (ih n hn).mpr ⟨msg, .inr hmsg, hfield⟩⟩

/-- The fields of the messages at any depth, and no others, get a type. -/
theorem mem_resolveFieldTypes : a ∈ resolveFieldTypes descMap f.messages ↔
      ∃ msg, f.HasMessage msg ∧
        ∃ field ∈ msg.fields, a = (field, descMap.lookup field.typeName) := by
  rw [resolveFieldTypes_eq, List.mem_flatMap]
  simp only [mem_resolveMessage, ← FileDescriptor.mem_allMessages, FileDescriptor.allMessages,
    nestedMessagesOf_eq, List.mem_append, List.mem_flatMap]
  constructor
  · rintro ⟨m, hm, msg, rfl | hmsg, hfield⟩
    · exact ⟨msg, .inl hm, hfield⟩
    · exact ⟨msg, .inr ⟨m, hm, hmsg⟩, hfield⟩
  · rintro ⟨msg, hm | ⟨m, hm, hmsg⟩, hfield⟩
    · exact ⟨msg, hm, msg, .inl rfl, hfield⟩
    · exact ⟨m, hm, msg, .inr hmsg, hfield⟩

/-- The methods of the services, each one once, get their messages. -/
theorem map_fst_resolveMethodTypes {services : List ServiceDescriptor}
    {assigned : List (MethodDescriptor × MessageDescriptor × MessageDescriptor)}
    (h : resolveMethodTypes descMap services = some assigned) :
    assigned.map Prod.fst = services.flatMap ServiceDescriptor.methods := by
  rw [← List.map_id (services.flatMap ServiceDescriptor.methods)]
  refine forall₂_map_eq ((mapM_eq_some_iff.mp h).imp fun method a ha => ?_)
  obtain ⟨input, -, ha⟩ := Option.bind_eq_some_iff.mp ha
  obtain ⟨output, -, ⟨⟩⟩ := Option.bind_eq_some_iff.mp ha
  rfl

/-! ### The resolved model -/

/-- A full name denotes a message or enum of the model. -/
def Model.Denotes (m : Model) (name : Bytes) (c : CoreDesc) : Prop :=
  ∃ p ∈ m.packages, ∃ f ∈ p.files, f.HasType c ∧ f.dottedPkg ++ dottedName c.base = name

/-- All references of the model are resolved. -/
structure Model.Resolved (m : Model) : Prop where
  /-- A full name denotes one descriptor at most. -/
  denotes_unique : ∀ name c c', m.Denotes name c → m.Denotes name c' → c = c'
  /-- Every field of every message gets a type. -/
  visited : ∀ p ∈ m.packages, ∀ f ∈ p.files, ∀ msg, f.HasMessage msg → ∀ field ∈ msg.fields,
    (field, m.typ field) ∈ resolveFieldTypes m.allDescByName f.messages
  /-- The type is what its name denotes, and nil for a field without one. -/
  fields : ∀ p ∈ m.packages, ∀ f ∈ p.files,
    ∀ a ∈ resolveFieldTypes m.allDescByName f.messages,
      (a.1.typeName = [] → a.2 = none) ∧
      (a.1.typeName ≠ [] → ∃ c, a.2 = some c ∧ m.Denotes a.1.typeName c)
  /-- The type assertions succeed, and every method gets the messages that it names. -/
  methods : ∀ p ∈ m.packages, ∀ f ∈ p.files, ∃ assigned,
    resolveMethodTypes m.allDescByName f.services = some assigned ∧
      assigned.map Prod.fst = f.services.flatMap ServiceDescriptor.methods ∧
      ∀ a ∈ assigned, m.Denotes a.1.inputType (.message a.2.1) ∧
        m.Denotes a.1.outputType (.message a.2.2)

section Resolved

variable {request : ProtocRequest} {order : RangeOrder} {packages : List PackageDescriptor}

theorem denotes_ofPackages :
    (Model.ofPackages packages).Denotes name c ↔
      ∃ f ∈ packages.flatMap PackageDescriptor.files, c.kind.isType = true ∧
        (name, c) ∈ f.records := by
  constructor
  · rintro ⟨p, hp, f, hf, htype, rfl⟩
    have hc := isType_of_hasType htype
    exact ⟨f, List.mem_flatMap.mpr ⟨p, hp, hf⟩, hc, (type_mem_records hc).mpr ⟨htype, rfl⟩⟩
  · rintro ⟨f, hf, hc, hrecord⟩
    obtain ⟨p, hp, hf⟩ := List.mem_flatMap.mp hf
    obtain ⟨htype, hname⟩ := (type_mem_records hc).mp hrecord
    exact ⟨p, hp, f, hf, htype, hname.symm⟩

section
variable (h : newPackages order request.toCodeGeneratorRequest = some packages)
include h

/-- A name of the request denotes a descriptor, and this is what is found under it. -/
theorem exists_lookup (hkinds : ∀ kind, kinds kind = true → kind.isType = true)
    (hname : name ∈ request.named kinds) :
    ∃ c : CoreDesc, kinds c.kind = true ∧
      (Model.ofPackages packages).allDescByName.lookup name = some c ∧
      (Model.ofPackages packages).Denotes name c := by
  obtain ⟨desc, hdesc, el, hel, hkind, rfl⟩ := CodeGeneratorRequest.mem_named.mp hname
  obtain ⟨f, hf, p, hnew⟩ := exists_fileDescriptor h hdesc
  obtain ⟨c, hrecord, hc⟩ := exists_record hnew hel
  rw [← hc] at hkind
  have htype := hkinds _ hkind
  exact ⟨c, hkind, lookup_type h hf hrecord htype, denotes_ofPackages.mpr ⟨f, hf, htype, hrecord⟩⟩

theorem exists_message_lookup (hname : name ∈ request.named (· = .message)) : ∃ msg,
      asMessage ((Model.ofPackages packages).allDescByName.lookup name) = some msg ∧
      (Model.ofPackages packages).Denotes name (.message msg) := by
  obtain ⟨c, hkind, hlookup, hdenotes⟩ := exists_lookup h
    (fun kind hkind => by rw [of_decide_eq_true hkind]; rfl) hname
  cases c with
  | message msg => exact ⟨msg, by rw [hlookup]; rfl, hdenotes⟩
  | field | enum | enumValue | service | method => cases hkind

theorem exists_method_types (hf : f ∈ packages.flatMap PackageDescriptor.files)
    (hs : s ∈ f.services) (hmethod : method ∈ s.methods) :
    ∃ input output,
      asMessage ((Model.ofPackages packages).allDescByName.lookup method.inputType) = some input ∧
      asMessage ((Model.ofPackages packages).allDescByName.lookup method.outputType) = some output ∧
      (Model.ofPackages packages).Denotes method.inputType (.message input) ∧
      (Model.ofPackages packages).Denotes method.outputType (.message output) := by
  obtain ⟨desc, hdesc, p, -, hnew⟩ := exists_proto h hf
  obtain ⟨service, hservice, m, hm, hinput, houtput⟩ := exists_method hnew hs hmethod
  have hdefined := request.methodTypes desc hdesc service hservice m hm
  rw [hinput, houtput] at hdefined
  obtain ⟨input, hlookup, hdenotes⟩ := exists_message_lookup h hdefined.1
  obtain ⟨output, hlookup', hdenotes'⟩ := exists_message_lookup h hdefined.2
  exact ⟨input, output, hlookup, hlookup', hdenotes, hdenotes'⟩

theorem denotes_unique_ofPackages {c' : CoreDesc}
    (hc : (Model.ofPackages packages).Denotes name c)
    (hc' : (Model.ofPackages packages).Denotes name c') : c = c' := by
  obtain ⟨f, hf, htype, hrecord⟩ := denotes_ofPackages.mp hc
  obtain ⟨f', hf', htype', hrecord'⟩ := denotes_ofPackages.mp hc'
  have hlookup := lookup_type h hf hrecord htype
  rw [lookup_type h hf' hrecord' htype'] at hlookup
  exact (Option.some.inj hlookup).symm

/-- What the name of a field's type is looked up as. -/
theorem field_lookup (hf : f ∈ packages.flatMap PackageDescriptor.files) (hmsg : f.HasMessage msg)
    {field : FieldDescriptor} (hfield : field ∈ msg.fields) :
    (field.typeName = [] → (Model.ofPackages packages).allDescByName.lookup field.typeName = none) ∧
    (field.typeName ≠ [] →
      ∃ c, (Model.ofPackages packages).allDescByName.lookup field.typeName = some c ∧
        (Model.ofPackages packages).Denotes field.typeName c) := by
  obtain ⟨desc, hdesc, p, -, hnew⟩ := exists_proto h hf
  obtain ⟨d, hd, src, parent, path, hmade⟩ := exists_message hnew hmsg
  obtain ⟨fd, hfd, htypeName⟩ := (newMessageDescriptor_parts hmade).1 field hfield
  constructor
  · intro hnil
    rw [hnil]
    exact lookup_nil h
  · intro hne
    have hdefined := request.fieldTypes desc hdesc d hd fd hfd (by rw [htypeName]; exact hne)
    rw [htypeName] at hdefined
    obtain ⟨c, -, hlookup, hdenotes⟩ := exists_lookup h (fun _ hkind => hkind) hdefined
    exact ⟨c, hlookup, hdenotes⟩

/-- The assignments to the methods of a file. -/
theorem exists_resolveMethodTypes (hf : f ∈ packages.flatMap PackageDescriptor.files) : ∃ assigned,
      resolveMethodTypes (Model.ofPackages packages).allDescByName f.services = some assigned ∧
      ∀ a ∈ assigned, (Model.ofPackages packages).Denotes a.1.inputType (.message a.2.1) ∧
        (Model.ofPackages packages).Denotes a.1.outputType (.message a.2.2) := by
  have htypes : ∀ method ∈ f.services.flatMap ServiceDescriptor.methods, ∃ a, (do
      let input ← asMessage ((Model.ofPackages packages).allDescByName.lookup method.inputType)
      let output ← asMessage ((Model.ofPackages packages).allDescByName.lookup method.outputType)
      some (method, input, output)) = some a ∧
        (Model.ofPackages packages).Denotes a.1.inputType (.message a.2.1) ∧
        (Model.ofPackages packages).Denotes a.1.outputType (.message a.2.2) := by
    intro method hmethod
    obtain ⟨s, hs, hmethod⟩ := List.mem_flatMap.mp hmethod
    obtain ⟨input, output, hinput, houtput, hdenotes, hdenotes'⟩ :=
      exists_method_types h hf hs hmethod
    refine ⟨(method, input, output), ?_, hdenotes, hdenotes'⟩
    rw [hinput, houtput]
    rfl
  obtain ⟨assigned, hassigned⟩ := exists_mapM fun method hmethod =>
    (htypes method hmethod).imp fun a ha => ha.1
  refine ⟨assigned, hassigned, fun a ha => ?_⟩
  obtain ⟨method, hmethod, hmade⟩ := (mem_mapM hassigned).mp ha
  obtain ⟨a', hmade', hdenotes⟩ := htypes method hmethod
  obtain rfl : a' = a := Option.some.inj (hmade'.symm.trans hmade)
  exact hdenotes

/-- So no type assertion of `newModel` fails. -/
theorem methodsResolve_ofPackages : (Model.ofPackages packages).methodsResolve = true := by
  unfold Model.methodsResolve
  simp only [List.all_eq_true]
  intro p hp f hf
  obtain ⟨assigned, hassigned, -⟩ :=
    exists_resolveMethodTypes h (List.mem_flatMap.mpr ⟨p, hp, hf⟩)
  exact Option.isSome_of_eq_some hassigned

theorem resolved_ofPackages : (Model.ofPackages packages).Resolved where
  denotes_unique := fun _ _ _ hc hc' => denotes_unique_ofPackages h hc hc'
  visited := fun p hp f hf msg hmsg field hfield =>
    mem_resolveFieldTypes.mpr ⟨msg, hmsg, field, hfield, rfl⟩
  fields := by
    intro p hp f hf a ha
    obtain ⟨msg, hmsg, field, hfield, rfl⟩ := mem_resolveFieldTypes.mp ha
    exact field_lookup h (List.mem_flatMap.mpr ⟨p, hp, hf⟩) hmsg hfield
  methods := by
    intro p hp f hf
    obtain ⟨assigned, hassigned, hdenotes⟩ :=
      exists_resolveMethodTypes h (List.mem_flatMap.mpr ⟨p, hp, hf⟩)
    exact ⟨assigned, hassigned, map_fst_resolveMethodTypes hassigned, hdenotes⟩

end

end Resolved

namespace OneFile

/-- A nested message with a field that has no type name. -/
def inner : DescriptorProto :=
  ⟨ascii "Inner", false, [⟨ascii "n", .int32, [], false, none, false⟩], [], []⟩

/-- A message with a nested message, a nested enum, and fields of these types. -/
def outer : DescriptorProto :=
  ⟨ascii "A", false, [⟨ascii "inner", .message, ascii ".a.A.Inner", false, none, false⟩,
      ⟨ascii "color", .enum, ascii ".a.A.Color", false, none, false⟩],
    [inner], [⟨ascii "Color", [⟨ascii "RED", false⟩]⟩]⟩

def file : FileDescriptorProto :=
  ⟨ascii "a.proto", ascii "a", [outer], [],
    [⟨ascii "S", [⟨ascii "Call", ascii ".a.A", ascii ".a.A.Inner", false⟩]⟩], []⟩

theorem hasMessage_file {msg : DescriptorProto} (h : file.HasMessage msg) :
    msg = outer ∨ msg = inner := by
  induction h with
  | top mem => exact .inl (List.mem_singleton.mp mem)
  | nested _ mem ih =>
    rcases ih with rfl | rfl
    · exact .inr (List.mem_singleton.mp mem)
    · cases mem

def request : ProtocRequest where
  protoFile := [file]
  fileToGenerate := []
  names_nodup := by decide
  identifiers := by decide +kernel
  unique := by decide +kernel
  packagesApart := by decide +kernel
  fieldTypes := by
    intro desc hdesc msg hmsg
    obtain rfl := List.mem_singleton.mp hdesc
    rcases hasMessage_file hmsg with rfl | rfl
    · decide +kernel
    · decide +kernel
  methodTypes := by decide +kernel

end OneFile

end IstioVendor.ProtocGenDocs
