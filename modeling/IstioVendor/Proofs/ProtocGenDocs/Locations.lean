import IstioVendor.Proofs.ProtocGenDocs.NewModel
import IstioVendor.ProtocGenDocs.PathVector

/-!
# `IstioVendor.Proofs.ProtocGenDocs.Locations`: the comment of an element is at its path

`protoc` gives a comment with the path of the element that it was written for. `elements` lists the
elements of a file with their paths: the messages, fields, enums, values, services and methods, at
any depth. `comments_attached` says that the descriptor of each of them is made with the last
location at exactly this path, or without one.

The source compares paths as strings. A number in decimal has no comma, so the string can be taken
apart again, and different paths are different strings (`pathVector_injective`). The map of the
locations then answers like a search in the list from its end (`lookup_newLocations`). The
constructors with strings make what the constructors with lists of integers make
(`newFileDescriptor_pathVector`), and these ask for one location for each element, in the order of
`elements` (`bases_newFileDescriptor`). No two elements have the same path (`laid_file`): below an
element, the branches start with different numbers.
-/

set_option autoImplicit false

namespace IstioVendor.ProtocGenDocs

open Lib

/-! ### Paths as strings -/

theorem comma_notMem_itoa (v : Int) : comma ∉ itoa v := by
  have hdigits : ∀ n, comma ∉ decimal n := fun n hmem =>
    absurd (of_mem_decimal hmem).1 (by decide)
  unfold itoa
  split_ifs
  · rw [List.mem_cons, not_or]
    exact ⟨by decide, hdigits _⟩
  · exact hdigits _

theorem itoa_injective : Function.Injective itoa := by
  have hminus : ∀ n rest, decimal n ≠ 45 :: rest := fun n rest heq =>
    absurd (of_mem_decimal (heq ▸ List.mem_cons_self)).1 (by decide)
  intro v w h
  unfold itoa at h
  split_ifs at h with hv hw hw
  · have habs := decimal_inj (List.cons.inj h).2
    omega
  · exact absurd h.symm (hminus _ _)
  · exact absurd h (hminus _ _)
  · have habs := decimal_inj h
    omega

/-- The path of a list of integers, as a string. -/
def pathVector : List Int → PathVector
  | [] => []
  | v :: vs => appendPath (newPathVector v) vs

theorem pathVector_append {p : List Int} (hp : p ≠ []) (vs : List Int) :
    pathVector (p ++ vs) = appendPath (pathVector p) vs := by
  cases p with
  | nil => exact absurd rfl hp
  | cons v p => exact List.foldl_append

theorem pathVector_eq_intercalate (v : Int) (vs : List Int) :
    pathVector (v :: vs) = [comma].intercalate ((v :: vs).map itoa) := by
  have happend : ∀ (vs : List Int) (pv : PathVector),
      appendPath pv vs = pv ++ vs.flatMap fun val => comma :: itoa val := by
    intro vs
    induction vs with
    | nil => exact fun pv => (List.append_nil pv).symm
    | cons w vs ih =>
      intro pv
      rw [appendPath, List.foldl_cons, ← appendPath, ih, List.flatMap_cons, List.append_assoc]
  rw [pathVector, happend, newPathVector]
  induction vs generalizing v with
  | nil => simp
  | cons w vs ih =>
    rw [List.map_cons, List.map_cons, List.intercalate, List.intersperse_cons_cons,
      List.flatten_cons, List.flatten_cons, ← List.intercalate, ← List.map_cons, ← ih w]
    rfl

/-- Different paths are different strings. -/
theorem pathVector_injective :
    Function.Injective fun p : Int × List Int => pathVector (p.1 :: p.2) := by
  rintro ⟨v, vs⟩ ⟨w, ws⟩ h
  have hsplit : ∀ (v : Int) (vs : List Int),
      (pathVector (v :: vs)).splitOn comma = (v :: vs).map itoa := by
    intro v vs
    rw [pathVector_eq_intercalate]
    refine List.splitOn_intercalate comma (fun l hl => ?_) (by simp)
    obtain ⟨w, -, rfl⟩ := List.mem_map.mp hl
    exact comma_notMem_itoa w
  -- The string is taken apart at its commas.
  have hmap := congrArg (List.splitOn comma) h
  rw [hsplit, hsplit] at hmap
  cases itoa_injective.list_map hmap
  rfl

theorem pathVector_inj {p q : List Int} (hp : p ≠ []) (hq : q ≠ []) :
    pathVector p = pathVector q ↔ p = q := by
  obtain ⟨v, vs, rfl⟩ := List.exists_cons_of_ne_nil hp
  obtain ⟨w, ws, rfl⟩ := List.exists_cons_of_ne_nil hq
  refine ⟨fun h => ?_, fun h => by rw [h]⟩
  obtain ⟨rfl, rfl⟩ := Prod.mk.inj (@pathVector_injective (v, vs) (w, ws) h)
  rfl

/-! ### Locations -/

/-- The last location in a list with a path. -/
def lastAt (location : List SourceLocation) (path : List Int) : Option SourceLocation :=
  (location.filter fun loc => loc.path = path).getLast?

theorem find_eq_lastAt (location : List SourceLocation) (path : List Int) :
    find location path = lastAt location path := by
  rw [find, lastAt, ← List.head?_filter, List.filter_reverse, List.head?_reverse]

variable {path : List Int}

/-- The map has the last location of every path. -/
theorem lookup_newLocations (location : List SourceLocation) (hpath : path ≠ []) :
    (newLocations location).lookup (pathVector path) = find location path := by
  -- The induction is on the locations. A later one is written over an earlier one.
  have hloop : ∀ m : GoMap SourceLocation, (location.foldl (fun locations loc =>
      match loc.path with
      | [] => locations
      | v :: vs =>
        locations.insert (vs.foldl (fun pv v => appendPath pv [v]) (newPathVector v)) loc)
      m).lookup (pathVector path)
      = (find location path).or (m.lookup (pathVector path)) := by
    induction location with
    | nil => exact fun _ => rfl
    | cons loc location ih =>
      intro m
      have hfind : find (loc :: location) path
          = (find location path).or (if loc.path = path then some loc else none) := by
        rw [find, List.reverse_cons, List.find?_append, ← find]
        by_cases hloc : loc.path = path <;> simp [hloc]
      rw [List.foldl_cons, ih, hfind, Option.or_assoc]
      congr 1
      cases hloc : loc.path with
      | nil => rw [if_neg fun h => hpath h.symm, Option.none_or] -- A location of the file.
      | cons v vs =>
        have hkey : vs.foldl (fun pv v => appendPath pv [v]) (newPathVector v)
            = pathVector (v :: vs) := rfl
        dsimp only
        rw [hkey, lookup_insert_eq]
        simp only [pathVector_inj (List.cons_ne_nil v vs) hpath]
        split_ifs <;> rfl
  exact (hloop ∅).trans Option.or_none

/-! ### The constructors with strings -/

section Constructors

variable {file : File} {location : List SourceLocation} {path : List Int}

theorem newBaseDesc_pathVector (hpath : path ≠ []) (qualifiedName : List Bytes) :
    (IndexedFile.mk file (newLocations location)).newBaseDesc (pathVector path) qualifiedName
      = newBaseDesc ⟨file, location⟩ path qualifiedName := by
  rw [IndexedFile.newBaseDesc, IndexedFile.find, lookup_newLocations location hpath]
  rfl

/-- The same, for a path that was appended to. -/
theorem newBaseDesc_appendPath (hpath : path ≠ []) (vs : List Int) (qualifiedName : List Bytes) :
    (IndexedFile.mk file (newLocations location)).newBaseDesc (appendPath (pathVector path) vs)
      qualifiedName = newBaseDesc ⟨file, location⟩ (path ++ vs) qualifiedName := by
  rw [← pathVector_append hpath]
  exact newBaseDesc_pathVector (by simp [hpath]) qualifiedName

theorem newEnumDescriptor_pathVector (hpath : path ≠ []) (parent : List Bytes)
    (desc : EnumDescriptorProto) :
    (IndexedFile.mk file (newLocations location)).newEnumDescriptor parent (pathVector path) desc
      = newEnumDescriptor ⟨file, location⟩ parent path desc := by
  have hvalue : (IndexedFile.mk file (newLocations location)).newEnumValue (pathVector path)
      (parent ++ [desc.name]) = newEnumValue ⟨file, location⟩ path (parent ++ [desc.name]) := by
    funext ev i
    rw [IndexedFile.newEnumValue, newBaseDesc_appendPath hpath, newEnumValue, enumValuePath]
  rw [IndexedFile.newEnumDescriptor, newBaseDesc_pathVector hpath, hvalue, newEnumDescriptor]

theorem newField_pathVector (hpath : path ≠ []) (qualifiedName : List Bytes) :
    (IndexedFile.mk file (newLocations location)).newField (pathVector path) qualifiedName
      = newField ⟨file, location⟩ path qualifiedName := by
  funext fd i
  rw [IndexedFile.newField, newBaseDesc_appendPath hpath, newField, messageFieldPath]

mutual

theorem newMessageDescriptor_pathVector (desc : DescriptorProto) (parent : List Bytes)
    {path : List Int} (hpath : path ≠ []) :
    (IndexedFile.mk file (newLocations location)).newMessageDescriptor parent (pathVector path) desc
      = newMessageDescriptor ⟨file, location⟩ parent path desc := by
  obtain ⟨name, mapEntry, field, nestedType, enumType⟩ := desc
  -- The tag number and the index are appended at once. For the lists these are two steps.
  have hmessages := newMessageDescriptors_pathVector nestedType (parent ++ [name]) (path ++ [3]) 0
    (fun i => appendPath (pathVector path) [messageMessagePath, i]) fun i => by
      rw [List.append_assoc, pathVector_append hpath]
      rfl
  have henums : (fun e i => (IndexedFile.mk file (newLocations location)).newEnumDescriptor
      (parent ++ [name]) (appendPath (pathVector path) [messageEnumPath, i]) e)
      = fun e i => newEnumDescriptor ⟨file, location⟩ (parent ++ [name]) (path ++ [4, i]) e := by
    funext e i
    rw [← pathVector_append hpath, newEnumDescriptor_pathVector (by simp), messageEnumPath]
  rw [IndexedFile.newMessageDescriptor, newMessageDescriptor]
  rw [newBaseDesc_pathVector hpath, newField_pathVector hpath, hmessages, henums]

theorem newMessageDescriptors_pathVector (descs : List DescriptorProto) (parent : List Bytes)
    (path : List Int) (i : Int) (place : Int → PathVector)
    (hplace : ∀ i, place i = pathVector (path ++ [i])) :
    (IndexedFile.mk file (newLocations location)).newMessageDescriptors parent place i descs
      = newMessageDescriptors ⟨file, location⟩ parent path i descs := by
  match descs with
  | [] => rw [IndexedFile.newMessageDescriptors, newMessageDescriptors]
  | desc :: rest =>
    rw [IndexedFile.newMessageDescriptors, newMessageDescriptors, hplace,
      newMessageDescriptor_pathVector desc parent (by simp),
      newMessageDescriptors_pathVector rest parent path (i + 1) place hplace]

end

theorem newServiceDescriptor_pathVector (hpath : path ≠ []) (desc : ServiceDescriptorProto) :
    (IndexedFile.mk file (newLocations location)).newServiceDescriptor (pathVector path) desc
      = newServiceDescriptor ⟨file, location⟩ path desc := by
  have hmethod : (IndexedFile.mk file (newLocations location)).newMethod (pathVector path)
      [desc.name] = newMethod ⟨file, location⟩ path [desc.name] := by
    funext m i
    rw [IndexedFile.newMethod, newBaseDesc_appendPath hpath, newMethod, serviceMethodPath]
  rw [IndexedFile.newServiceDescriptor, newBaseDesc_pathVector hpath, hmethod, newServiceDescriptor]

end Constructors

/-- The strings make the same descriptors as the lists of integers. -/
theorem newFileDescriptor_pathVector (parent : Package) (desc : FileDescriptorProto) :
    IndexedFile.newFileDescriptor parent desc = newFileDescriptor parent desc := by
  have hplace : ∀ v i : Int, appendPath (newPathVector v) [i] = pathVector [v, i] := fun _ _ => rfl
  rw [IndexedFile.newFileDescriptor, newFileDescriptor]
  simp only [hplace]
  rw [newMessageDescriptors_pathVector desc.messageType [] [messagePath] 0
    (fun i => pathVector [messagePath, i]) fun i => rfl]
  simp only [newEnumDescriptor_pathVector (List.cons_ne_nil _ _),
    newServiceDescriptor_pathVector (List.cons_ne_nil _ _)]
  rfl

/-! ### Elements -/

/-- The kinds of elements that have a comment. -/
inductive Kind where
  | message | field | enum | enumValue | service | method
  deriving DecidableEq

/-- An element of a file, with its path: the field numbers of `descriptor.proto` and the indices
that lead to it from the file. -/
structure Element where
  kind : Kind
  path : List Int
  qualifiedName : List Bytes

/-- The elements in a repeated field of the thing at `path`, by the number of the field. -/
def eachAt {α : Type} (path : List Int) (number : Int) (make : List Int → α → List Element)
    (xs : List α) : List Element :=
  xs.zipIdx.flatMap fun x => make (path ++ [number, (x.2 : Int)]) x.1

def EnumDescriptorProto.elements (parent : List Bytes) (path : List Int) (e : EnumDescriptorProto) :
    List Element :=
  ⟨.enum, path, parent ++ [e.name]⟩ ::
    eachAt path 2 (fun p v => [⟨.enumValue, p, parent ++ [e.name] ++ [v.name]⟩]) e.value

def ServiceDescriptorProto.elements (path : List Int) (s : ServiceDescriptorProto) : List Element :=
  ⟨.service, path, [s.name]⟩ ::
    eachAt path 2 (fun p m => [⟨.method, p, [s.name] ++ [m.name]⟩]) s.method

mutual

/-- The elements of a message: itself, its fields, and the messages and enums that are nested in
it. -/
def DescriptorProto.elements (parent : List Bytes) (path : List Int) :
    DescriptorProto → List Element
  | ⟨name, _, field, nestedType, enumType⟩ =>
    ⟨.message, path, parent ++ [name]⟩ ::
      (eachAt path 2 (fun p f => [⟨.field, p, parent ++ [name] ++ [f.name]⟩]) field ++
        elementsOf (parent ++ [name]) (path ++ [3]) 0 nestedType ++
        eachAt path 4 (EnumDescriptorProto.elements (parent ++ [name])) enumType)

/-- The elements of a list of messages, from the index `i` on. -/
def elementsOf (parent : List Bytes) (path : List Int) : Int → List DescriptorProto → List Element
  | _, [] => []
  | i, desc :: rest => desc.elements parent (path ++ [i]) ++ elementsOf parent path (i + 1) rest

end

/-- The elements of a file. -/
def FileDescriptorProto.elements (desc : FileDescriptorProto) : List Element :=
  elementsOf [] [4] 0 desc.messageType ++
    eachAt [] 5 (EnumDescriptorProto.elements []) desc.enumType ++
    eachAt [] 6 ServiceDescriptorProto.elements desc.service

/-! ### The descriptors of the elements -/

def EnumDescriptor.bases (e : EnumDescriptor) : List (Kind × BaseDesc) :=
  (.enum, e.toBaseDesc) :: e.values.flatMap fun v => [(.enumValue, v.toBaseDesc)]

def ServiceDescriptor.bases (s : ServiceDescriptor) : List (Kind × BaseDesc) :=
  (.service, s.toBaseDesc) :: s.methods.flatMap fun m => [(.method, m.toBaseDesc)]

mutual

/-- What the descriptors of a message and of its elements have in common. -/
def MessageDescriptor.bases : MessageDescriptor → List (Kind × BaseDesc)
  | ⟨base, _, fields, messages, enums⟩ =>
    (.message, base) :: ((fields.flatMap fun f => [(.field, f.toBaseDesc)]) ++ basesOf messages ++
      enums.flatMap EnumDescriptor.bases)

def basesOf : List MessageDescriptor → List (Kind × BaseDesc)
  | [] => []
  | msg :: messages => msg.bases ++ basesOf messages

end

def FileDescriptor.bases (f : FileDescriptor) : List (Kind × BaseDesc) :=
  basesOf f.messages ++ f.enums.flatMap EnumDescriptor.bases ++
    f.services.flatMap ServiceDescriptor.bases

section Bases

variable {src : FileSource}

/-- What is made of an element. -/
def FileSource.baseAt (src : FileSource) (el : Element) : Option (Kind × BaseDesc) :=
  (newBaseDesc src el.path el.qualifiedName).map fun base => (el.kind, base)

theorem flatMap_newEach_eq {α β γ δ : Type} (make : α → Int → Option β) (g : β → List γ)
    (els : α → Int → List δ) (f : δ → Option γ)
    (hmake : ∀ x i, (make x i).map g = (els x i).mapM f) (xs : List α) :
    (newEach make xs).map (fun ys => ys.flatMap g)
      = (xs.zipIdx.flatMap fun x => els x.1 x.2).mapM f := by
  unfold newEach
  generalize xs.zipIdx = zs
  induction zs with
  | nil => rfl
  | cons z zs ih =>
    rw [List.mapM_cons, List.flatMap_cons, List.mapM_append, ← hmake, ← ih]
    cases make z.1 z.2 with
    | none => rfl
    | some y => cases zs.mapM fun x => make x.1 x.2 <;> rfl

/-- The elements that have no elements in them: values, fields and methods. -/
theorem flatMap_newEach_leaf {α β : Type} (make : α → Int → Option β) (kind : Kind)
    (path : List Int) (name : α → List Bytes) (base : β → BaseDesc) (desc : α → BaseDesc → β)
    (hmake : ∀ x i, make x i =
      (newBaseDesc src (path ++ [2, i]) (name x)).bind fun b => some (desc x b))
    (hbase : ∀ x b, base (desc x b) = b) (xs : List α) :
    (newEach make xs).map (fun ys => ys.flatMap fun y => [(kind, base y)])
      = (eachAt path 2 (fun p x => [⟨kind, p, name x⟩]) xs).mapM src.baseAt := by
  refine flatMap_newEach_eq make (fun y => [(kind, base y)])
    (fun x i => [⟨kind, path ++ [2, i], name x⟩]) src.baseAt (fun x i => ?_) xs
  rw [hmake, List.mapM_cons, List.mapM_nil, FileSource.baseAt]
  cases newBaseDesc src (path ++ [2, i]) (name x) with
  | none => rfl
  | some b =>
    change some [(kind, base (desc x b))] = some [(kind, b)]
    rw [hbase]

theorem bases_newEnumDescriptor (parent : List Bytes) (path : List Int) (e : EnumDescriptorProto) :
    (newEnumDescriptor src parent path e).map EnumDescriptor.bases
      = (e.elements parent path).mapM src.baseAt := by
  have hvalues := flatMap_newEach_leaf (newEnumValue src path (parent ++ [e.name])) .enumValue path
    (fun v => parent ++ [e.name] ++ [v.name]) EnumValueDescriptor.toBaseDesc
    (fun v b => ⟨b, v.name, v.isDeprecated⟩) (fun _ _ => rfl) (fun _ _ => rfl) e.value
  rw [EnumDescriptorProto.elements, List.mapM_cons, ← hvalues, newEnumDescriptor, FileSource.baseAt]
  cases newBaseDesc src path (parent ++ [e.name]) with
  | none => rfl
  | some b => cases newEach (newEnumValue src path (parent ++ [e.name])) e.value <;> rfl

theorem bases_newServiceDescriptor (path : List Int) (s : ServiceDescriptorProto) :
    (newServiceDescriptor src path s).map ServiceDescriptor.bases
      = (s.elements path).mapM src.baseAt := by
  have hmethods := flatMap_newEach_leaf (newMethod src path [s.name]) .method path
    (fun m => [s.name] ++ [m.name]) MethodDescriptor.toBaseDesc
    (fun m b => ⟨b, m.name, m.inputType, m.outputType, m.isDeprecated⟩) (fun _ _ => rfl)
    (fun _ _ => rfl) s.method
  rw [ServiceDescriptorProto.elements, List.mapM_cons, ← hmethods, newServiceDescriptor,
    FileSource.baseAt]
  cases newBaseDesc src path [s.name] with
  | none => rfl
  | some b => cases newEach (newMethod src path [s.name]) s.method <;> rfl

mutual

theorem bases_newMessageDescriptor (desc : DescriptorProto) (parent : List Bytes)
    (path : List Int) :
    (newMessageDescriptor src parent path desc).map MessageDescriptor.bases
      = (desc.elements parent path).mapM src.baseAt := by
  obtain ⟨name, mapEntry, field, nestedType, enumType⟩ := desc
  have hfields := flatMap_newEach_leaf (newField src path (parent ++ [name])) .field path
    (fun f => parent ++ [name] ++ [f.name]) FieldDescriptor.toBaseDesc
    (fun f b => ⟨b, f.name, f.type, f.typeName, f.isRepeated, f.oneofIndex, f.isDeprecated⟩)
    (fun _ _ => rfl) (fun _ _ => rfl) field
  have hmessages := bases_newMessageDescriptors nestedType (parent ++ [name]) (path ++ [3]) 0
  have henums := flatMap_newEach_eq
    (fun e i => newEnumDescriptor src (parent ++ [name]) (path ++ [4, i]) e) EnumDescriptor.bases
    (fun e i => e.elements (parent ++ [name]) (path ++ [4, i])) src.baseAt
    (fun e i => bases_newEnumDescriptor (parent ++ [name]) (path ++ [4, i]) e) enumType
  -- Both sides stop at the first element whose comment makes `getClass` panic.
  rw [DescriptorProto.elements, List.mapM_cons, List.mapM_append, List.mapM_append, ← hfields,
    ← hmessages, eachAt, ← henums, newMessageDescriptor, FileSource.baseAt]
  cases newBaseDesc src path (parent ++ [name]) with
  | none => rfl
  | some b =>
    cases newEach (newField src path (parent ++ [name])) field with
    | none => rfl
    | some fields =>
      cases newMessageDescriptors src (parent ++ [name]) (path ++ [3]) 0 nestedType with
      | none => rfl
      | some messages =>
        cases newEach (fun e i => newEnumDescriptor src (parent ++ [name]) (path ++ [4, i]) e)
          enumType <;> rfl

theorem bases_newMessageDescriptors (descs : List DescriptorProto) (parent : List Bytes)
    (path : List Int) (i : Int) :
    (newMessageDescriptors src parent path i descs).map basesOf
      = (elementsOf parent path i descs).mapM src.baseAt := by
  match descs with
  | [] => rw [newMessageDescriptors, elementsOf]; rfl
  | desc :: rest =>
    rw [newMessageDescriptors, elementsOf, List.mapM_append,
      ← bases_newMessageDescriptor desc parent (path ++ [i]),
      ← bases_newMessageDescriptors rest parent path (i + 1)]
    cases newMessageDescriptor src parent (path ++ [i]) desc with
    | none => rfl
    | some message => cases newMessageDescriptors src parent path (i + 1) rest <;> rfl

end

end Bases

theorem bases_newFileDescriptor (parent : Package) (desc : FileDescriptorProto) :
    (newFileDescriptor parent desc).map FileDescriptor.bases = desc.elements.mapM
      (FileSource.mk ⟨desc.name, desc.package, parent⟩ desc.location).baseAt := by
  unfold newFileDescriptor
  generalize FileSource.mk ⟨desc.name, desc.package, parent⟩ desc.location = src
  have hmessages : (newMessageDescriptors src [] [4] 0 desc.messageType).map basesOf = _ :=
    bases_newMessageDescriptors desc.messageType [] [4] 0
  have henums := flatMap_newEach_eq (fun e i => newEnumDescriptor src [] [5, i] e)
    EnumDescriptor.bases (fun e i => e.elements [] [5, i]) src.baseAt
    (fun e i => bases_newEnumDescriptor [] [5, i] e) desc.enumType
  have hservices := flatMap_newEach_eq (fun s i => newServiceDescriptor src [6, i] s)
    ServiceDescriptor.bases (fun s i => s.elements [6, i]) src.baseAt
    (fun s i => bases_newServiceDescriptor [6, i] s) desc.service
  have helements : desc.elements.mapM src.baseAt = (do
      let ms ← (newMessageDescriptors src [] [4] 0 desc.messageType).map basesOf
      let es ← (newEach (fun e i => newEnumDescriptor src [] [5, i] e) desc.enumType).map
        fun es => es.flatMap EnumDescriptor.bases
      let ss ← (newEach (fun s i => newServiceDescriptor src [6, i] s) desc.service).map
        fun ss => ss.flatMap ServiceDescriptor.bases
      pure (ms ++ es ++ ss)) := by
    rw [hmessages, henums, hservices, FileDescriptorProto.elements, List.mapM_append,
      List.mapM_append, eachAt, eachAt]
    simp only [List.nil_append, bind_assoc, pure_bind]
  rw [helements]
  dsimp only
  cases newMessageDescriptors src [] [4] 0 desc.messageType with
  | none => rfl
  | some messages =>
    cases newEach (fun e i => newEnumDescriptor src [] [5, i] e) desc.enumType with
    | none => rfl
    | some enums =>
      cases newEach (fun s i => newServiceDescriptor src [6, i] s) desc.service <;> rfl

/-! ### Different paths -/

/-- The elements below a path, each one at a path of its own. -/
structure Laid (path : List Int) (els : List Element) : Prop where
  within : ∀ el ∈ els, path <+: el.path
  nodup : (els.map Element.path).Nodup

theorem Laid.nil (path : List Int) : Laid path [] := ⟨by simp, List.nodup_nil⟩

theorem Laid.singleton (kind : Kind) (path : List Int) (q : List Bytes) :
    Laid path [⟨kind, path, q⟩] :=
  ⟨by simp, by simp⟩

theorem eq_of_append_singleton_isPrefixOf {p : List Int} {a b : Int} (ha : path ++ [a] <+: p)
    (hb : path ++ [b] <+: p) : a = b := by
  obtain ⟨ra, rfl⟩ := ha
  obtain ⟨rb, hrb⟩ := hb
  rw [List.append_assoc, List.append_assoc, List.append_cancel_left_eq] at hrb
  exact (List.cons.inj hrb).1.symm

/-- The branches at different numbers have different paths. -/
theorem Laid.branches (branches : List (Int × List Element))
    (hbranches : ∀ b ∈ branches, Laid (path ++ [b.1]) b.2)
    (hnodup : (branches.map Prod.fst).Nodup) : Laid path (branches.flatMap Prod.snd) := by
  induction branches with
  | nil => exact .nil path
  | cons b branches ih =>
    rw [List.map_cons, List.nodup_cons] at hnodup
    rw [List.forall_mem_cons] at hbranches
    have hrest := ih hbranches.2 hnodup.2
    rw [List.flatMap_cons]
    constructor
    · intro el hel
      rcases List.mem_append.mp hel with hel | hel
      · exact (List.prefix_append _ _).trans (hbranches.1.within el hel)
      · exact hrest.within el hel
    · rw [List.map_append, List.nodup_append]
      refine ⟨hbranches.1.nodup, hrest.nodup, ?_⟩
      intro p hp p' hp' hsame
      obtain ⟨el, hel, rfl⟩ := List.mem_map.mp hp
      obtain ⟨el', hel', rfl⟩ := List.mem_map.mp hp'
      obtain ⟨b', hb', hel'⟩ := List.mem_flatMap.mp hel'
      -- Elements of two branches with one path would be below both numbers.
      have hat := hbranches.1.within el hel
      have hat' := (hbranches.2 b' hb').within el' hel'
      rw [← hsame] at hat'
      rw [eq_of_append_singleton_isPrefixOf hat hat'] at hnodup
      exact hnodup.1 (List.mem_map_of_mem hb')

/-- An element, and branches below it. -/
theorem Laid.node (kind : Kind) (q : List Bytes) (branches : List (Int × List Element))
    (hbranches : ∀ b ∈ branches, Laid (path ++ [b.1]) b.2)
    (hnodup : (branches.map Prod.fst).Nodup) :
    Laid path (⟨kind, path, q⟩ :: branches.flatMap Prod.snd) := by
  have hbelow := Laid.branches branches hbranches hnodup
  constructor
  · rw [List.forall_mem_cons]
    exact ⟨List.prefix_rfl, hbelow.within⟩
  · rw [List.map_cons, List.nodup_cons]
    refine ⟨fun hmem => ?_, hbelow.nodup⟩
    obtain ⟨el, hel, hpath⟩ := List.mem_map.mp hmem
    obtain ⟨b, hb, hel⟩ := List.mem_flatMap.mp hel
    -- What is below the element has a longer path.
    have hlength := ((hbranches b hb).within el hel).length_le
    rw [hpath, List.length_append, List.length_singleton] at hlength
    exact absurd hlength (Nat.not_succ_le_self path.length)

theorem Laid.eachAt {α : Type} {make : List Int → α → List Element}
    (hmake : ∀ p x, Laid p (make p x)) (path : List Int) (number : Int) (xs : List α) :
    Laid (path ++ [number]) (eachAt path number make xs) := by
  have hbranches : Laid (path ++ [number]) ((xs.zipIdx.map fun x =>
      ((x.2 : Int), make (path ++ [number, (x.2 : Int)]) x.1)).flatMap Prod.snd) := by
    refine .branches _ (fun b hb => ?_) ?_
    · obtain ⟨x, -, rfl⟩ := List.mem_map.mp hb
      rw [List.append_assoc]
      exact hmake _ _
    · have hindices : (xs.zipIdx.map fun x =>
          ((x.2 : Int), make (path ++ [number, (x.2 : Int)]) x.1)).map Prod.fst
          = (xs.zipIdx.map Prod.snd).map Int.ofNat := by
        rw [List.map_map, List.map_map]
        rfl
      rw [hindices, List.zipIdx_map_snd]
      exact (List.nodup_range').map fun _ _ => Int.ofNat.inj
  rw [List.flatMap_map] at hbranches
  exact hbranches

/-- An element with one repeated field. -/
theorem Laid.root {number : Int} {els : List Element} (kind : Kind) (q : List Bytes)
    (h : Laid (path ++ [number]) els) : Laid path (⟨kind, path, q⟩ :: els) := by
  have hnode := Laid.node kind q [(number, els)] (by simpa using h) (List.nodup_singleton _)
  rwa [List.flatMap_singleton] at hnode

theorem laid_enum (parent : List Bytes) (path : List Int) (e : EnumDescriptorProto) :
    Laid path (e.elements parent path) :=
  .root .enum _ (.eachAt (fun p _ => .singleton .enumValue p _) path 2 e.value)

theorem laid_service (path : List Int) (s : ServiceDescriptorProto) : Laid path (s.elements path) :=
  .root .service _ (.eachAt (fun p _ => .singleton .method p _) path 2 s.method)

mutual

theorem laid_message (desc : DescriptorProto) (parent : List Bytes) (path : List Int) :
    Laid path (desc.elements parent path) := by
  obtain ⟨name, mapEntry, field, nestedType, enumType⟩ := desc
  have hfields := Laid.eachAt (fun p (f : FieldDescriptorProto) =>
    Laid.singleton .field p (parent ++ [name] ++ [f.name])) path 2 field
  have hmessages := (laid_messages nestedType (parent ++ [name]) (path ++ [3]) 0).1
  have henums := Laid.eachAt (fun p e => laid_enum (parent ++ [name]) p e) path 4 enumType
  have hnode := Laid.node .message (parent ++ [name]) [(2, _), (3, _), (4, _)]
    (List.forall_mem_cons.mpr ⟨hfields, List.forall_mem_cons.mpr ⟨hmessages,
      List.forall_mem_singleton.mpr henums⟩⟩) (show [(2 : Int), 3, 4].Nodup by decide)
  rw [List.flatMap_cons, List.flatMap_cons, List.flatMap_singleton, ← List.append_assoc] at hnode
  exact hnode

/-- The messages of a list are at different indices. -/
theorem laid_messages (descs : List DescriptorProto) (parent : List Bytes) (path : List Int)
    (i : Int) : Laid path (elementsOf parent path i descs) ∧
      ∀ el ∈ elementsOf parent path i descs, ∃ j, i ≤ j ∧ path ++ [j] <+: el.path := by
  match descs with
  | [] =>
    rw [elementsOf]
    exact ⟨.nil path, by simp⟩
  | desc :: rest =>
    obtain ⟨hrest, hlater⟩ := laid_messages rest parent path (i + 1)
    have hfirst := laid_message desc parent (path ++ [i])
    have hat : ∀ el ∈ elementsOf parent path i (desc :: rest),
        ∃ j, i ≤ j ∧ path ++ [j] <+: el.path := by
      intro el hel
      rcases List.mem_append.mp hel with hel | hel
      · exact ⟨i, le_rfl, hfirst.within el hel⟩
      · obtain ⟨j, hj, hpath⟩ := hlater el hel
        exact ⟨j, by omega, hpath⟩
    refine ⟨⟨fun el hel => ?_, ?_⟩, hat⟩
    · obtain ⟨j, -, hpath⟩ := hat el hel
      exact (List.prefix_append _ _).trans hpath
    · -- The first message is at the index `i`, and the others are at later ones.
      rw [elementsOf, List.map_append, List.nodup_append]
      refine ⟨hfirst.nodup, hrest.nodup, ?_⟩
      intro p hp p' hp' hsame
      obtain ⟨el, hel, rfl⟩ := List.mem_map.mp hp
      obtain ⟨el', hel', rfl⟩ := List.mem_map.mp hp'
      obtain ⟨j, hj, hpath⟩ := hlater el' hel'
      rw [← hsame] at hpath
      have := eq_of_append_singleton_isPrefixOf (hfirst.within el hel) hpath
      omega

end

theorem laid_file (desc : FileDescriptorProto) : Laid [] desc.elements := by
  have hmessages := (laid_messages desc.messageType [] [4] 0).1
  have henums := Laid.eachAt (fun p e => laid_enum [] p e) [] 5 desc.enumType
  have hservices := Laid.eachAt (fun p s => laid_service p s) [] 6 desc.service
  have hbranches := Laid.branches [(4, _), (5, _), (6, _)] (List.forall_mem_cons.mpr ⟨hmessages,
    List.forall_mem_cons.mpr ⟨henums, List.forall_mem_singleton.mpr hservices⟩⟩)
    (show [(4 : Int), 5, 6].Nodup by decide)
  rw [List.flatMap_cons, List.flatMap_cons, List.flatMap_singleton, ← List.append_assoc]
    at hbranches
  exact hbranches

theorem path_ne_nil {desc : FileDescriptorProto} {el : Element} (hel : el ∈ desc.elements) :
    el.path ≠ [] := by
  have hbelow : ∃ number, [number] <+: el.path := by
    rw [FileDescriptorProto.elements, List.mem_append, List.mem_append] at hel
    rcases hel with (hel | hel) | hel
    · exact ⟨4, (laid_messages desc.messageType [] [4] 0).1.within el hel⟩
    · exact ⟨5, (Laid.eachAt (fun p e => laid_enum [] p e) [] 5 desc.enumType).within el hel⟩
    · exact ⟨6, (Laid.eachAt (fun p s => laid_service p s) [] 6 desc.service).within el hel⟩
  obtain ⟨number, rest, hpath⟩ := hbelow
  rw [← hpath]
  exact List.cons_ne_nil _ _

/-! ### The comments of a file -/

/-- The comments of a file are attached to the elements that they were written for. -/
structure Attached (parent : Package) (desc : FileDescriptorProto) : Prop where
  /-- The location that is found for an element is the last one with its path. -/
  found : ∀ el ∈ desc.elements,
    (IndexedFile.mk ⟨desc.name, desc.package, parent⟩ (newLocations desc.location)).find
      (pathVector el.path) = lastAt desc.location el.path
  /-- The descriptors are made with these locations, one for each element. -/
  made : (IndexedFile.newFileDescriptor parent desc).map FileDescriptor.bases =
    desc.elements.mapM fun el => (baseDescOf ⟨desc.name, desc.package, parent⟩
      (lastAt desc.location el.path) el.qualifiedName).map fun base => (el.kind, base)
  /-- Two elements never share a location. -/
  apart : desc.elements.Pairwise fun el el' => ∀ loc, lastAt desc.location el.path = some loc →
    lastAt desc.location el'.path ≠ some loc

theorem path_of_lastAt {location : List SourceLocation} {loc : SourceLocation}
    (h : lastAt location path = some loc) : loc.path = path := by
  have hmem := List.mem_of_getLast? h
  exact of_decide_eq_true (List.mem_filter.mp hmem).2

/-- Different paths are different strings, and the comments of every file are attached to the
elements that they were written for. -/
theorem comments_attached :
    (Function.Injective fun p : Int × List Int => pathVector (p.1 :: p.2)) ∧
      ∀ (parent : Package) (desc : FileDescriptorProto), Attached parent desc := by
  refine ⟨pathVector_injective, fun parent desc => ⟨fun el hel => ?_, ?_, ?_⟩⟩
  · rw [← find_eq_lastAt]
    exact lookup_newLocations desc.location (path_ne_nil hel)
  · rw [newFileDescriptor_pathVector, bases_newFileDescriptor]
    simp only [← find_eq_lastAt]
    rfl
  · have hpaths := List.pairwise_map.mp (laid_file desc).nodup
    refine hpaths.imp fun hne loc hloc hloc' => hne ?_
    rw [← path_of_lastAt hloc, ← path_of_lastAt hloc']

end IstioVendor.ProtocGenDocs
