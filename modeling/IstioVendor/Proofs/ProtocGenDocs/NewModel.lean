import IstioVendor.Lib.Simulation
import IstioVendor.Lib.Writes
import IstioVendor.ProtocGenDocs.NewModel

/-!
# `IstioVendor.Proofs.ProtocGenDocs.NewModel`: the model of a request does not depend on an order

`newModel` visits the packages in some order. The descriptors of a file do not depend on it, so that
two orders give the same packages in another order (`newPackages_rel`). All files together then
write the same entries into `allDescByName`, in another order.

A later entry replaces an earlier one with the same full name. When no two descriptors of the
request have the same full name, there is nothing to replace, and the map has the same entries for
both orders (`newModel_rel`). `fullNames` are the full names of a file of the request, and
`fullNames_newFileDescriptor` says that these are the names under which its descriptors are recorded.
-/

set_option autoImplicit false

namespace IstioVendor.ProtocGenDocs

open Lib

/-! ### Full names -/

variable {desc : FileDescriptorProto} {f : FileDescriptor} {place : Int → List Int} {q : List Bytes}
  {e e' : Bytes × CoreDesc}

section
variable {src : FileSource} {parent : List Bytes} {path : List Int}

/-- The qualified names of an enum and its values. -/
def EnumDescriptorProto.names (parent : List Bytes) (e : EnumDescriptorProto) : List (List Bytes) :=
  (parent ++ [e.name]) :: e.value.map fun v => parent ++ [e.name] ++ [v.name]

def ServiceDescriptorProto.names (s : ServiceDescriptorProto) : List (List Bytes) :=
  [s.name] :: s.method.map fun m => [s.name] ++ [m.name]

mutual

/-- The qualified names of a message, of what is nested in it, and of its fields. -/
def DescriptorProto.names (parent : List Bytes) : DescriptorProto → List (List Bytes)
  | ⟨name, _, field, nestedType, enumType⟩ =>
    (parent ++ [name]) :: namesOf (parent ++ [name]) nestedType ++
      enumType.flatMap (EnumDescriptorProto.names (parent ++ [name])) ++
        field.map fun f => parent ++ [name] ++ [f.name]

def namesOf (parent : List Bytes) : List DescriptorProto → List (List Bytes)
  | [] => []
  | desc :: rest => desc.names parent ++ namesOf parent rest

end

/-- A name behind the name of its package. -/
def fullName (dottedPkg : Bytes) (qualifiedName : List Bytes) : Bytes :=
  dottedPkg ++ (ascii ".").intercalate qualifiedName

/-- The full names of the descriptors of a file. -/
def FileDescriptorProto.fullNames (f : FileDescriptorProto) : List Bytes :=
  let dottedPkg := if f.package = [] then ascii "." else ascii "." ++ f.package ++ ascii "."
  (f.enumType.flatMap (EnumDescriptorProto.names []) ++ namesOf [] f.messageType ++
    f.service.flatMap ServiceDescriptorProto.names).map (fullName dottedPkg)

theorem newBaseDesc_qualifiedName {b : BaseDesc} (h : newBaseDesc src path q = some b) :
    b.qualifiedName = q := by
  unfold newBaseDesc baseDescOf at h
  split at h
  · cases h
    rfl
  · split_ifs at h
    · obtain ⟨_, _, ⟨⟩⟩ := Option.bind_eq_some_iff.mp h
      rfl
    · obtain ⟨_, _, ⟨⟩⟩ := Option.bind_eq_some_iff.mp h
      rfl
    · cases h
      rfl

/-- The name under which a descriptor is recorded. -/
theorem fullName_of_newBaseDesc {b : BaseDesc} (h : newBaseDesc src path q = some b)
    (dottedPkg : Bytes) : dottedPkg ++ dottedName b = fullName dottedPkg q := by
  rw [dottedName, newBaseDesc_qualifiedName h, fullName]

theorem forall₂_newEach {α β : Type} {make : α → Int → Option β} {xs : List α} {ys : List β}
    (h : newEach make xs = some ys) : List.Forall₂ (fun x y => ∃ i, make x i = some y) xs ys := by
  have hzip := mapM_eq_some_iff.mp h
  rw [← List.zipIdx_map_fst 0 xs, List.forall₂_map_left_iff]
  exact hzip.imp fun x y hxy => ⟨x.2, hxy⟩

/-- The names of a list of descriptors, from the names of each of them. -/
theorem flatMap_newEach {α β γ : Type} {make : α → Int → Option β} {F : α → List γ}
    {G : β → List γ} {xs : List α} {ys : List β} (h : newEach make xs = some ys)
    (hmake : ∀ x i y, make x i = some y → G y = F x) : ys.flatMap G = xs.flatMap F := by
  have hmap := forall₂_map_eq ((forall₂_newEach h).imp fun x y ⟨i, hxy⟩ => hmake x i y hxy)
  rw [List.flatMap_def, List.flatMap_def, hmap]

theorem map_newEach {α β γ : Type} {make : α → Int → Option β} {f : α → γ}
    {g : β → γ} {xs : List α} {ys : List β} (h : newEach make xs = some ys)
    (hmake : ∀ x i y, make x i = some y → g y = f x) : ys.map g = xs.map f :=
  forall₂_map_eq ((forall₂_newEach h).imp fun x y ⟨i, hxy⟩ => hmake x i y hxy)

/-- What `newMessageDescriptor` makes the parts of a message from. -/
structure MadeMessage (src : FileSource) (parent : List Bytes) (path : List Int)
    (desc : DescriptorProto) (m : MessageDescriptor) : Prop where
  base : newBaseDesc src path (parent ++ [desc.name]) = some m.toBaseDesc
  fields : newEach (newField src path (parent ++ [desc.name])) desc.field = some m.fields
  messages : newMessageDescriptors src (parent ++ [desc.name]) (path ++ [3]) 0 desc.nestedType
    = some m.messages
  enums : newEach (fun e i => newEnumDescriptor src (parent ++ [desc.name]) (path ++ [4, i]) e)
    desc.enumType = some m.enums

theorem madeMessage {desc : DescriptorProto} {m : MessageDescriptor}
    (h : newMessageDescriptor src parent path desc = some m) :
    MadeMessage src parent path desc m := by
  obtain ⟨name, mapEntry, field, nestedType, enumType⟩ := desc
  obtain ⟨base, hbase, h⟩ := Option.bind_eq_some_iff.mp h
  obtain ⟨fields, hfields, h⟩ := Option.bind_eq_some_iff.mp h
  obtain ⟨messages, hmessages, h⟩ := Option.bind_eq_some_iff.mp h
  obtain ⟨enums, henums, ⟨⟩⟩ := Option.bind_eq_some_iff.mp h
  exact ⟨hbase, hfields, hmessages, henums⟩

/-- What `newFileDescriptor` makes the parts of a file from. -/
structure MadeFile (p : Package) (desc : FileDescriptorProto) (f : FileDescriptor) : Prop where
  file : f.toFile = ⟨desc.name, desc.package, p⟩
  messages : newMessageDescriptors ⟨f.toFile, desc.location⟩ [] [4] 0 desc.messageType
    = some f.messages
  enums : newEach (fun e i => newEnumDescriptor ⟨f.toFile, desc.location⟩ [] [5, i] e)
    desc.enumType = some f.enums
  services : newEach (fun s i => newServiceDescriptor ⟨f.toFile, desc.location⟩ [6, i] s)
    desc.service = some f.services

theorem madeFile {p : Package} (h : newFileDescriptor p desc = some f) : MadeFile p desc f := by
  obtain ⟨messages, hmessages, h⟩ := Option.bind_eq_some_iff.mp h
  obtain ⟨enums, henums, h⟩ := Option.bind_eq_some_iff.mp h
  obtain ⟨services, hservices, ⟨⟩⟩ := Option.bind_eq_some_iff.mp h
  exact ⟨rfl, hmessages, henums, hservices⟩

variable {dottedPkg : Bytes}

theorem map_fst_recordEnums {es : List EnumDescriptorProto} {enums : List EnumDescriptor}
    (h : newEach (fun e i => newEnumDescriptor src parent (place i) e) es = some enums) :
    (recordEnums dottedPkg enums).map Prod.fst
      = (es.flatMap (EnumDescriptorProto.names parent)).map (fullName dottedPkg) := by
  rw [recordEnums, List.map_flatMap, List.map_flatMap]
  refine flatMap_newEach h fun e i enum he => ?_
  obtain ⟨base, hbase, he⟩ := Option.bind_eq_some_iff.mp he
  obtain ⟨values, hvalues, ⟨⟩⟩ := Option.bind_eq_some_iff.mp he
  rw [EnumDescriptorProto.names, List.map_cons, List.map_cons, List.map_map, List.map_map]
  congr 1
  · exact fullName_of_newBaseDesc hbase dottedPkg
  · refine map_newEach hvalues fun v i value hv => ?_
    obtain ⟨base, hbase, ⟨⟩⟩ := Option.bind_eq_some_iff.mp hv
    exact fullName_of_newBaseDesc hbase dottedPkg

theorem map_fst_recordFields {fs : List FieldDescriptorProto} {fields : List FieldDescriptor}
    (h : newEach (newField src path q) fs = some fields) :
    (recordFields dottedPkg fields).map Prod.fst
      = (fs.map fun f => q ++ [f.name]).map (fullName dottedPkg) := by
  rw [recordFields, List.map_map, List.map_map]
  refine map_newEach h fun f i field hf => ?_
  obtain ⟨base, hbase, ⟨⟩⟩ := Option.bind_eq_some_iff.mp hf
  exact fullName_of_newBaseDesc hbase dottedPkg

mutual

theorem map_fst_recordMessage (desc : DescriptorProto) {parent : List Bytes} {path : List Int}
    {m : MessageDescriptor} (h : newMessageDescriptor src parent path desc = some m) :
    (recordMessage dottedPkg m).map Prod.fst = (desc.names parent).map (fullName dottedPkg) := by
  obtain ⟨hbase, hfields, hmessages, henums⟩ := madeMessage h
  obtain ⟨name, mapEntry, field, nestedType, enumType⟩ := desc
  obtain ⟨base, mapEntry, fields, messages, enums⟩ := m
  rw [recordMessage, DescriptorProto.names, List.map_append, List.map_append, List.map_cons,
    map_fst_recordMessages nestedType hmessages, map_fst_recordEnums henums,
    map_fst_recordFields hfields, fullName_of_newBaseDesc hbase, List.map_append, List.map_append,
    List.map_cons]

theorem map_fst_recordMessages (descs : List DescriptorProto) {parent : List Bytes}
    {path : List Int} {i : Int} {ms : List MessageDescriptor}
    (h : newMessageDescriptors src parent path i descs = some ms) :
    (recordMessages dottedPkg ms).map Prod.fst
      = (namesOf parent descs).map (fullName dottedPkg) := by
  match descs with
  | [] =>
    cases h
    rfl
  | desc :: rest =>
    obtain ⟨message, hmessage, h⟩ := Option.bind_eq_some_iff.mp h
    obtain ⟨messages, hmessages, ⟨⟩⟩ := Option.bind_eq_some_iff.mp h
    rw [recordMessages, namesOf, List.map_append, map_fst_recordMessage desc hmessage,
      map_fst_recordMessages rest hmessages, List.map_append]

end

theorem map_fst_recordServices {ss : List ServiceDescriptorProto}
    {services : List ServiceDescriptor}
    (h : newEach (fun s i => newServiceDescriptor src (place i) s) ss = some services) :
    (recordServices dottedPkg services).map Prod.fst
      = (ss.flatMap ServiceDescriptorProto.names).map (fullName dottedPkg) := by
  rw [recordServices, List.map_flatMap, List.map_flatMap]
  refine flatMap_newEach h fun s i service hs => ?_
  obtain ⟨base, hbase, hs⟩ := Option.bind_eq_some_iff.mp hs
  obtain ⟨methods, hmethods, ⟨⟩⟩ := Option.bind_eq_some_iff.mp hs
  rw [ServiceDescriptorProto.names, List.map_cons, List.map_cons, List.map_map, List.map_map]
  congr 1
  · exact fullName_of_newBaseDesc hbase dottedPkg
  · refine map_newEach hmethods fun m i method hm => ?_
    obtain ⟨base, hbase, ⟨⟩⟩ := Option.bind_eq_some_iff.mp hm
    exact fullName_of_newBaseDesc hbase dottedPkg

end

theorem mem_records_of_mem_entries (h : e ∈ f.entries) : e ∈ f.records := by
  unfold FileDescriptor.entries at h
  rw [List.append_assoc, List.append_assoc, List.mem_append] at h
  rcases h with h | h
  · -- The services are also recorded with their methods.
    obtain ⟨s, hs, rfl⟩ := List.mem_map.mp h
    refine List.mem_append_right _ (List.mem_flatMap.mpr ⟨s, hs, List.mem_cons_self⟩)
  · rw [FileDescriptor.records, List.append_assoc]
    exact h

/-- The descriptors of a file are recorded under the full names that the request has for it. -/
theorem fullNames_newFileDescriptor {p : Package} (h : newFileDescriptor p desc = some f) :
    f.fullNames = desc.fullNames := by
  obtain ⟨hfile, hmessages, henums, hservices⟩ := madeFile h
  rw [FileDescriptor.fullNames, FileDescriptor.records, List.map_append, List.map_append,
    map_fst_recordEnums henums, map_fst_recordMessages _ hmessages,
    map_fst_recordServices hservices, FileDescriptorProto.fullNames, List.map_append,
    List.map_append, hfile]
  rfl

/-! ### Packages -/

theorem getD_lookup_foldl (files : List FileDescriptorProto)
    (m : GoMap (List FileDescriptorProto)) (k : Bytes) :
    ((files.foldl (fun m pf =>
          m.insert (packageName pf) ((m.lookup (packageName pf)).getD [] ++ [pf])) m).lookup
        k).getD []
      = (m.lookup k).getD [] ++ files.filter fun f => packageName f = k := by
  induction files generalizing m with
  | nil => simp
  | cons f files ih =>
    rw [List.foldl_cons, ih, lookup_insert_eq, List.filter_cons]
    by_cases hk : packageName f = k
    · subst hk
      simp
    · simp [hk]

/-- The files of a package, in the order of the request. -/
theorem getD_lookup_filesByPackage (files : List FileDescriptorProto) (k : Bytes) :
    ((filesByPackage files).lookup k).getD [] = files.filter fun f => packageName f = k :=
  getD_lookup_foldl files ∅ k

/-- The descriptor of a package of the request. -/
def newPackage (request : CodeGeneratorRequest) (pkg : Bytes) : Option PackageDescriptor :=
  newPackageDescriptor pkg (request.protoFile.filter fun f => packageName f = pkg)

/-- The packages in the order of a run. -/
def newPackages (order : RangeOrder) (request : CodeGeneratorRequest) :
    Option (List PackageDescriptor) :=
  (order.visit (filesByPackage request.protoFile).keys).mapM (newPackage request)

theorem newModel_eq (order : RangeOrder) (request : CodeGeneratorRequest) :
    newModel order request = (newPackages order request).bind fun packages =>
      if (Model.ofPackages packages).methodsResolve then some (Model.ofPackages packages)
      else none := by
  unfold newModel newPackages newPackage
  simp only [getD_lookup_filesByPackage]
  rfl

section
variable {request : CodeGeneratorRequest} {order order₁ order₂ : RangeOrder}
  {packages packages₁ packages₂ : List PackageDescriptor}

/-- Two orders give the same packages. -/
theorem newPackages_rel (order₁ order₂ : RangeOrder) (request : CodeGeneratorRequest) :
    Option.Rel List.Perm (newPackages order₁ request) (newPackages order₂ request) :=
  mapM_perm ((order₁.perm _).trans (order₂.perm _).symm) (newPackage request)

/-- A file of the packages comes from a file of the request, which determines it. -/
theorem exists_proto (h : newPackages order request = some packages)
    (hf : f ∈ packages.flatMap PackageDescriptor.files) :
    ∃ desc ∈ request.protoFile, ∃ p, newPackage request (packageName desc) = some p ∧
      newFileDescriptor p.toPackage desc = some f := by
  obtain ⟨p, hp, hf⟩ := List.mem_flatMap.mp hf
  obtain ⟨pkg, -, hpkg⟩ := (mem_mapM h).mp hp
  have hmade := hpkg
  obtain ⟨files, hfiles, ⟨⟩⟩ := Option.bind_eq_some_iff.mp hpkg
  obtain ⟨desc, hdesc, hnew⟩ := (mem_mapM hfiles).mp hf
  obtain ⟨hmem, hname⟩ := List.mem_filter.mp hdesc
  obtain rfl := of_decide_eq_true hname
  exact ⟨desc, hmem, _, hmade, hnew⟩

/-- A file of the request is in the packages. -/
theorem exists_fileDescriptor (h : newPackages order request = some packages)
    (hdesc : desc ∈ request.protoFile) :
    ∃ f ∈ packages.flatMap PackageDescriptor.files, ∃ p, newFileDescriptor p desc = some f := by
  have hfiles : desc ∈ request.protoFile.filter fun f => packageName f = packageName desc :=
    List.mem_filter.mpr ⟨hdesc, decide_eq_true rfl⟩
  have hkey : packageName desc ∈ order.visit (filesByPackage request.protoFile).keys := by
    rw [(order.perm _).mem_iff, ← AList.mem_keys, ← AList.lookup_isSome]
    cases hlookup : (filesByPackage request.protoFile).lookup (packageName desc) with
    | some files => rfl
    | none =>
      rw [← getD_lookup_filesByPackage, hlookup] at hfiles
      exact absurd hfiles List.not_mem_nil
  obtain ⟨p, hmade⟩ := exists_of_mem_mapM h hkey
  have hp := (mem_mapM h).mpr ⟨_, hkey, hmade⟩
  obtain ⟨files, hmapM, ⟨⟩⟩ := Option.bind_eq_some_iff.mp hmade
  obtain ⟨f, hnew⟩ := exists_of_mem_mapM hmapM hfiles
  have hf := (mem_mapM hmapM).mpr ⟨desc, hfiles, hnew⟩
  exact ⟨f, List.mem_flatMap.mpr ⟨_, hp, hf⟩, _, hnew⟩

/-- When the descriptors of some kinds are recorded under unique names, there is one of them for
each name. -/
theorem entries_unique_of (kinds : CoreDesc → Bool) (names : FileDescriptorProto → List Bytes)
    (hrecords : ∀ p desc f, newFileDescriptor p desc = some f →
      ((f.records.filter fun e => kinds e.2).map Prod.fst).Perm (names desc))
    (hnames : (request.protoFile.flatMap names).Nodup)
    (h : newPackages order request = some packages)
    (he : e ∈ (packages.flatMap PackageDescriptor.files).flatMap FileDescriptor.entries)
    (he' : e' ∈ (packages.flatMap PackageDescriptor.files).flatMap FileDescriptor.entries)
    (hkind : kinds e.2 = true) (hkind' : kinds e'.2 = true) (hname : e.1 = e'.1) : e = e' := by
  obtain ⟨f, hf, he⟩ := List.mem_flatMap.mp he
  obtain ⟨f', hf', he'⟩ := List.mem_flatMap.mp he'
  obtain ⟨desc, hdesc, p, hp, hnew⟩ := exists_proto h hf
  obtain ⟨desc', hdesc', p', hp', hnew'⟩ := exists_proto h hf'
  have hin : e ∈ f.records.filter fun e => kinds e.2 :=
    List.mem_filter.mpr ⟨mem_records_of_mem_entries he, hkind⟩
  have hin' : e' ∈ f'.records.filter fun e => kinds e.2 :=
    List.mem_filter.mpr ⟨mem_records_of_mem_entries he', hkind'⟩
  have hrecord := (hrecords p.toPackage desc f hnew).mem_iff.mp (List.mem_map_of_mem hin)
  have hrecord' := (hrecords p'.toPackage desc' f' hnew').mem_iff.mp (List.mem_map_of_mem hin')
  rw [← hname] at hrecord'
  -- The name is in one file only, and there it is the name of one descriptor.
  obtain rfl := eq_of_nodup_flatMap hnames hdesc hdesc' hrecord hrecord'
  obtain rfl : p = p' := Option.some.inj (hp.symm.trans hp')
  obtain rfl : f = f' := Option.some.inj (hnew.symm.trans hnew')
  have hnodup : ((f.records.filter fun e => kinds e.2).map Prod.fst).Nodup :=
    (hrecords p.toPackage desc f hnew).nodup_iff.mpr ((List.nodup_flatMap.mp hnames).1 desc hdesc)
  exact List.inj_on_of_nodup_map hnodup hin hin' hname

/-- With unique full names, there is one descriptor for each name. -/
theorem entries_unique (hnames : (request.protoFile.flatMap FileDescriptorProto.fullNames).Nodup)
    (h : newPackages order request = some packages)
    (he : e ∈ (packages.flatMap PackageDescriptor.files).flatMap FileDescriptor.entries)
    (he' : e' ∈ (packages.flatMap PackageDescriptor.files).flatMap FileDescriptor.entries)
    (hname : e.1 = e'.1) : e = e' := by
  refine entries_unique_of (fun _ => true) FileDescriptorProto.fullNames (fun p desc f hnew => ?_)
    hnames h he he' rfl rfl hname
  rw [List.filter_true, ← FileDescriptor.fullNames, fullNames_newFileDescriptor hnew]

end

/-! ### The model -/

/-- Two models have the same packages and the same descriptors. -/
structure Model.Same (m₁ m₂ : Model) : Prop where
  packages : m₁.packages.Perm m₂.packages
  lookup : ∀ k, m₁.allDescByName.lookup k = m₂.allDescByName.lookup k

theorem ofPackages_same {request : CodeGeneratorRequest} {order : RangeOrder}
    {packages₁ packages₂ : List PackageDescriptor}
    (hnames : (request.protoFile.flatMap FileDescriptorProto.fullNames).Nodup)
    (h : newPackages order request = some packages₁) (hperm : packages₁.Perm packages₂) :
    (Model.ofPackages packages₁).Same (Model.ofPackages packages₂) where
  packages := hperm
  lookup := by
    have hfiles := hperm.flatMap_right PackageDescriptor.files
    have hentries := hfiles.flatMap_right FileDescriptor.entries
    exact lookup_writes_congr (fun e => hentries.mem_iff)
      (fun e he e' he' => entries_unique hnames h he he')

/-- The methods of two models with the same packages and descriptors. -/
theorem Model.Same.methodsResolve {m₁ m₂ : Model} (h : m₁.Same m₂) :
    m₁.methodsResolve = m₂.methodsResolve := by
  have hresolve : resolveMethodTypes m₁.allDescByName = resolveMethodTypes m₂.allDescByName := by
    funext services
    simp only [resolveMethodTypes, h.lookup]
  unfold Model.methodsResolve
  rw [hresolve]
  exact h.packages.all_eq

/-- The models of two orders are the same, or there is none. -/
theorem newModel_rel (order₁ order₂ : RangeOrder) (request : CodeGeneratorRequest)
    (hnames : (request.protoFile.flatMap FileDescriptorProto.fullNames).Nodup) :
    Option.Rel Model.Same (newModel order₁ request) (newModel order₂ request) := by
  have hrel := newPackages_rel order₁ order₂ request
  rw [newModel_eq, newModel_eq]
  cases h₁ : newPackages order₁ request with
  | none =>
    rw [h₁] at hrel
    cases h₂ : newPackages order₂ request with
    | none => exact .none
    | some packages₂ => rw [h₂] at hrel; cases hrel
  | some packages₁ =>
    rw [h₁] at hrel
    cases h₂ : newPackages order₂ request with
    | none => rw [h₂] at hrel; cases hrel
    | some packages₂ =>
      rw [h₂] at hrel
      cases hrel with
      | some hperm =>
        have hsame := ofPackages_same hnames h₁ hperm
        rw [Option.bind_some, Option.bind_some, hsame.methodsResolve]
        split_ifs
        · exact .some hsame
        · exact .none

end IstioVendor.ProtocGenDocs
