import IstioVendor.Lib.Text
import IstioVendor.ProtocGenDocs.HtmlGenerator

/-!
# `IstioVendor.ProtocGenDocs.NewModel`: from the request of protoc to the model

`protoc` hands its plugins a `CodeGeneratorRequest`: the descriptors of all files, and the names of
the files to generate. `newModel` puts the files into packages and makes the descriptors of the
model from them. A descriptor has the comment at its place in the source file, which is found by its
path: the field numbers and indices that lead to it. Some words in the comments are directions.
`$class: ` gives a descriptor a class, `$hide_from_docs` hides it, and comments in front of the
package clause have the title and the place of the package.

The packages come out in the order in which the loop over `filesByPackage` visits its keys. It can
be any order, and is an argument, as are the orders of the loops of `generateFile`.

`none` is a panic or the end of the process: `getClass` without a blank behind the class, a method
whose types are no messages, a file to generate that is not there. `protoc` gives every file once,
so that a file is known by its name. Left out: the dependencies of the files, which are not used.
-/

set_option autoImplicit false

namespace IstioVendor.ProtocGenDocs

open Lib

/-! ### The request -/

/-- A `SourceCodeInfo_Location`. -/
structure SourceLocation where
  path : List Int
  leadingComments : Bytes
  trailingComments : Bytes
  leadingDetachedComments : List Bytes

structure FieldDescriptorProto where
  name : Bytes
  type : FieldType
  typeName : Bytes
  isRepeated : Bool
  oneofIndex : Option Int
  isDeprecated : Bool

structure EnumValueDescriptorProto where
  name : Bytes
  isDeprecated : Bool

structure EnumDescriptorProto where
  name : Bytes
  value : List EnumValueDescriptorProto

structure DescriptorProto where
  name : Bytes
  mapEntry : Bool
  field : List FieldDescriptorProto
  nestedType : List DescriptorProto
  enumType : List EnumDescriptorProto

structure MethodDescriptorProto where
  name : Bytes
  inputType : Bytes
  outputType : Bytes
  isDeprecated : Bool

structure ServiceDescriptorProto where
  name : Bytes
  method : List MethodDescriptorProto

structure FileDescriptorProto where
  name : Bytes
  package : Bytes
  messageType : List DescriptorProto
  enumType : List EnumDescriptorProto
  service : List ServiceDescriptorProto
  location : List SourceLocation

structure CodeGeneratorRequest where
  protoFile : List FileDescriptorProto
  fileToGenerate : List Bytes
  names_nodup : (protoFile.map FileDescriptorProto.name).Nodup

/-! ### Comments -/

/-- `strings.Index`. -/
def indexOf (part s : Bytes) : Option Nat := s.tails.findIdx? (part.isPrefixOf ·)

/-- `getClass`: the class and the comment without it. -/
def getClass (com : Bytes) : Option (Bytes × Bytes) :=
  match indexOf (ascii "$class: ") com with
  | none => some ([], [])
  | some start =>
    let rest := com.drop (start + 8)
    (rest.findIdx? fun b => b = 32 || b = 9 || b = 10).map fun n =>
      (rest.take n, com.take start ++ rest.drop n)

/-- A comment asks to leave its descriptor out. -/
def hides (com : Bytes) : Bool :=
  (indexOf (ascii "$hide_from_docs") com).isSome ||
    (indexOf (ascii "[#not-implemented-hide:]") com).isSome

/-- `find`. A location replaces an earlier one with the same path. -/
def find (locations : List SourceLocation) (path : List Int) : Option SourceLocation :=
  locations.reverse.find? fun loc => loc.path = path

/-! ### Descriptors -/

/-- A file while its descriptors are made. -/
structure FileSource where
  file : File
  location : List SourceLocation

/-- `newBaseDesc`, behind its call of `find`. -/
def baseDescOf (file : File) (loc : Option SourceLocation) (qualifiedName : List Bytes) :
    Option BaseDesc :=
  match loc with
  | none => some ⟨none, false, [], file, qualifiedName⟩
  | some loc =>
    if loc.leadingComments ≠ [] then do
      let (cl, newCom) ← getClass loc.leadingComments
      let leading := if cl ≠ [] then newCom else loc.leadingComments
      some ⟨some ⟨leading, loc.trailingComments⟩, hides loc.leadingComments, cl, file,
        qualifiedName⟩
    else if loc.trailingComments ≠ [] then do
      let (cl, newCom) ← getClass loc.trailingComments
      let trailing := if cl ≠ [] then newCom else loc.trailingComments
      some ⟨some ⟨loc.leadingComments, trailing⟩, hides loc.trailingComments, cl, file,
        qualifiedName⟩
    else some ⟨some ⟨[], []⟩, false, [], file, qualifiedName⟩

/-- `newBaseDesc`. -/
def newBaseDesc (src : FileSource) (path : List Int) (qualifiedName : List Bytes) :
    Option BaseDesc :=
  baseDescOf src.file (find src.location path) qualifiedName

/-- A descriptor for each element of a list, with its index. -/
def newEach {α β : Type} (make : α → Int → Option β) (xs : List α) : Option (List β) :=
  xs.zipIdx.mapM fun x => make x.1 x.2

/-- A value in `newEnumDescriptor`. -/
def newEnumValue (src : FileSource) (path : List Int) (qualifiedName : List Bytes)
    (ev : EnumValueDescriptorProto) (i : Int) : Option EnumValueDescriptor := do
  let base ← newBaseDesc src (path ++ [2, i]) (qualifiedName ++ [ev.name])
  some { toBaseDesc := base, name := ev.name, isDeprecated := ev.isDeprecated }

/-- `newEnumDescriptor`. The parent is known by its qualified name, which is empty at the top. -/
def newEnumDescriptor (src : FileSource) (parent : List Bytes) (path : List Int)
    (desc : EnumDescriptorProto) : Option EnumDescriptor := do
  let qualifiedName := parent ++ [desc.name]
  let base ← newBaseDesc src path qualifiedName
  let values ← newEach (newEnumValue src path qualifiedName) desc.value
  some { toBaseDesc := base, values := values }

/-- A field in `newMessageDescriptor`. -/
def newField (src : FileSource) (path : List Int) (qualifiedName : List Bytes)
    (f : FieldDescriptorProto) (i : Int) : Option FieldDescriptor := do
  let base ← newBaseDesc src (path ++ [2, i]) (qualifiedName ++ [f.name])
  some {
    toBaseDesc := base
    name := f.name
    type := f.type
    typeName := f.typeName
    isRepeated := f.isRepeated
    oneofIndex := f.oneofIndex
    isDeprecated := f.isDeprecated }

mutual

/-- `newMessageDescriptor`. -/
def newMessageDescriptor (src : FileSource) (parent : List Bytes) (path : List Int) :
    DescriptorProto → Option MessageDescriptor
  | ⟨name, mapEntry, field, nestedType, enumType⟩ => do
      let qualifiedName := parent ++ [name]
      let base ← newBaseDesc src path qualifiedName
      let fields ← newEach (newField src path qualifiedName) field
      let messages ← newMessageDescriptors src qualifiedName (path ++ [3]) 0 nestedType
      let enums ← newEach (fun e i => newEnumDescriptor src qualifiedName (path ++ [4, i]) e)
        enumType
      some ⟨base, mapEntry, fields, messages, enums⟩

/-- The messages of a list, from the index `i` on. -/
def newMessageDescriptors (src : FileSource) (parent : List Bytes) (path : List Int) :
    Int → List DescriptorProto → Option (List MessageDescriptor)
  | _, [] => some []
  | i, desc :: rest => do
      let message ← newMessageDescriptor src parent (path ++ [i]) desc
      let messages ← newMessageDescriptors src parent path (i + 1) rest
      some (message :: messages)

end

/-- A method in `newServiceDescriptor`. -/
def newMethod (src : FileSource) (path : List Int) (qualifiedName : List Bytes)
    (m : MethodDescriptorProto) (i : Int) : Option MethodDescriptor := do
  let base ← newBaseDesc src (path ++ [2, i]) (qualifiedName ++ [m.name])
  some {
    toBaseDesc := base
    name := m.name
    inputType := m.inputType
    outputType := m.outputType
    isDeprecated := m.isDeprecated }

/-- `newServiceDescriptor`. -/
def newServiceDescriptor (src : FileSource) (path : List Int) (desc : ServiceDescriptorProto) :
    Option ServiceDescriptor := do
  let base ← newBaseDesc src path [desc.name]
  let methods ← newEach (newMethod src path [desc.name]) desc.method
  some { toBaseDesc := base, methods := methods }

/-- `newFileDescriptor`. -/
def newFileDescriptor (parent : Package) (desc : FileDescriptorProto) : Option FileDescriptor := do
  let src : FileSource := ⟨⟨desc.name, desc.package, parent⟩, desc.location⟩
  let messages ← newMessageDescriptors src [] [4] 0 desc.messageType
  let enums ← newEach (fun e i => newEnumDescriptor src [] [5, i] e) desc.enumType
  let services ← newEach (fun s i => newServiceDescriptor src [6, i] s) desc.service
  some { toFile := src.file, messages := messages, enums := enums, services := services }

/-! ### Packages -/

/-- `strings.Trim(l, " ")`. -/
def trimBlanks (l : Bytes) : Bytes :=
  ((l.dropWhile (· == 32)).reverse.dropWhile (· == 32)).reverse

/-- A line in front of the package clause. -/
def Package.readLine (p : Package) (line : Bytes) : Package :=
  let l := trimBlanks line
  if (ascii "$title: ").isPrefixOf l then { p with title := l.drop 8 }
  else if (ascii "$overview: ").isPrefixOf l then { p with overview := l.drop 11 }
  else if (ascii "$location: ").isPrefixOf l then { p with homeLocation := l.drop 11 }
  else if (ascii "$front_matter: ").isPrefixOf l then
    { p with frontMatter := p.frontMatter ++ [l.drop 15] }
  else p

/-- What `newPackageDescriptor` takes from the package clause of a file. -/
def Package.readFile (p : Package) (desc : FileDescriptorProto) : Package :=
  match find desc.location [2] with
  | none => p
  | some loc =>
    let p :=
      if p.loc.isNone ∧ (loc.leadingComments ≠ [] ∨ loc.trailingComments ≠ []) then
        { p with loc := some ⟨loc.leadingComments, loc.trailingComments⟩ }
      else p
    (loc.leadingDetachedComments.flatMap (·.splitOn newline)).foldl readLine p

/-- `newPackageDescriptor`. -/
def newPackageDescriptor (name : Bytes) (desc : List FileDescriptorProto) :
    Option PackageDescriptor := do
  let p : Package := desc.foldl .readFile ⟨name, [], [], [], [], none⟩
  let files ← desc.mapM (newFileDescriptor p)
  some { toPackage := p, files := files }

/-- `packageName`. -/
def packageName (f : FileDescriptorProto) : Bytes :=
  if f.package ≠ [] then f.package
  else
    let name := lastPart slash f.name
    if dot ∈ name then name.take (name.length - (lastPart dot name).length - 1) else name

/-- The files by their packages. -/
def filesByPackage (files : List FileDescriptorProto) : GoMap (List FileDescriptorProto) :=
  files.foldl (fun m pf =>
    m.insert (packageName pf) ((m.lookup (packageName pf)).getD [] ++ [pf])) ∅

mutual

/-- What `resolveFieldTypes` does for one message. -/
def resolveMessage (descMap : GoMap CoreDesc) :
    MessageDescriptor → List (FieldDescriptor × Option CoreDesc)
  | ⟨_, _, fields, messages, _⟩ =>
    (fields.map fun field => (field, descMap.lookup field.typeName)) ++
      resolveFieldTypes descMap messages

/-- `resolveFieldTypes`: the assignments to the types of the fields. `none` is nil. -/
def resolveFieldTypes (descMap : GoMap CoreDesc) :
    List MessageDescriptor → List (FieldDescriptor × Option CoreDesc)
  | [] => []
  | msg :: messages => resolveMessage descMap msg ++ resolveFieldTypes descMap messages

end

/-- The type assertion to a message. It fails for nil. -/
def asMessage : Option CoreDesc → Option MessageDescriptor
  | some (.message msg) => some msg
  | _ => none

/-- `resolveMethodTypes`: the assignments to the inputs and outputs of the methods. -/
def resolveMethodTypes (descMap : GoMap CoreDesc) (services : List ServiceDescriptor) :
    Option (List (MethodDescriptor × MessageDescriptor × MessageDescriptor)) :=
  (services.flatMap ServiceDescriptor.methods).mapM fun method => do
    let input ← asMessage (descMap.lookup method.inputType)
    let output ← asMessage (descMap.lookup method.outputType)
    some (method, input, output)

/-- The loops of `newModel` over the files of the packages: `resolveMethodTypes` succeeds for each
of them. -/
def Model.methodsResolve (m : Model) : Bool :=
  m.packages.all fun p => p.files.all fun f =>
    (resolveMethodTypes m.allDescByName f.services).isSome

/-- `newModel`, with the order of the loop over the packages. -/
def newModel (order : RangeOrder) (request : CodeGeneratorRequest) : Option Model := do
  let byPackage := filesByPackage request.protoFile
  let packages ← (order.visit byPackage.keys).mapM fun pkg =>
    newPackageDescriptor pkg ((byPackage.lookup pkg).getD [])
  let m := Model.ofPackages packages
  if m.methodsResolve then some m else none

/-! ### The output -/

/-- The generator that `newHTMLGenerator` makes. The current package is set before it is read. -/
def newHTMLGenerator (m : Model) (mode : OutputMode) (htmlStyle : Bytes) : Generator :=
  ⟨m, mode, htmlStyle, ⟨[], [], [], [], [], none⟩, false⟩

/-- The orders of all loops over maps in one run. -/
structure RunOrders where
  packages : RangeOrder
  types : Bytes → RangeOrders

/-- `main`, from the request to the pages. -/
def generate (mode : OutputMode) (htmlStyle : Bytes) (orders : RunOrders) (depth : Nat)
    (request : CodeGeneratorRequest) : Option (List Page) := do
  let m ← newModel orders.packages request
  let names := request.protoFile.map FileDescriptorProto.name
  if request.fileToGenerate.all (names.contains ·) then
    (newHTMLGenerator m mode htmlStyle).generateOutput orders.types depth fun f =>
      request.fileToGenerate.contains f.fileName
  else none

/-- The files of the response: their names and their contents. -/
def responseFiles (markdown : Bytes → Bytes) (pages : List Page) : List (Bytes × Bytes) :=
  pages.map fun p => (p.name, p.render markdown)

end IstioVendor.ProtocGenDocs
