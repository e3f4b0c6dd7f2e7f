import Mathlib.Data.List.AList
import IstioVendor.Lib.Lines

/-!
# `IstioVendor.ProtocGenDocs.Model`: the descriptors of protoc-gen-docs

`protoc-gen-docs` reads the descriptors of a set of proto files and writes one HTML page for each
package (`github.com/istio/tools/protoc-gen-docs`). This is the model that the page generator
works on: packages with files, files with messages, enums and services, and messages with fields
and with nested messages and enums.

In the source a descriptor points to its file, a file to its package, and a field to the
descriptor of its type. Here a descriptor has the data of its file and of its package in it,
without what they contain. The type of a field is looked up by its name when it is needed, in
`allDescByName`, as `newModel` does for all fields at once. A Go map is an association list with
one entry for each key. Texts are byte strings, as in Go.
-/

set_option autoImplicit false

namespace IstioVendor.ProtocGenDocs

open Lib

/-- A Go map with strings as keys. -/
abbrev GoMap (ν : Type) := AList fun _ : Bytes => ν

/-- The comments of a `SourceCodeInfo_Location`. -/
structure Location where
  leadingComments : Bytes
  trailingComments : Bytes
  deriving DecidableEq

/-- A `packageDescriptor` without its files. The name tells it from the others. -/
structure Package where
  name : Bytes
  title : Bytes
  overview : Bytes
  homeLocation : Bytes
  frontMatter : List Bytes
  loc : Option Location
  deriving DecidableEq

/-- A `fileDescriptor` without its descriptors. `package` is empty for a file without a package
clause, and `parent` is the package that the file was put into. -/
structure File where
  fileName : Bytes
  package : Bytes
  parent : Package
  deriving DecidableEq

/-- What all descriptors have. -/
structure BaseDesc where
  loc : Option Location
  hidden : Bool
  cl : Bytes
  file : File
  qualifiedName : List Bytes
  deriving DecidableEq

def BaseDesc.packageDesc (desc : BaseDesc) : Package := desc.file.parent

/-- The `Type` of a `FieldDescriptorProto`. -/
inductive FieldType where
  | double | float | int64 | uint64 | int32 | fixed64 | fixed32 | bool | string | group | message
  | bytes | uint32 | enum | sfixed32 | sfixed64 | sint32 | sint64
  deriving DecidableEq

/-- A field of a message. `typeName` is the full name of a message or an enum, and empty for the
other types. -/
structure FieldDescriptor extends BaseDesc where
  name : Bytes
  type : FieldType
  typeName : Bytes
  isRepeated : Bool
  oneofIndex : Option Int
  isDeprecated : Bool
  deriving DecidableEq

structure EnumValueDescriptor extends BaseDesc where
  name : Bytes
  isDeprecated : Bool
  deriving DecidableEq

structure EnumDescriptor extends BaseDesc where
  values : List EnumValueDescriptor
  deriving DecidableEq

/-- A message. `mapEntry` marks the message that `protoc` makes for a map field: it has the key
and the value as its two fields. -/
structure MessageDescriptor extends BaseDesc where
  mapEntry : Bool
  fields : List FieldDescriptor
  messages : List MessageDescriptor
  enums : List EnumDescriptor

structure MethodDescriptor extends BaseDesc where
  name : Bytes
  inputType : Bytes
  outputType : Bytes
  isDeprecated : Bool
  deriving DecidableEq

structure ServiceDescriptor extends BaseDesc where
  methods : List MethodDescriptor
  deriving DecidableEq

/-- The kinds of descriptors. -/
inductive CoreDesc where
  | message (m : MessageDescriptor)
  | field (f : FieldDescriptor)
  | enum (e : EnumDescriptor)
  | enumValue (v : EnumValueDescriptor)
  | service (s : ServiceDescriptor)
  | method (m : MethodDescriptor)

def CoreDesc.base : CoreDesc → BaseDesc
  | .message m => m.toBaseDesc
  | .field f => f.toBaseDesc
  | .enum e => e.toBaseDesc
  | .enumValue v => v.toBaseDesc
  | .service s => s.toBaseDesc
  | .method m => m.toBaseDesc

/-! ### Files -/

-- `aggregateMessages` puts the messages of a list before what is nested in them. It puts the
-- enums of a message behind those of its nested messages.
mutual

/-- What `aggregateMessages` appends for the messages nested in one message. -/
def MessageDescriptor.nestedMessages : MessageDescriptor → List MessageDescriptor
  | ⟨_, _, _, messages, _⟩ => messages ++ nestedMessagesOf messages

def nestedMessagesOf : List MessageDescriptor → List MessageDescriptor
  | [] => []
  | msg :: messages => msg.nestedMessages ++ nestedMessagesOf messages

end

mutual

/-- The enums in one message. -/
def MessageDescriptor.nestedEnums : MessageDescriptor → List EnumDescriptor
  | ⟨_, _, _, messages, enums⟩ => nestedEnumsOf messages ++ enums

def nestedEnumsOf : List MessageDescriptor → List EnumDescriptor
  | [] => []
  | msg :: messages => msg.nestedEnums ++ nestedEnumsOf messages

end

structure FileDescriptor extends File where
  messages : List MessageDescriptor
  enums : List EnumDescriptor
  services : List ServiceDescriptor

namespace FileDescriptor

/-- All messages of a file, by `aggregateMessages`. -/
def allMessages (f : FileDescriptor) : List MessageDescriptor :=
  f.messages ++ nestedMessagesOf f.messages

/-- All enums of a file, by `aggregateMessages` and `aggregateEnums`. -/
def allEnums (f : FileDescriptor) : List EnumDescriptor :=
  nestedEnumsOf f.messages ++ f.enums

end FileDescriptor

structure PackageDescriptor extends Package where
  files : List FileDescriptor

/-- The resolved model of all input files. -/
structure Model where
  packages : List PackageDescriptor
  allDescByName : GoMap CoreDesc

namespace Model

/-- `field.typ`. -/
def typ (m : Model) (field : FieldDescriptor) : Option CoreDesc :=
  m.allDescByName.lookup field.typeName

/-- The message with a name, for the input and the output of a method. -/
def messageNamed (m : Model) (name : Bytes) : Option MessageDescriptor :=
  match m.allDescByName.lookup name with
  | some (.message msg) => some msg
  | _ => none

end Model

/-! ### Names -/

/-- `dottedName`. -/
def dottedName (desc : BaseDesc) : Bytes := (ascii ".").intercalate desc.qualifiedName

/-- The name of the package of a file, with periods around it. -/
def File.dottedPkg (f : File) : Bytes :=
  if f.package = [] then ascii "." else ascii "." ++ f.package ++ ascii "."

/-- The entries for enums and their values, in the order in which they are written. -/
def recordEnums (dottedPkg : Bytes) (enums : List EnumDescriptor) : List (Bytes × CoreDesc) :=
  enums.flatMap fun e => (dottedPkg ++ dottedName e.toBaseDesc, .enum e) ::
    e.values.map fun v => (dottedPkg ++ dottedName v.toBaseDesc, .enumValue v)

def recordFields (dottedPkg : Bytes) (fields : List FieldDescriptor) : List (Bytes × CoreDesc) :=
  fields.map fun f => (dottedPkg ++ dottedName f.toBaseDesc, .field f)

mutual

/-- The entries for one message: itself, what is nested in it, and its fields. -/
def recordMessage (dottedPkg : Bytes) : MessageDescriptor → List (Bytes × CoreDesc)
  | ⟨base, mapEntry, fields, messages, enums⟩ =>
    (dottedPkg ++ dottedName base, .message ⟨base, mapEntry, fields, messages, enums⟩) ::
      recordMessages dottedPkg messages ++ recordEnums dottedPkg enums ++
        recordFields dottedPkg fields

def recordMessages (dottedPkg : Bytes) : List MessageDescriptor → List (Bytes × CoreDesc)
  | [] => []
  | msg :: messages => recordMessage dottedPkg msg ++ recordMessages dottedPkg messages

end

def recordServices (dottedPkg : Bytes) (services : List ServiceDescriptor) :
    List (Bytes × CoreDesc) :=
  services.flatMap fun s => (dottedPkg ++ dottedName s.toBaseDesc, .service s) ::
    s.methods.map fun m => (dottedPkg ++ dottedName m.toBaseDesc, .method m)

/-- The entries that `createDescMap` writes for a file. It writes the services twice. -/
def FileDescriptor.entries (f : FileDescriptor) : List (Bytes × CoreDesc) :=
  (f.services.map fun s => (f.dottedPkg ++ dottedName s.toBaseDesc, .service s)) ++
    recordEnums f.dottedPkg f.enums ++ recordMessages f.dottedPkg f.messages ++
    recordServices f.dottedPkg f.services

/-- The entries of a file, each one once. -/
def FileDescriptor.records (f : FileDescriptor) : List (Bytes × CoreDesc) :=
  recordEnums f.dottedPkg f.enums ++ recordMessages f.dottedPkg f.messages ++
    recordServices f.dottedPkg f.services

/-- The full names under which the descriptors of a file are recorded. -/
def FileDescriptor.fullNames (f : FileDescriptor) : List Bytes := f.records.map Prod.fst

/-- The map from the full names to the descriptors. A later entry replaces an earlier one. -/
def createDescMap (files : List FileDescriptor) : GoMap CoreDesc :=
  (files.flatMap FileDescriptor.entries).foldl (fun descMap e => descMap.insert e.1 e.2) ∅

/-- The model of a list of packages, as `newModel` makes it. -/
def Model.ofPackages (packages : List PackageDescriptor) : Model where
  packages := packages
  allDescByName := createDescMap (packages.flatMap PackageDescriptor.files)

end IstioVendor.ProtocGenDocs
