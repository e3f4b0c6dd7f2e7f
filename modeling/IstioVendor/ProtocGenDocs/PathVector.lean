import IstioVendor.ProtocGenDocs.NewModel

/-!
# `IstioVendor.ProtocGenDocs.PathVector`: paths as strings

`IstioVendor.ProtocGenDocs.NewModel` finds the comment of a descriptor by its path, a list of
integers. The source has the paths of `pathVector.go` for it. These are strings, with the numbers in
decimal and commas between them. `newFileDescriptor` puts the locations of a file into a map under
such strings, and makes the path of a descriptor by appending to the path of its parent. These are
the constructors of the descriptors with the strings (`IndexedFile`).
-/

set_option autoImplicit false

namespace IstioVendor.ProtocGenDocs

open Lib

/-! ### Strings -/

/-- `strconv.Itoa`. -/
def itoa (v : Int) : Bytes := if v < 0 then 45 :: decimal v.natAbs else decimal v.natAbs

/-- The tag numbers in a `FileDescriptorProto`. -/
def messagePath : Int := 4

def enumPath : Int := 5

def servicePath : Int := 6

/-- The tag numbers in a `DescriptorProto`. -/
def messageFieldPath : Int := 2

def messageMessagePath : Int := 3

def messageEnumPath : Int := 4

/-- The tag number in an `EnumDescriptorProto`. -/
def enumValuePath : Int := 2

/-- The tag number in a `ServiceDescriptorProto`. -/
def serviceMethodPath : Int := 2

/-- A `pathVector` is a string. -/
abbrev PathVector := Bytes

def newPathVector (v : Int) : PathVector := itoa v

/-- `append` of a `pathVector`. -/
def appendPath (pv : PathVector) (v : List Int) : PathVector :=
  v.foldl (fun result val => result ++ (comma :: itoa val)) pv

/-! ### Locations -/

/-- The map `locations` of a file. A location without a path is not in it. -/
def newLocations (location : List SourceLocation) : GoMap SourceLocation :=
  location.foldl (fun locations loc =>
    match loc.path with
    | [] => locations
    | v :: vs =>
      locations.insert (vs.foldl (fun pv v => appendPath pv [v]) (newPathVector v)) loc) ∅

/-- A file while its descriptors are made, with the map. -/
structure IndexedFile where
  file : File
  locations : GoMap SourceLocation

/-! ### Descriptors -/

namespace IndexedFile

/-- `find`, with the string of a path. -/
def find (f : IndexedFile) (path : PathVector) : Option SourceLocation := f.locations.lookup path

/-- `newBaseDesc`, with the string of a path. -/
def newBaseDesc (f : IndexedFile) (path : PathVector) (qualifiedName : List Bytes) :
    Option BaseDesc :=
  baseDescOf f.file (f.find path) qualifiedName

/-- A value in `newEnumDescriptor`. -/
def newEnumValue (f : IndexedFile) (path : PathVector) (qualifiedName : List Bytes)
    (ev : EnumValueDescriptorProto) (i : Int) : Option EnumValueDescriptor := do
  let base ← f.newBaseDesc (appendPath path [enumValuePath, i]) (qualifiedName ++ [ev.name])
  some { toBaseDesc := base, name := ev.name, isDeprecated := ev.isDeprecated }

def newEnumDescriptor (f : IndexedFile) (parent : List Bytes) (path : PathVector)
    (desc : EnumDescriptorProto) : Option EnumDescriptor := do
  let qualifiedName := parent ++ [desc.name]
  let base ← f.newBaseDesc path qualifiedName
  let values ← newEach (f.newEnumValue path qualifiedName) desc.value
  some { toBaseDesc := base, values := values }

/-- A field in `newMessageDescriptor`. -/
def newField (f : IndexedFile) (path : PathVector) (qualifiedName : List Bytes)
    (fd : FieldDescriptorProto) (i : Int) : Option FieldDescriptor := do
  let base ← f.newBaseDesc (appendPath path [messageFieldPath, i]) (qualifiedName ++ [fd.name])
  some {
    toBaseDesc := base
    name := fd.name
    type := fd.type
    typeName := fd.typeName
    isRepeated := fd.isRepeated
    oneofIndex := fd.oneofIndex
    isDeprecated := fd.isDeprecated }

mutual

def newMessageDescriptor (f : IndexedFile) (parent : List Bytes) (path : PathVector) :
    DescriptorProto → Option MessageDescriptor
  | ⟨name, mapEntry, field, nestedType, enumType⟩ => do
      let qualifiedName := parent ++ [name]
      let base ← f.newBaseDesc path qualifiedName
      let fields ← newEach (f.newField path qualifiedName) field
      let messages ← newMessageDescriptors f qualifiedName
        (fun i => appendPath path [messageMessagePath, i]) 0 nestedType
      let enums ← newEach (fun e i =>
        f.newEnumDescriptor qualifiedName (appendPath path [messageEnumPath, i]) e) enumType
      some ⟨base, mapEntry, fields, messages, enums⟩

/-- The messages of a list, from the index `i` on. `place` is the path of each. -/
def newMessageDescriptors (f : IndexedFile) (parent : List Bytes) (place : Int → PathVector) :
    Int → List DescriptorProto → Option (List MessageDescriptor)
  | _, [] => some []
  | i, desc :: rest => do
      let message ← newMessageDescriptor f parent (place i) desc
      let messages ← newMessageDescriptors f parent place (i + 1) rest
      some (message :: messages)

end

/-- A method in `newServiceDescriptor`. -/
def newMethod (f : IndexedFile) (path : PathVector) (qualifiedName : List Bytes)
    (m : MethodDescriptorProto) (i : Int) : Option MethodDescriptor := do
  let base ← f.newBaseDesc (appendPath path [serviceMethodPath, i]) (qualifiedName ++ [m.name])
  some {
    toBaseDesc := base
    name := m.name
    inputType := m.inputType
    outputType := m.outputType
    isDeprecated := m.isDeprecated }

def newServiceDescriptor (f : IndexedFile) (path : PathVector) (desc : ServiceDescriptorProto) :
    Option ServiceDescriptor := do
  let base ← f.newBaseDesc path [desc.name]
  let methods ← newEach (f.newMethod path [desc.name]) desc.method
  some { toBaseDesc := base, methods := methods }

def newFileDescriptor (parent : Package) (desc : FileDescriptorProto) : Option FileDescriptor := do
  let f : IndexedFile := ⟨⟨desc.name, desc.package, parent⟩, newLocations desc.location⟩
  let messages ← f.newMessageDescriptors [] (fun i => appendPath (newPathVector messagePath) [i]) 0
    desc.messageType
  let enums ← newEach (fun e i =>
    f.newEnumDescriptor [] (appendPath (newPathVector enumPath) [i]) e) desc.enumType
  let services ← newEach (fun s i =>
    f.newServiceDescriptor (appendPath (newPathVector servicePath) [i]) s) desc.service
  some { toFile := f.file, messages := messages, enums := enums, services := services }

end IndexedFile

end IstioVendor.ProtocGenDocs
