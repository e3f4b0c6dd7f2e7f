import Mathlib.Data.List.Sort
import IstioVendor.ProtocGenDocs.Comments

/-!
# `IstioVendor.ProtocGenDocs.HtmlGenerator`: the pages of protoc-gen-docs

`generateOutput` makes a page for every package that has a file to generate. It first decides
which types are on the page, all types of these files and the types of their fields that have no
documentation of their own on the web (`collectTypes`). The types are kept in maps, with the name
they have on the page as the key. `generateFile` then writes a section for each of them.

A function of the generator returns what the source writes to its buffer. This is a list of
pieces and not a text, so that the links inside the page and the elements they can point to are
seen: `Piece.link` is the start of an `a` element with an `href` into the page, `Piece.heading`
and `Piece.row` are `id` attributes. `Page.render` is the text. The library that turns the
markdown of the comments into HTML is a parameter of it.

The recursions of the source over the types of fields are bounded by a depth here. `none` says
that the depth was not enough, or that the source panics: at a failed type assertion, at a nil
descriptor, or at a map entry without its two fields.
-/

set_option autoImplicit false

namespace IstioVendor.ProtocGenDocs

open Lib

inductive OutputMode where
  | htmlPage | htmlFragment | jekyllHTML
  deriving DecidableEq

/-- The `htmlGenerator`, without its buffer. `htmlStyle` is the style sheet of a page. -/
structure Generator where
  model : Model
  mode : OutputMode
  htmlStyle : Bytes
  currentPackage : Package
  grouping : Bool

/-- A text, or the start tag of a link to an element of the same page. -/
inductive Inline where
  | text (b : Bytes)
  | link (target : Bytes)
  deriving DecidableEq

/-- A piece of a page. `heading` is the `id` of the section about `desc`. `row` is the `id` of a
field, an enum value or a method. `comment` is a comment before it is turned into HTML. -/
inductive Piece where
  | inline (i : Inline)
  | heading (desc : CoreDesc) (id : Bytes)
  | row (id : Bytes)
  | comment (text : List Inline)

/-- A text of the source. -/
def lit (s : String) : Piece := .inline (.text (ascii s))

/-- A text from the model. -/
def txt (b : Bytes) : Piece := .inline (.text b)

/-- Write pieces and the end of a line. -/
def emit (pieces : List Piece) : List Piece := pieces ++ [txt [10]]

structure Page where
  name : Bytes
  content : List Piece

def Inline.render : Inline → Bytes
  | .text b => b
  | .link target => ascii "<a href=\"#" ++ target ++ ascii "\">"

def Piece.render (markdown : Bytes → Bytes) : Piece → Bytes
  | .inline i => i.render
  | .heading _ id | .row id => ascii " id=\"" ++ id ++ ascii "\""
  | .comment text =>
    -- A brace would be taken for the start of a Liquid tag.
    ((markdown (text.flatMap Inline.render)).flatMap fun b =>
      if b = 0x7b then ascii "&lbrace;" else [b]) ++ [10]

/-- The content of the file that is written. -/
def Page.render (markdown : Bytes → Bytes) (p : Page) : Bytes :=
  p.content.flatMap (Piece.render markdown)

/-! ### Names and links -/

/-- The types whose documentation is known, with its place. -/
def wellKnownTypes : List (Bytes × Bytes) :=
  [("Duration", "duration"), ("Timestamp", "timestamp"), ("Any", "any"),
    ("BytesValue", "bytesvalue"), ("StringValue", "stringvalue"), ("BoolValue", "boolvalue"),
    ("Int32Value", "int32value"), ("Int64Value", "int64value"), ("Uint32Value", "uint32value"),
    ("Uint64Value", "uint64value"), ("FloatValue", "floatvalue"),
    ("DoubleValue", "doublevalue"), ("Empty", "empty"), ("EnumValue", "enumvalue"),
    ("ListValue", "listvalue"), ("NullValue", "nullvalue")].map fun (type, place) =>
      (ascii "google.protobuf." ++ ascii type,
        ascii "https://developers.google.com/protocol-buffers/docs/reference/google.protobuf#" ++
          ascii place)

/-- The name with its package. -/
def absoluteName (desc : BaseDesc) : Bytes :=
  desc.packageDesc.name ++ ascii "." ++ dottedName desc

/-- `wellKnownTypes[g.absoluteName(desc)]`. -/
def known (desc : BaseDesc) : Option Bytes := wellKnownTypes.lookup (absoluteName desc)

def CoreDesc.isMapEntry : CoreDesc → Bool
  | .message m => m.mapEntry
  | _ => false

namespace Generator

/-- The name on the page: without the package if it is the current one. -/
def relativeName (g : Generator) (desc : BaseDesc) : Bytes :=
  if desc.packageDesc = g.currentPackage then dottedName desc
  else desc.packageDesc.name ++ ascii "." ++ dottedName desc

def linkify (g : Generator) (o : Option CoreDesc) (name : List Inline) : List Inline :=
  match o with
  | none => name
  | some o =>
    if o.isMapEntry then name
    else match known o.base with
      | some place =>
        [.text (ascii "<a href=\"" ++ place ++ ascii "\">")] ++ name ++ [.text (ascii "</a>")]
      | none =>
        let loc := o.base.packageDesc.homeLocation
        if !o.base.hidden ∧ loc ≠ [] ∧ loc ≠ g.currentPackage.homeLocation then
          [.text (ascii "<a href=\"" ++ loc ++ ascii "#" ++ dottedName o.base ++
            ascii "\">")] ++ name ++ [.text (ascii "</a>")]
        else
          [.link (g.relativeName o.base)] ++ name ++ [.text (ascii "</a>")]

/-- What a part of a line of a comment is replaced by. -/
def linePart (g : Generator) : LinePart → List Inline
  | .text b => [.text b]
  | .typeLink linkName typeName =>
    match g.model.allDescByName.lookup (ascii "." ++ typeName) with
    | some o => g.linkify (some o) [.text linkName]
    | none =>
      match wellKnownTypes.lookup typeName with
      | some place => [.text (ascii "<a href=\"" ++ place ++ ascii "\">" ++ linkName ++
          ascii "</a>")]
      | none => [.text (ascii "*" ++ linkName ++ ascii "*")]

def generateComment (g : Generator) (loc : Option Location) : List Piece :=
  let com := commentOf loc
  if com = [] then []
  else
    [.comment (([Inline.text [10]]).intercalate ((commentLines g.grouping com).map fun line =>
      (lineParts line.length line).flatMap g.linePart))]

/-- `fieldTypeName`, with a bound on the nesting of maps. -/
def fieldTypeName (g : Generator) : Nat → FieldDescriptor → Option (List Inline)
  | 0, _ => none
  | depth + 1, field =>
    let named (name : Bytes) : Option (List Inline) :=
      some [.text (name ++ (if field.isRepeated then ascii "[]" else []) ++
        (if field.oneofIndex.isSome then ascii " (oneof)" else []))]
    match field.type with
    | .double => named (ascii "double")
    | .float => named (ascii "float")
    | .int32 | .sint32 | .sfixed32 => named (ascii "int32")
    | .int64 | .sint64 | .sfixed64 => named (ascii "int64")
    | .uint64 | .fixed64 => named (ascii "uint64")
    | .uint32 | .fixed32 => named (ascii "uint32")
    | .bool => named (ascii "bool")
    | .string => named (ascii "string")
    | .message =>
      match g.model.typ field with
      | some (.message msg) =>
        if msg.mapEntry then do
          let key ← msg.fields[0]?
          let value ← msg.fields[1]?
          let keyType ← g.fieldTypeName depth key
          let valType ← g.fieldTypeName depth value
          some ([.text (ascii "map&lt;")] ++ keyType ++ [.text (ascii ",&nbsp;")] ++
            g.linkify (g.model.typ value) valType ++ [.text (ascii "&gt;")])
        else named (g.relativeName msg.toBaseDesc)
      | _ => none
    | .bytes => named (ascii "bytes")
    | .enum => (g.model.typ field).bind fun o => named (g.relativeName o.base)
    | .group => named (ascii "n/a")

/-! ### Sections -/

def generateSectionHeading (g : Generator) (desc : CoreDesc) : List Piece :=
  let heading := if g.grouping then ascii "h3" else ascii "h2"
  let name := g.relativeName desc.base
  emit [lit "<", txt heading, .heading desc name, lit ">", txt name, lit "</", txt heading,
      lit ">"] ++
    if desc.base.cl ≠ [] then
      emit [lit "<section class=\"", txt (desc.base.cl ++ ascii " "), lit "\">"]
    else emit [lit "<section>"]

def generateSectionTrailing : List Piece := emit [lit "</section>"]

end Generator

/-- The loop of `camelCase`, over the ASCII characters of a name. -/
def camelCaseFrom : Bool → Bytes → Bytes
  | _, [] => []
  | nextUpper, ch :: s =>
    if ch = 95 then camelCaseFrom true s
    else (if nextUpper ∧ 97 ≤ ch ∧ ch ≤ 122 then ch - 32 else ch) :: camelCaseFrom false s

def camelCase (s : Bytes) : Bytes := camelCaseFrom false s

/-- The class of a field, a value or a method: whether it is deprecated, and its own class. -/
def memberClass (isDeprecated : Bool) (desc : BaseDesc) : Bytes :=
  (if isDeprecated then ascii "deprecated " else []) ++
    if desc.cl ≠ [] then desc.cl ++ ascii " " else []

/-- The `class` attribute, left out if it is empty. -/
def classAttr (cl : Bytes) : List Piece :=
  if cl ≠ [] then [lit " class=\"", txt cl, lit "\""] else []

/-- The class of a field, which also says where a `oneof` starts. `oneof` is the index of the one
before it. -/
def fieldClass (field : FieldDescriptor) (oneof : Int) : Bytes × Int :=
  let cl := memberClass field.isDeprecated field.toBaseDesc
  match field.oneofIndex with
  | none => (cl, oneof)
  | some index =>
    if index ≠ oneof then (cl ++ ascii "oneof oneof-start", index)
    else (cl ++ ascii "oneof", oneof)

namespace Generator

/-- The row of a field. -/
def fieldRow (g : Generator) (field : FieldDescriptor) (cl : Bytes) (typeName : List Inline) :
    List Piece :=
  emit ([lit "<tr", .row (g.relativeName field.toBaseDesc)] ++ classAttr cl ++ [lit ">"]) ++
    emit [lit "<td><code>", txt (camelCase field.name), lit "</code></td>"] ++
    emit ([lit "<td><code>"] ++ (g.linkify (g.model.typ field) typeName).map .inline ++
      [lit "</code></td>"]) ++
    emit [lit "<td>"] ++ g.generateComment field.loc ++ emit [lit "</td>"] ++ emit [lit "</tr>"]

/-- The rows of the fields, with the index of the last `oneof`. -/
def fieldRows (g : Generator) (depth : Nat) : Int → List FieldDescriptor → Option (List Piece)
  | _, [] => some []
  | oneof, field :: fields =>
    if field.hidden then g.fieldRows depth oneof fields
    else do
      let typeName ← g.fieldTypeName depth field
      let rows ← g.fieldRows depth (fieldClass field oneof).2 fields
      some (g.fieldRow field (fieldClass field oneof).1 typeName ++ rows)

/-- The head of the table of a section. -/
def tableHead (cl : String) (columns : List String) : List Piece :=
  emit [lit "<table class=\"", lit cl, lit "\">"] ++ emit [lit "<thead>"] ++ emit [lit "<tr>"] ++
    columns.flatMap (fun column => emit [lit "<th>", lit column, lit "</th>"]) ++
    emit [lit "</tr>"] ++ emit [lit "</thead>"] ++ emit [lit "<tbody>"]

def tableFoot : List Piece := emit [lit "</tbody>"] ++ emit [lit "</table>"]

def generateMessage (g : Generator) (depth : Nat) (message : MessageDescriptor) :
    Option (List Piece) := do
  let rows ← g.fieldRows depth (-1) message.fields
  some (g.generateSectionHeading (.message message) ++ g.generateComment message.loc ++
    (if message.fields ≠ [] then
      tableHead "message-fields" ["Field", "Type", "Description"] ++ rows ++ tableFoot
    else []) ++ generateSectionTrailing)

/-- The row of an enum value. -/
def valueRow (g : Generator) (v : EnumValueDescriptor) : List Piece :=
  emit ([lit "<tr", .row (g.relativeName v.toBaseDesc)] ++
      classAttr (memberClass v.isDeprecated v.toBaseDesc) ++ [lit ">"]) ++
    emit [lit "<td><code>", txt v.name, lit "</code></td>"] ++ emit [lit "<td>"] ++
    g.generateComment v.loc ++ emit [lit "</td>"] ++ emit [lit "</tr>"]

def generateEnum (g : Generator) (enum : EnumDescriptor) : List Piece :=
  g.generateSectionHeading (.enum enum) ++ g.generateComment enum.loc ++
    (if enum.values ≠ [] then
      tableHead "enum-values" ["Name", "Description"] ++
        (enum.values.filter (!·.hidden)).flatMap g.valueRow ++ tableFoot
    else []) ++ generateSectionTrailing

/-- A method. `resolveMethodTypes` has asserted that its types are messages. -/
def methodRow (g : Generator) (method : MethodDescriptor) : Option (List Piece) := do
  let input ← g.model.messageNamed method.inputType
  let output ← g.model.messageNamed method.outputType
  some (emit ([lit "<pre", .row (g.relativeName method.toBaseDesc)] ++
      classAttr (memberClass method.isDeprecated method.toBaseDesc) ++
      [lit "><code class=\"language-proto\">rpc ", txt method.name, lit "(",
        txt (g.relativeName input.toBaseDesc), lit ") returns (",
        txt (g.relativeName output.toBaseDesc), lit ")"]) ++
    emit [lit "</code></pre>"] ++ g.generateComment method.loc)

def generateService (g : Generator) (service : ServiceDescriptor) : Option (List Piece) := do
  let rows ← (service.methods.filter (!·.hidden)).mapM g.methodRow
  some (g.generateSectionHeading (.service service) ++ g.generateComment service.loc ++
    rows.flatten ++ generateSectionTrailing)

/-! ### Pages -/

def generateFileHeader (g : Generator) (pkg : Package) (numEntries : Nat) : List Piece :=
  (match g.mode with
    | .jekyllHTML =>
      emit [lit "---"] ++
        emit [lit "title: ", txt (if pkg.title ≠ [] then pkg.title else pkg.name)] ++
        (if pkg.overview ≠ [] then emit [lit "overview: ", txt pkg.overview] else []) ++
        (if pkg.homeLocation ≠ [] then emit [lit "location: ", txt pkg.homeLocation] else []) ++
        emit [lit "layout: protoc-gen-docs"] ++
        pkg.frontMatter.flatMap (fun fm => emit [txt fm]) ++
        emit [lit "number_of_entries: ", lit (toString numEntries)] ++ emit [lit "---"]
    | .htmlPage =>
      emit [lit "<!DOCTYPE html>"] ++
        emit [lit "<html itemscope itemtype=\"https://schema.org/WebPage\">"] ++
        emit [lit "<!-- Generated by protoc-gen-docs -->"] ++ emit [lit "<head>"] ++
        emit [lit "<meta charset=\"utf-8'>"] ++
        emit [lit "<meta name=\"viewport' content=\"width=device-width, ",
          lit "initial-scale=1, shrink-to-fit=no\">"] ++
        (if pkg.title ≠ [] then
          emit [lit "<meta name=\"title\" content=\"", txt pkg.title, lit "\">"] ++
            emit [lit "<meta name=\"og:title\" content=\"", txt pkg.title, lit "\">"] ++
            emit [lit "<title>", txt pkg.title, lit "</title>"]
        else []) ++
        (if pkg.overview ≠ [] then
          emit [lit "<meta name=\"description\" content=\"", txt pkg.overview, lit "\">"] ++
            emit [lit "<meta name=\"og:description\" content=\"", txt pkg.overview, lit "\">"]
        else []) ++
        emit [txt g.htmlStyle] ++ emit [lit "</head>"] ++ emit [lit "<body>"] ++
        (if pkg.title ≠ [] then emit [lit "<h1>", txt pkg.title, lit "</h1>"] else [])
    | .htmlFragment =>
      emit [lit "<!-- Generated by protoc-gen-docs -->"] ++
        (if pkg.title ≠ [] then emit [lit "<h1>", txt pkg.title, lit "</h1>"] else [])) ++
    g.generateComment pkg.loc

def generateFileFooter (g : Generator) : List Piece :=
  if g.mode = .htmlPage then emit [lit "</body>"] ++ emit [lit "</html>"] else []

end Generator

/-- The types of a page: the three maps that `generateOutput` hands to `generateFile`. -/
structure Types where
  messages : GoMap MessageDescriptor
  enums : GoMap EnumDescriptor
  services : GoMap ServiceDescriptor

/-- The order in which a `range` loop visits the keys of a map. It may be any order. -/
structure RangeOrder where
  visit : List Bytes → List Bytes
  perm : ∀ keys, (visit keys).Perm keys

/-- The order in which the keys are in the map. -/
def RangeOrder.same : RangeOrder := ⟨id, List.Perm.refl⟩

/-- The orders of the three loops of `generateFile`. -/
structure RangeOrders where
  enums : RangeOrder
  messages : RangeOrder
  services : RangeOrder

/-- All three loops visit the keys in the order of their map. -/
def RangeOrders.same : RangeOrders := ⟨.same, .same, .same⟩

/-- An enum that is not left out. -/
def showsEnum (e : EnumDescriptor) : Bool := !e.hidden && (known e.toBaseDesc).isNone

/-- A message that is not left out. -/
def showsMessage (m : MessageDescriptor) : Bool :=
  !m.mapEntry && !m.hidden && (known m.toBaseDesc).isNone

/-- A service that is not left out. -/
def showsService (s : ServiceDescriptor) : Bool := !s.hidden

/-- The names of the enums and messages that are shown, sorted. -/
def typeList (orders : RangeOrders) (types : Types) : List Bytes :=
  ((orders.enums.visit types.enums.keys).filter (fun name =>
      (types.enums.lookup name).any showsEnum) ++
    (orders.messages.visit types.messages.keys).filter fun name =>
      (types.messages.lookup name).any showsMessage).insertionSort (· ≤ ·)

/-- The names of the services that are shown, sorted. -/
def serviceList (orders : RangeOrders) (types : Types) : List Bytes :=
  ((orders.services.visit types.services.keys).filter fun name =>
    (types.services.lookup name).any showsService).insertionSort (· ≤ ·)

namespace Generator

/-- The section of a name in the list of types. An enum goes before a message. -/
def generateType (g : Generator) (depth : Nat) (types : Types) (name : Bytes) :
    Option (List Piece) :=
  match types.enums.lookup name with
  | some e => some (g.generateEnum e)
  | none =>
    match types.messages.lookup name with
    | some m => g.generateMessage depth m
    | none => some []

def generateFile (g : Generator) (orders : RangeOrders) (depth : Nat) (pkg : Package)
    (types : Types) : Option Page := do
  let typeNames := typeList orders types
  let serviceNames := serviceList orders types
  -- If there is more than one kind of things, the page is divided into groups.
  let grouping := decide (typeNames ≠ [] ∧ serviceNames ≠ [])
  let g := { g with grouping := grouping }
  let services ← serviceNames.mapM fun name => (types.services.lookup name).bind g.generateService
  let sections ← typeNames.mapM (g.generateType depth types)
  some {
    name := pkg.name ++ ascii ".pb.html"
    content := g.generateFileHeader pkg (typeNames.length + serviceNames.length) ++
      (if grouping then emit [lit "<h2 id=\"Services\">Services</h2>"] else []) ++
      services.flatten ++
      (if grouping then emit [lit "<h2 id=\"Types\">Types</h2>"] else []) ++
      sections.flatten ++ g.generateFileFooter }

/-! ### The types of a page -/

/-- `includeUnsituatedDependencies`. The recursive call is for the same message again. -/
def includeUnsituatedDependencies (g : Generator) : Nat → Types → MessageDescriptor → Option Types
  | 0, _, _ => none
  | depth + 1, types, msg =>
    msg.fields.foldlM (fun types field =>
      match g.model.typ field with
      | some (.message m) =>
        if m.packageDesc.homeLocation = [] then
          let name := g.relativeName m.toBaseDesc
          if (types.messages.lookup name).isNone then
            g.includeUnsituatedDependencies depth
              { types with messages := types.messages.insert name m } msg
          else some types
        else some types
      | some (.enum e) =>
        if e.packageDesc.homeLocation = [] then
          some { types with enums := types.enums.insert (g.relativeName e.toBaseDesc) e }
        else some types
      | _ => some types) types

/-- A message of a file to generate, with the types of its fields. -/
def addMessage (g : Generator) (depth : Nat) (types : Types) (m : MessageDescriptor) :
    Option Types :=
  g.includeUnsituatedDependencies depth
    { types with messages := types.messages.insert (g.relativeName m.toBaseDesc) m } m

def addEnum (g : Generator) (types : Types) (e : EnumDescriptor) : Types :=
  { types with enums := types.enums.insert (g.relativeName e.toBaseDesc) e }

def addService (g : Generator) (types : Types) (s : ServiceDescriptor) : Types :=
  { types with services := types.services.insert (g.relativeName s.toBaseDesc) s }

/-- The types of a file to generate. -/
def addFile (g : Generator) (depth : Nat) (types : Types) (file : FileDescriptor) :
    Option Types := do
  let types ← file.allMessages.foldlM (g.addMessage depth) types
  some (file.services.foldl g.addService (file.allEnums.foldl g.addEnum types))

/-- The loops of `generateOutput` over the files of a package that are to be generated. -/
def collectTypes (g : Generator) (depth : Nat) (files : List FileDescriptor) : Option Types :=
  files.foldlM (g.addFile depth) ⟨∅, ∅, ∅⟩

/-- The generator at a package. -/
def enter (g : Generator) (pkg : PackageDescriptor) : Generator :=
  { g with currentPackage := pkg.toPackage }

/-- The page of a package, as `generateOutput` makes it. -/
def generatePackage (g : Generator) (orders : RangeOrders) (depth : Nat)
    (filesToGen : FileDescriptor → Bool) (pkg : PackageDescriptor) : Option Page := do
  let types ← (g.enter pkg).collectTypes depth (pkg.files.filter filesToGen)
  (g.enter pkg).generateFile orders depth pkg.toPackage types

/-- `generateOutput`: one page for each package that has a file to generate. The loops of
`generateFile` have orders of their own for each package. -/
def generateOutput (g : Generator) (orders : Bytes → RangeOrders) (depth : Nat)
    (filesToGen : FileDescriptor → Bool) : Option (List Page) :=
  (g.model.packages.filter fun pkg => 0 < pkg.files.countP filesToGen).mapM fun pkg =>
    g.generatePackage (orders pkg.name) depth filesToGen pkg

end Generator

end IstioVendor.ProtocGenDocs
