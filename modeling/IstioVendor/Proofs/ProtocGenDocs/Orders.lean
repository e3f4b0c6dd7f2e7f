import IstioVendor.Proofs.ProtocGenDocs.NewModel
import IstioVendor.Proofs.ProtocGenDocs.Sections

/-!
# `IstioVendor.Proofs.ProtocGenDocs.Orders`: the pages do not depend on the order of maps

Go visits the keys of a map in an order of its own, which can be another one in the next run. There
are four such loops between the request and the pages. The one over the packages decides in which
order the packages are generated and the descriptors recorded; the three of `generateFile` collect
names, which are then sorted.

The generator reads the map of the descriptors only by a lookup of a name. So it does the same with
two models that have the same descriptors (`generatePackage_congr`), and by `newModel_rel` two
orders of the packages give such models. The sorted names are the same for all orders
(`typeList_eq`). Together, the files of the response are the same (`response_order_free`).
-/

set_option autoImplicit false

namespace IstioVendor.ProtocGenDocs

open Lib

/-! ### Sorted names -/

section
variable {ν : Type} (m : GoMap ν) (shows : ν → Bool)

theorem visit_filter_perm (order₁ order₂ : RangeOrder) :
    ((order₁.visit m.keys).filter fun name => (m.lookup name).any shows).Perm
      ((order₂.visit m.keys).filter fun name => (m.lookup name).any shows) :=
  ((order₁.perm m.keys).trans (order₂.perm m.keys).symm).filter _

end

theorem insertionSort_eq_of_perm {l₁ l₂ : List Bytes} (h : l₁.Perm l₂) :
    l₁.insertionSort (· ≤ ·) = l₂.insertionSort (· ≤ ·) := by
  have hperm : (l₁.insertionSort (· ≤ ·)).Perm (l₂.insertionSort (· ≤ ·)) :=
    (List.perm_insertionSort _ _).trans (h.trans (List.perm_insertionSort _ _).symm)
  exact hperm.eq_of_pairwise' (List.pairwise_insertionSort _ _) (List.pairwise_insertionSort _ _)

section
variable (orders₁ orders₂ : RangeOrders) (types : Types)

/-- The sorted names do not depend on the orders of the loops. -/
theorem typeList_eq : typeList orders₁ types = typeList orders₂ types :=
  insertionSort_eq_of_perm
    ((visit_filter_perm types.enums showsEnum orders₁.enums orders₂.enums).append
      (visit_filter_perm types.messages showsMessage orders₁.messages orders₂.messages))

theorem serviceList_eq : serviceList orders₁ types = serviceList orders₂ types :=
  insertionSort_eq_of_perm
    (visit_filter_perm types.services showsService orders₁.services orders₂.services)

end

/-! ### The generator and the descriptors -/

namespace Generator

/-- The generator on another model. -/
def on (g : Generator) (m : Model) : Generator := { g with model := m }

section
variable {m₁ m₂ : Model} {g : Generator} {depth : Nat}

-- What does not look at the model is the same on all models.
@[simp] theorem on_model (m : Model) : (g.on m).model = m := rfl

@[simp] theorem on_grouping (m : Model) : (g.on m).grouping = g.grouping := rfl

@[simp] theorem on_relativeName (m : Model) : (g.on m).relativeName = g.relativeName := rfl

@[simp] theorem on_linkify (m : Model) : (g.on m).linkify = g.linkify := rfl

@[simp] theorem on_generateSectionHeading (m : Model) :
    (g.on m).generateSectionHeading = g.generateSectionHeading := rfl

@[simp] theorem on_generateFileFooter (m : Model) :
    (g.on m).generateFileFooter = g.generateFileFooter := rfl

variable (h : ∀ k, m₁.allDescByName.lookup k = m₂.allDescByName.lookup k)
include h

theorem typ_congr : m₁.typ = m₂.typ := by
  funext field
  exact h field.typeName

theorem messageNamed_congr : m₁.messageNamed = m₂.messageNamed := by
  funext name
  rw [Model.messageNamed, h name]
  rfl

theorem generateComment_congr : (g.on m₁).generateComment = (g.on m₂).generateComment := by
  have hpart : (g.on m₁).linePart = (g.on m₂).linePart := by
    funext part
    cases part with
    | text b => rfl
    | typeLink linkName typeName => simp only [linePart, on_model, on_linkify, h]
  funext loc
  simp only [generateComment, on_grouping, hpart]

theorem fieldTypeName_congr (depth : Nat) :
    (g.on m₁).fieldTypeName depth = (g.on m₂).fieldTypeName depth := by
  induction depth with
  | zero => rfl
  | succ depth ih =>
    funext field
    unfold fieldTypeName
    rw [ih, on_model, on_model, typ_congr h]
    rfl

theorem fieldRow_congr : (g.on m₁).fieldRow = (g.on m₂).fieldRow := by
  funext field cl typeName
  simp only [fieldRow, on_model, on_relativeName, on_linkify, typ_congr h, generateComment_congr h]

theorem fieldRows_congr (oneof : Int) (fields : List FieldDescriptor) :
    (g.on m₁).fieldRows depth oneof fields = (g.on m₂).fieldRows depth oneof fields := by
  induction fields generalizing oneof with
  | nil => rfl
  | cons field fields ih =>
    simp only [fieldRows, fieldTypeName_congr h, fieldRow_congr h, ih]

theorem generateMessage_congr :
    (g.on m₁).generateMessage depth = (g.on m₂).generateMessage depth := by
  funext message
  simp only [generateMessage, fieldRows_congr h, on_generateSectionHeading, generateComment_congr h]

theorem generateEnum_congr : (g.on m₁).generateEnum = (g.on m₂).generateEnum := by
  have hrow : (g.on m₁).valueRow = (g.on m₂).valueRow := by
    funext v
    simp only [valueRow, on_relativeName, generateComment_congr h]
  funext enum
  simp only [generateEnum, on_generateSectionHeading, generateComment_congr h, hrow]

theorem generateService_congr : (g.on m₁).generateService = (g.on m₂).generateService := by
  have hrow : (g.on m₁).methodRow = (g.on m₂).methodRow := by
    funext method
    simp only [methodRow, on_model, on_relativeName, messageNamed_congr h, generateComment_congr h]
  funext service
  simp only [generateService, on_generateSectionHeading, generateComment_congr h, hrow]

theorem generateType_congr (types : Types) :
    (g.on m₁).generateType depth types = (g.on m₂).generateType depth types := by
  funext name
  simp only [generateType, generateEnum_congr h, generateMessage_congr h]

theorem generateFileHeader_congr : (g.on m₁).generateFileHeader = (g.on m₂).generateFileHeader := by
  funext pkg n
  unfold generateFileHeader
  rw [generateComment_congr h]
  rfl

/-- The page of a package is the same for all orders of the loops over its types. -/
theorem generateFile_congr (orders₁ orders₂ : RangeOrders) (pkg : Package) (types : Types) :
    (g.on m₁).generateFile orders₁ depth pkg types
      = (g.on m₂).generateFile orders₂ depth pkg types := by
  -- The generator with the grouping of the page is a generator on the model, too.
  have hgrouped : ∀ (m : Model) (b : Bool),
      ({ g.on m with grouping := b } : Generator) = ({ g with grouping := b } : Generator).on m :=
    fun _ _ => rfl
  unfold generateFile
  simp only [typeList_eq orders₁ orders₂, serviceList_eq orders₁ orders₂, hgrouped,
    generateService_congr h, generateType_congr h, generateFileHeader_congr h,
    on_generateFileFooter]

theorem includeUnsituatedDependencies_congr (depth : Nat) :
    (g.on m₁).includeUnsituatedDependencies depth
      = (g.on m₂).includeUnsituatedDependencies depth := by
  induction depth with
  | zero => rfl
  | succ depth ih =>
    funext types msg
    simp only [includeUnsituatedDependencies, on_model, on_relativeName, typ_congr h, ih]
    rfl

theorem collectTypes_congr (files : List FileDescriptor) :
    (g.on m₁).collectTypes depth files = (g.on m₂).collectTypes depth files := by
  have hmessage : (g.on m₁).addMessage depth = (g.on m₂).addMessage depth := by
    funext types m
    simp only [addMessage, on_relativeName, includeUnsituatedDependencies_congr h]
  have hfile : (g.on m₁).addFile depth = (g.on m₂).addFile depth := by
    funext types file
    unfold addFile
    rw [hmessage]
    rfl
  unfold collectTypes
  rw [hfile]

theorem generatePackage_congr (orders₁ orders₂ : RangeOrders)
    (filesToGen : FileDescriptor → Bool) (pkg : PackageDescriptor) :
    (g.on m₁).generatePackage orders₁ depth filesToGen pkg
      = (g.on m₂).generatePackage orders₂ depth filesToGen pkg := by
  show (((g.enter pkg).on m₁).collectTypes depth _).bind
      (((g.enter pkg).on m₁).generateFile orders₁ depth pkg.toPackage)
    = (((g.enter pkg).on m₂).collectTypes depth _).bind
      (((g.enter pkg).on m₂).generateFile orders₂ depth pkg.toPackage)
  rw [collectTypes_congr h]
  congr 1
  funext types
  exact generateFile_congr h orders₁ orders₂ pkg.toPackage types

omit h in
/-- The pages of two models with the same packages and descriptors. -/
theorem generateOutput_rel (hsame : m₁.Same m₂) (orders₁ orders₂ : Bytes → RangeOrders)
    (filesToGen : FileDescriptor → Bool) :
    Option.Rel List.Perm ((g.on m₁).generateOutput orders₁ depth filesToGen)
      ((g.on m₂).generateOutput orders₂ depth filesToGen) := by
  have hpackage : (fun pkg => (g.on m₁).generatePackage (orders₁ pkg.name) depth filesToGen pkg)
      = fun pkg => (g.on m₂).generatePackage (orders₂ pkg.name) depth filesToGen pkg := by
    funext pkg
    exact generatePackage_congr hsame.lookup _ _ filesToGen pkg
  unfold generateOutput
  rw [hpackage]
  exact mapM_perm (hsame.packages.filter _) _

end

end Generator

/-! ### The response -/

section
variable (mode : OutputMode) (htmlStyle : Bytes) (orders₁ orders₂ : RunOrders) (depth : Nat)
  (request : CodeGeneratorRequest)

/-- The pages of two runs on one request. -/
theorem generate_rel (hnames : (request.protoFile.flatMap FileDescriptorProto.fullNames).Nodup) :
    Option.Rel List.Perm (generate mode htmlStyle orders₁ depth request)
      (generate mode htmlStyle orders₂ depth request) := by
  have hrel := newModel_rel orders₁.packages orders₂.packages request hnames
  unfold generate
  generalize newModel orders₁.packages request = o₁ at hrel ⊢
  generalize newModel orders₂.packages request = o₂ at hrel ⊢
  cases hrel with
  | none => exact .none
  | @some m₁ m₂ hsame =>
    simp only [Option.bind_eq_bind, Option.bind_some]
    split_ifs
    · exact Generator.generateOutput_rel (g := newHTMLGenerator m₁ mode htmlStyle) hsame
        orders₁.types orders₂.types _
    · exact .none

/-- The pages are made when the types are known and the depth is great enough. -/
theorem exists_generate {m : Model} (hmodel : newModel orders₁.packages request = some m)
    (hfiles : request.fileToGenerate ⊆ request.protoFile.map FileDescriptorProto.name)
    (htyped : ∀ pkg ∈ m.packages, WellTyped ((newHTMLGenerator m mode htmlStyle).enter pkg)
      (pkg.files.filter fun f => request.fileToGenerate.contains f.fileName)) :
    ∃ n, ∀ depth, n ≤ depth →
      ∃ pages, generate mode htmlStyle orders₁ depth request = some pages := by
  obtain ⟨n, hn⟩ := Generator.exists_depth orders₁.types htyped
  refine ⟨n, fun depth hle => ?_⟩
  have hall : request.fileToGenerate.all
      ((request.protoFile.map FileDescriptorProto.name).contains ·) = true :=
    List.all_eq_true.mpr fun name hname => List.contains_iff_mem.mpr (hfiles hname)
  unfold generate
  simp only [hmodel, Option.bind_eq_bind, Option.bind_some, hall, if_true]
  exact exists_mapM fun pkg hpkg => hn depth hle pkg (List.mem_of_mem_filter hpkg)

/-- The names and contents of the files do not depend on the orders in which maps are visited. -/
theorem response_order_free (markdown : Bytes → Bytes)
    (hnames : (request.protoFile.flatMap FileDescriptorProto.fullNames).Nodup) :
    Option.Rel List.Perm
      ((generate mode htmlStyle orders₁ depth request).map (responseFiles markdown))
      ((generate mode htmlStyle orders₂ depth request).map (responseFiles markdown)) := by
  have hrel := generate_rel mode htmlStyle orders₁ orders₂ depth request hnames
  generalize generate mode htmlStyle orders₁ depth request = o₁ at hrel ⊢
  generalize generate mode htmlStyle orders₂ depth request = o₂ at hrel ⊢
  cases hrel with
  | none => exact .none
  | some hperm => exact .some (hperm.map _)

end

namespace TwoPackages

/-- A message with one field, of the message type `typeName`. -/
def link (name field typeName : String) : DescriptorProto :=
  ⟨ascii name, false, [⟨ascii field, .message, ascii typeName, false, none, false⟩], [], []⟩

/-- Two packages with a message each, which refer to each other. -/
def request : CodeGeneratorRequest where
  protoFile :=
    [⟨ascii "a.proto", ascii "a", [link "A" "next" ".b.B"], [], [], []⟩,
     ⟨ascii "b.proto", ascii "b", [link "B" "back" ".a.A"], [], [], []⟩]
  fileToGenerate := [ascii "a.proto", ascii "b.proto"]
  names_nodup := by decide +kernel

def reversed : RangeOrder := ⟨List.reverse, List.reverse_perm⟩

def forth : RunOrders := ⟨.same, fun _ => .same⟩

def back : RunOrders := ⟨reversed, fun _ => ⟨reversed, reversed, reversed⟩⟩

end TwoPackages

open TwoPackages in
/-- The packages come in another order, with the same files. -/
theorem response_two_packages :
    (request.protoFile.flatMap FileDescriptorProto.fullNames).Nodup ∧
      (generate .htmlFragment [] forth 4 request).map (·.map Page.name)
        = some [ascii "b.pb.html", ascii "a.pb.html"] ∧
      (generate .htmlFragment [] back 4 request).map (·.map Page.name)
        = some [ascii "a.pb.html", ascii "b.pb.html"] ∧
      Option.Rel List.Perm
        ((generate .htmlFragment [] forth 4 request).map (responseFiles id))
        ((generate .htmlFragment [] back 4 request).map (responseFiles id)) :=
  ⟨by decide +kernel, by decide +kernel, by decide +kernel,
    response_order_free .htmlFragment [] forth back 4 request id (by decide +kernel)⟩

end IstioVendor.ProtocGenDocs
