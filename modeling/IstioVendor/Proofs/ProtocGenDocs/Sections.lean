import IstioVendor.Proofs.ProtocGenDocs.Pages

/-!
# `IstioVendor.Proofs.ProtocGenDocs.Sections`: every type is documented once

Each type that is selected for a page and is not left out should have one section, and no two
sections should have the same `id` (`DocumentedOnce`). The types are kept in maps under the name
they have on the page, which is without the package for the types of the current package. The
names of different types can be the same, also when all full names are different: a message `C`
in a message `b` of the current package, and a message `C` of a package `b`. Then one of them is
lost. An enum and a message with one name are in different maps, and the enum gets two sections.

`documentedOnce_iff` says for which selections everything is right.
-/

set_option autoImplicit false

namespace IstioVendor.ProtocGenDocs

open Lib

/-! ### The sections of a page -/

/-- The start of a section: what it is about, and its `id`. -/
def Piece.sections : Piece → List (CoreDesc × Bytes)
  | .heading desc id => [(desc, id)]
  | _ => []

def Page.sections (p : Page) : List (CoreDesc × Bytes) := p.content.flatMap Piece.sections

theorem ignoresText_sections : IgnoresText Piece.sections := fun _ => rfl

/-- A descriptor that has a section of its own. -/
def CoreDesc.IsSection : CoreDesc → Prop
  | .service _ | .enum _ | .message _ => True
  | _ => False

section
variable {g : Generator} {orders : RangeOrders} {types : Types} {pkg : Package} {page : Page}
  {depth : Nat} {desc : CoreDesc}

theorem isSection_of_documented (h : desc ∈ documented orders types) : desc.IsSection := by
  rw [documented, List.mem_append, List.mem_filterMap, List.mem_filterMap] at h
  rcases h with ⟨k, -, h⟩ | ⟨k, -, h⟩
  · obtain ⟨s, -, rfl⟩ := Option.map_eq_some_iff.mp h
    trivial
  · unfold typeAt at h
    split at h
    · cases h
      trivial
    · obtain ⟨m, -, rfl⟩ := Option.map_eq_some_iff.mp h
      trivial

namespace Generator

theorem sections_comment (loc : Option Location) :
    (g.generateComment loc).flatMap Piece.sections = [] := by
  rw [generateComment_eq]
  split_ifs <;> rfl

theorem sections_sectionView (h : desc.IsSection) :
    g.sectionView depth Piece.sections desc = [(desc, g.relativeName desc.base)] := by
  have hfield : ∀ field, g.fieldView depth Piece.sections field = [] := by
    intro field
    rw [fieldView, sections_comment, List.append_nil]
    simp [Piece.sections]
  cases desc with
  | service s => simp [sectionView, serviceView, sections_comment, Piece.sections]; rfl
  | enum e => simp [sectionView, enumView, sections_comment, Piece.sections]; rfl
  | message m => simp [sectionView, messageView, sections_comment, Piece.sections, hfield]; rfl
  | field | enumValue | method => exact h.elim

/-- A page has a section for each thing that is documented. -/
theorem sections_generateFile (h : g.generateFile orders depth pkg types = some page) :
    page.sections = (documented orders types).map fun d => (d, g.relativeName d.base) := by
  rw [Page.sections, view_generateFile ignoresText_sections h, sections_comment, List.nil_append,
    List.map_eq_flatMap]
  refine List.flatMap_congr fun d hd => ?_
  exact sections_sectionView (isSection_of_documented hd)

/-- The names of what is documented are those of the two lists. -/
theorem Selects.names_documented {files : List FileDescriptor} (hsel : g.Selects files types) :
    (documented orders types).map (fun d => g.relativeName d.base)
      = serviceList orders types ++ typeList orders types := by
  rw [documented, List.map_append, List.map_filterMap, List.map_filterMap]
  congr 1
  · refine (List.filterMap_congr fun k hk => ?_).trans List.filterMap_some
    obtain ⟨s, hs, -⟩ := mem_serviceList.mp hk
    rw [serviceAt, hs]
    exact congrArg some (hsel.serviceName_eq hs)
  · refine (List.filterMap_congr fun k hk => ?_).trans List.filterMap_some
    rw [typeAt]
    cases he : types.enums.lookup k with
    | some e => exact congrArg some (hsel.enumName_eq he)
    | none =>
      rcases mem_typeList.mp hk with ⟨e, he', -⟩ | ⟨m, hm, -⟩
      · rw [he] at he'
        cases he'
      · rw [hm]
        exact congrArg some (hsel.messageName_eq hm)

end Generator

end

/-! ### Documented once -/

/-- There is exactly one section about `desc`. -/
def Page.HasOneSection (p : Page) (desc : CoreDesc) : Prop :=
  ∃! j : Nat, ∃ id, p.sections[j]? = some (desc, id)

/-- What is selected and not left out has one section, and the sections have different ids. -/
structure DocumentedOnce (g : Generator) (files : List FileDescriptor) (page : Page) : Prop where
  messages : ∀ m ∈ g.selectedMessages files, showsMessage m = true → page.HasOneSection (.message m)
  enums : ∀ e ∈ g.selectedEnums files, showsEnum e = true → page.HasOneSection (.enum e)
  services : ∀ s ∈ Generator.selectedServices files, showsService s = true →
    page.HasOneSection (.service s)
  ids : (page.sections.map Prod.snd).Nodup

/-- What is not left out is kept under its name, and no two things of different kinds share a
name. An enum that is left out is in the way of a message, too. -/
structure NamesApart (g : Generator) (files : List FileDescriptor) : Prop where
  messages : ∀ m ∈ g.selectedMessages files, showsMessage m = true →
    firstNamed g.messageName (g.messageName m) (g.selectedMessages files) = some m ∧
      ∀ e ∈ g.selectedEnums files, g.enumName e ≠ g.messageName m
  enums : ∀ e ∈ g.selectedEnums files, showsEnum e = true →
    firstNamed g.enumName (g.enumName e) (g.selectedEnums files) = some e
  services : ∀ s ∈ Generator.selectedServices files, showsService s = true →
    firstNamed g.serviceName (g.serviceName s) (Generator.selectedServices files) = some s
  service_message : ∀ s ∈ Generator.selectedServices files, showsService s = true →
    ∀ m ∈ g.selectedMessages files, showsMessage m = true → g.messageName m ≠ g.serviceName s
  service_enum : ∀ s ∈ Generator.selectedServices files, showsService s = true →
    ∀ e ∈ g.selectedEnums files, showsEnum e = true → g.enumName e ≠ g.serviceName s

variable {desc : CoreDesc}

section
variable {g : Generator} {files : List FileDescriptor} {orders : RangeOrders} {types : Types}
  {page : Page}

section
variable (hsections : page.sections = (documented orders types).map fun d => (d, g.relativeName d.base))
include hsections

/-- When the ids are different, what is documented has one section. -/
theorem hasOneSection (hids : (page.sections.map Prod.snd).Nodup)
    (h : desc ∈ documented orders types) : page.HasOneSection desc := by
  obtain ⟨j, hj⟩ := List.mem_iff_getElem?.mp h
  have hid : ∀ (j' : Nat) (id : Bytes), page.sections[j']? = some (desc, id) →
      id = g.relativeName desc.base := by
    intro j' id hj'
    rw [hsections, List.getElem?_map] at hj'
    obtain ⟨d, -, hd⟩ := Option.map_eq_some_iff.mp hj'
    obtain ⟨rfl, rfl⟩ := Prod.mk.injEq .. ▸ hd
    rfl
  refine ⟨j, ⟨g.relativeName desc.base, by rw [hsections, List.getElem?_map, hj]; rfl⟩, ?_⟩
  rintro j' ⟨id, hj'⟩
  have hj'' : (page.sections.map Prod.snd)[j']? = some (g.relativeName desc.base) := by
    rw [List.getElem?_map, hj', hid j' id hj']
    rfl
  have hlt : j' < (page.sections.map Prod.snd).length := (List.getElem?_eq_some_iff.mp hj'').1
  refine (List.getElem?_inj hlt hids).mp (hj''.trans ?_)
  rw [hsections, List.getElem?_map, List.getElem?_map, hj]
  rfl

theorem mem_documented_of_hasOneSection (h : page.HasOneSection desc) :
    desc ∈ documented orders types := by
  obtain ⟨j, ⟨id, hj⟩, -⟩ := h
  rw [hsections, List.getElem?_map] at hj
  obtain ⟨d, hd, heq⟩ := Option.map_eq_some_iff.mp hj
  obtain rfl : d = desc := congrArg Prod.fst heq
  exact List.mem_of_getElem? hd

theorem ids_eq (hsel : g.Selects files types) :
    page.sections.map Prod.snd = serviceList orders types ++ typeList orders types := by
  rw [hsections, List.map_map]
  exact hsel.names_documented

end

/-- The names are apart when everything is documented once. -/
theorem DocumentedOnce.namesApart (h : DocumentedOnce g files page)
    (hsections : page.sections = (documented orders types).map fun d => (d, g.relativeName d.base))
    (hsel : g.Selects files types) : NamesApart g files := by
  have hids := h.ids
  rw [ids_eq hsections hsel, List.nodup_append] at hids
  -- What has a section is in the map under its own name.
  have hmessage : ∀ m ∈ g.selectedMessages files, showsMessage m = true →
      types.messages.lookup (g.messageName m) = some m ∧
        types.enums.lookup (g.messageName m) = none := by
    intro m hm hshows
    obtain ⟨k, hk, -, he⟩ := message_mem_documented.mp
      (mem_documented_of_hasOneSection hsections (h.messages m hm hshows))
    rw [hsel.messageName_eq hk]
    exact ⟨hk, he⟩
  have henum : ∀ e ∈ g.selectedEnums files, showsEnum e = true →
      types.enums.lookup (g.enumName e) = some e := by
    intro e he hshows
    obtain ⟨k, hk, -⟩ := enum_mem_documented.mp
      (mem_documented_of_hasOneSection hsections (h.enums e he hshows))
    rwa [hsel.enumName_eq hk]
  have hservice : ∀ s ∈ Generator.selectedServices files, showsService s = true →
      types.services.lookup (g.serviceName s) = some s := by
    intro s hs hshows
    obtain ⟨k, hk, -⟩ := service_mem_documented.mp
      (mem_documented_of_hasOneSection hsections (h.services s hs hshows))
    rwa [hsel.serviceName_eq hk]
  constructor
  · intro m hm hshows
    obtain ⟨hkept, he⟩ := hmessage m hm hshows
    rw [hsel.messages] at hkept
    rw [hsel.enums] at he
    exact ⟨hkept, firstNamed_eq_none.mp he⟩
  · intro e he hshows
    exact (hsel.enums _).symm.trans (henum e he hshows)
  · intro s hs hshows
    exact (hsel.services _).symm.trans (hservice s hs hshows)
  · -- A service and a type of one name would be two sections with one ID.
    intro s hs hshows m hm hshown heq
    have hin : g.serviceName s ∈ serviceList orders types :=
      mem_serviceList.mpr ⟨s, hservice s hs hshows, hshows⟩
    have hin' : g.messageName m ∈ typeList orders types :=
      mem_typeList.mpr (.inr ⟨m, (hmessage m hm hshown).1, hshown⟩)
    exact hids.2.2 _ hin _ hin' heq.symm
  · intro s hs hshows e he hshown heq
    have hin : g.serviceName s ∈ serviceList orders types :=
      mem_serviceList.mpr ⟨s, hservice s hs hshows, hshows⟩
    have hin' : g.enumName e ∈ typeList orders types :=
      mem_typeList.mpr (.inl ⟨e, henum e he hshown, hshown⟩)
    exact hids.2.2 _ hin _ hin' heq.symm

/-- Everything is documented once when the names are apart. -/
theorem NamesApart.documentedOnce (h : NamesApart g files)
    (hsections : page.sections = (documented orders types).map fun d => (d, g.relativeName d.base))
    (hsel : g.Selects files types) : DocumentedOnce g files page := by
  have hids : (page.sections.map Prod.snd).Nodup := by
    rw [ids_eq hsections hsel, List.nodup_append]
    refine ⟨nodup_serviceList, nodup_typeList.mpr fun k e m he hshows hm => ?_, ?_⟩
    · -- A message that is not left out would have the name of an enum.
      by_contra hshown
      have hmem := mem_of_firstNamed ((hsel.messages k).symm.trans hm)
      have hmem' := mem_of_firstNamed ((hsel.enums k).symm.trans he)
      exact (h.messages m hmem (by simpa using hshown)).2 e hmem'
        ((hsel.enumName_eq he).trans (hsel.messageName_eq hm).symm)
    · rintro k hk k' hk' rfl
      obtain ⟨s, hs, hshows⟩ := mem_serviceList.mp hk
      have hmem := mem_of_firstNamed ((hsel.services k).symm.trans hs)
      have hname := hsel.serviceName_eq hs
      rcases mem_typeList.mp hk' with ⟨e, he, hshown⟩ | ⟨m, hm, hshown⟩
      · exact h.service_enum s hmem hshows e (mem_of_firstNamed ((hsel.enums k).symm.trans he))
          hshown ((hsel.enumName_eq he).trans hname.symm)
      · exact h.service_message s hmem hshows m
          (mem_of_firstNamed ((hsel.messages k).symm.trans hm)) hshown
          ((hsel.messageName_eq hm).trans hname.symm)
  refine ⟨fun m hm hshows => ?_, fun e he hshows => ?_, fun s hs hshows => ?_, hids⟩
  · obtain ⟨hkept, hother⟩ := h.messages m hm hshows
    refine hasOneSection hsections hids (message_mem_documented.mpr
      ⟨g.messageName m, (hsel.messages _).trans hkept, hshows, ?_⟩)
    exact (hsel.enums _).trans (firstNamed_eq_none.mpr hother)
  · exact hasOneSection hsections hids (enum_mem_documented.mpr
      ⟨g.enumName e, (hsel.enums _).trans (h.enums e he hshows), .inl hshows⟩)
  · exact hasOneSection hsections hids (service_mem_documented.mpr
      ⟨g.serviceName s, (hsel.services _).trans (h.services s hs hshows), hshows⟩)

end

/-- Every type of a page is documented once exactly when what is not left out is kept under its
name. The page is made when the types of the fields are known. -/
theorem documentedOnce_iff (g : Generator) (orders : RangeOrders)
    (filesToGen : FileDescriptor → Bool) (pkg : PackageDescriptor) :
    (∀ depth page, g.generatePackage orders depth filesToGen pkg = some page →
      (DocumentedOnce (g.enter pkg) (pkg.files.filter filesToGen) page ↔
        NamesApart (g.enter pkg) (pkg.files.filter filesToGen))) ∧
    (WellTyped (g.enter pkg) (pkg.files.filter filesToGen) →
      ∃ n, ∀ depth, n ≤ depth →
        ∃ page, g.generatePackage orders depth filesToGen pkg = some page) := by
  refine ⟨fun depth page hpage => ?_, Generator.exists_generatePackage orders⟩
  obtain ⟨types, htypes, hfile⟩ := Option.bind_eq_some_iff.mp hpage
  have hsel := Generator.selects_of_collectTypes htypes
  have hsections := Generator.sections_generateFile hfile
  exact ⟨fun h => h.namesApart hsections hsel, fun h => h.documentedOnce hsections hsel⟩

/-! ### Two messages with one name -/

namespace Clash

def pkgA : Package := .placed "a" "a.html"
def pkgB : Package := .placed "b" ""
def fileA : File := .ofPackage pkgA "a.proto"
def fileB : File := .ofPackage pkgB "b.proto"

/-- `a.X` has a field of the type `b.C`, and there is a message `a.b.C`. -/
def a : PackageDescriptor where
  toPackage := pkgA
  files := [⟨fileA, [.flat (.bare fileA ["X"]) [.ofMessage (.bare fileA ["X", "c"]) ".b.C"],
    ⟨.bare fileA ["b"], false, [], [.flat (.bare fileA ["b", "C"]) []], []⟩], [], []⟩]

def b : PackageDescriptor where
  toPackage := pkgB
  files := [⟨fileB, [.flat (.bare fileB ["C"]) []], [], []⟩]

def generator : Generator := ⟨.ofPackages [a, b], .htmlPage, [], pkgA, false⟩

end Clash

open Clash in
/-- The message `C` of the package `b` is on the page of the package `a` as `b.C`. This is also
the name of the message `C` in the message `b`, and only this one has a section. -/
theorem clash_undocumented :
    ([a, b].flatMap fun pkg => pkg.files.flatMap FileDescriptor.fullNames).Nodup ∧
      ∃ page, generator.generatePackage .same 2 (fun _ => true) a = some page ∧
        ¬ DocumentedOnce (generator.enter a) (a.files.filter fun _ => true) page := by
  refine ⟨by decide +kernel, ?_⟩
  have hpage : (generator.generatePackage .same 2 (fun _ => true) a).any (fun page =>
      page.sections.all fun s => s.1.base.file = fileA) = true := by
    decide +kernel
  obtain ⟨page, hpage, hall⟩ := (Option.any_eq_true _ _).mp hpage
  refine ⟨page, hpage, fun h => ?_⟩
  have hselected : ((generator.enter a).selectedMessages (a.files.filter fun _ => true)).any
      (fun m => m.file = fileB && showsMessage m) = true := by
    decide +kernel
  obtain ⟨m, hm, hfile⟩ := List.any_eq_true.mp hselected
  rw [Bool.and_eq_true, decide_eq_true_eq] at hfile
  obtain ⟨j, ⟨id, hj⟩, -⟩ := h.messages m hm hfile.2
  have hsame := List.all_eq_true.mp hall _ (List.mem_of_getElem? hj)
  rw [decide_eq_true_eq] at hsame
  have hother : m.file = fileA := hsame
  rw [hfile.1] at hother
  exact absurd hother (by decide +kernel)

end IstioVendor.ProtocGenDocs
