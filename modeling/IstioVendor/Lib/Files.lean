import Mathlib.Data.List.Sort
import IstioVendor.Lib.Text
import IstioVendor.Lib.Writes

/-!
# `IstioVendor.Lib.Files`: paths and files

A `FileName` is the name of an entry of a directory, and a path is the list of the names from the
root on. `FilePath.join` enters the parts of a relative path one after the other: an empty part and
`.` stay, `..` goes up. A single name leads to a child of the directory (`FilePath.join_name`).

`Files` is what a file system without links holds: a content for each path of a file. A write
changes one path (`Files.read_write`), and `Files.writeFile` is a write that may fail, with or
without a part of the content in the file. `Files.names` are the names of the files in a directory,
sorted, each one once (`Files.mem_names`, `Files.nodup_names`).
-/

set_option autoImplicit false

namespace IstioVendor.Lib

/-! ### Names and paths -/

/-- The bytes name an entry of a directory. -/
def IsName (name : Bytes) : Prop :=
  slash ∉ name ∧ name ≠ [] ∧ name ≠ [dot] ∧ name ≠ [dot, dot]

instance decidableIsName (name : Bytes) : Decidable (IsName name) :=
  inferInstanceAs (Decidable (_ ∧ _))

/-- The name of a file or a directory. -/
structure FileName where
  bytes : Bytes
  valid : IsName bytes
deriving DecidableEq

namespace FileName

theorem eq_of_bytes {a b : FileName} (h : a.bytes = b.bytes) : a = b := by
  cases a
  cases b
  cases h
  rfl

/-- Names are sorted by their bytes. -/
def le (a b : FileName) : Prop := a.bytes ≤ b.bytes

instance decidableLe : DecidableRel le := fun a b => inferInstanceAs (Decidable (a.bytes ≤ b.bytes))

end FileName

/-- The path of a file or a directory. -/
abbrev FilePath := List FileName

namespace FilePath

/-- One part of a relative path. -/
def enter (dir : FilePath) (part : Bytes) : FilePath :=
  if h : IsName part then dir ++ [⟨part, h⟩]
  else if part = [dot, dot] then dir.dropLast
  else dir

/-- `path.Join` of a directory and a relative path. -/
def join (dir : FilePath) (rel : Bytes) : FilePath := (rel.splitOn slash).foldl enter dir

theorem join_name (dir : FilePath) (name : FileName) : join dir name.bytes = dir ++ [name] := by
  rw [join, List.splitOn_eq_singleton name.valid.1, List.foldl_cons, List.foldl_nil, enter,
    dif_pos name.valid]

end FilePath

/-! ### Files -/

/-- The contents of the files. -/
abbrev Files := AList fun _ : FilePath => Bytes

namespace Files

/-- The content of a file, `none` when there is no such file. -/
def read (files : Files) (path : FilePath) : Option Bytes := files.lookup path

/-- The file is created or replaced. -/
def write (files : Files) (path : FilePath) (content : Bytes) : Files := files.insert path content

theorem read_write (files : Files) (path path' : FilePath) (content : Bytes) :
    (files.write path content).read path' = if path = path' then some content
      else files.read path' :=
  lookup_insert_eq files path path' content

/-- How a write ends: with the file as it should be, before the file was opened, or in the middle,
when the file has some bytes of the content. -/
inductive WriteOutcome where
  | done
  | refused
  | cut (n : Nat)
deriving DecidableEq

/-- `ioutil.WriteFile`: the files after it, and whether there was no error. -/
def writeFile (files : Files) (outcome : WriteOutcome) (path : FilePath) (content : Bytes) :
    Files × Bool :=
  match outcome with
  | .done => (files.write path content, true)
  | .refused => (files, false)
  | .cut n => (files.write path (content.take n), false)

/-- The name of a file if it is in the directory. -/
def nameIn (dir : FilePath) (path : FilePath) : Option FileName :=
  if path.dropLast = dir then path.getLast? else none

theorem nameIn_eq_some {dir path : FilePath} {name : FileName} :
    nameIn dir path = some name ↔ path = dir ++ [name] := by
  unfold nameIn
  constructor
  · intro h
    split_ifs at h with hdir
    rw [← hdir]
    exact (List.dropLast_append_getLast? name h).symm
  · rintro rfl
    rw [List.dropLast_concat, if_pos rfl, List.getLast?_concat]

/-- The names of the files in a directory, sorted. -/
def names (files : Files) (dir : FilePath) : List FileName :=
  (files.keys.filterMap (nameIn dir)).insertionSort FileName.le

section
variable {files : Files} {dir path : FilePath} {name : FileName} {content : Bytes}

theorem mem_names :
    name ∈ files.names dir ↔ ∃ content, files.read (dir ++ [name]) = some content := by
  rw [names, (List.perm_insertionSort _ _).mem_iff, List.mem_filterMap]
  constructor
  · rintro ⟨path, hkey, hname⟩
    rw [nameIn_eq_some] at hname
    subst hname
    exact Option.isSome_iff_exists.mp (AList.lookup_isSome.mpr hkey)
  · rintro ⟨content, hread⟩
    exact ⟨_, AList.lookup_isSome.mp (Option.isSome_iff_exists.mpr ⟨content, hread⟩),
      nameIn_eq_some.mpr rfl⟩

theorem nodup_names : (files.names dir).Nodup := by
  rw [names, (List.perm_insertionSort _ _).nodup_iff]
  refine files.keys_nodup.filterMap fun path path' name hpath hpath' => ?_
  rw [Option.mem_def, nameIn_eq_some] at hpath hpath'
  rw [hpath, hpath']

end

end Files

end IstioVendor.Lib
