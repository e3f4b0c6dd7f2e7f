import IstioVendor.Ui.DataDir

/-!
# `IstioVendor.Proofs.Ui.DataDir`: the results and their index

A text that has the extension and no slash is the name of a file (`isName_of_isJson`).

`results` are the files that `dataList` lists, as names of files: each result in the directory once
(`mem_results`, `nodup_results`). The index has one line for each of them, with the size and the
digest of what the file holds (`tsvIndex_eq`). The URL that a request gives to the index ends with a
slash (`urlPrefix_endsWith_slash`).
-/

set_option autoImplicit false

namespace IstioVendor.Ui

open Lib

/-- A text without slashes that has the extension is the name of a file. -/
theorem isName_of_isJson {name : Bytes} (hslash : slash ∉ name) (hjson : isJson name = true) :
    IsName name := by
  have hlen : 5 ≤ name.length := (List.isSuffixOf_iff_suffix.mp hjson).length_le
  refine ⟨hslash, ?_, ?_, ?_⟩
  all_goals
    rintro rfl
    exact absurd hlen (by decide)

section
variable {files : Files} {dir : FilePath} {name : FileName}

/-- The results in the directory, in the order of the index. -/
def results (files : Files) (dir : FilePath) : List FileName :=
  (files.names dir).reverse.filter fun name => isJson name.bytes

theorem mem_results :
    name ∈ results files dir ↔ isJson name.bytes = true ∧ (files.read (dir ++ [name])).isSome := by
  rw [results, List.mem_filter, List.mem_reverse, Files.mem_names, Option.isSome_iff_exists]
  exact And.comm

theorem nodup_results (files : Files) (dir : FilePath) : (results files dir).Nodup :=
  (List.nodup_reverse.mpr Files.nodup_names).filter _

/-- The extension is taken off a name and put back. -/
theorem take_append_jsonExt {bytes : Bytes} (h : isJson bytes = true) :
    bytes.take (bytes.length - jsonExt.length) ++ jsonExt = bytes := by
  obtain ⟨stem, rfl⟩ := List.isSuffixOf_iff_suffix.mp h
  rw [List.length_append, Nat.add_sub_cancel, List.take_left]

theorem dataList_eq (files : Files) (dir : FilePath) :
    dataList (some dir) files
      = (results files dir).map fun name =>
          name.bytes.take (name.bytes.length - jsonExt.length) := by
  rw [dataList, results]
  induction (files.names dir).reverse with
  | nil => rfl
  | cons name names ih =>
    by_cases hjson : isJson name.bytes = true
    · rw [List.filterMap_cons, if_pos hjson, List.filter_cons, if_pos hjson, List.map_cons, ih]
    · rw [List.filterMap_cons, if_neg hjson, List.filter_cons, if_neg hjson, ih]

/-- What a file holds, nothing when it is not there. -/
def contentOf (files : Files) (dir : FilePath) (name : FileName) : Bytes :=
  (files.read (dir ++ [name])).getD []

/-- The index has a line for each result. -/
theorem tsvIndex_eq (md5 : Bytes → Digest) (dir : FilePath) (files : Files) (urlPrefix : Bytes) :
    tsvIndex md5 dir files urlPrefix = tsvHeader ++ [newline] ++ (results files dir).flatMap
      fun name => tsvLine md5 urlPrefix name.bytes (contentOf files dir name) := by
  rw [tsvIndex, dataList_eq, List.flatMap_map]
  congr 1
  refine List.flatMap_congr fun name hname => ?_
  obtain ⟨hjson, hsome⟩ := mem_results.mp hname
  obtain ⟨content, hread⟩ := Option.isSome_iff_exists.mp hsome
  rw [take_append_jsonExt hjson, FilePath.join_name, contentOf, hread]
  rfl

end

/-- A digest that is the same for all contents. -/
def zeroMd5 (_ : Bytes) : Digest := ⟨List.replicate 16 0, List.length_replicate⟩

variable {r : DataRequest}

/-- The index is asked for below a path that ends with a slash, or has the base URL. -/
theorem urlPrefix_endsWith_slash (h : (ascii "/index.tsv").isSuffixOf r.path = true) :
    r.urlPrefix.getLast? = some slash := by
  unfold DataRequest.urlPrefix
  by_cases hbase : r.baseURL.length = 0
  · obtain ⟨stem, hstem⟩ := List.isSuffixOf_iff_suffix.mp h
    have htake : r.path.take (r.path.length - (ascii "/index.tsv").length + 1)
        = stem ++ [slash] := by
      rw [← hstem, List.length_append, Nat.add_sub_cancel, List.take_append,
        List.take_of_length_le (Nat.le_succ _), Nat.add_sub_cancel_left]
      rfl
    rw [if_pos hbase, htake, ← List.append_assoc, List.getLast?_concat]
  · have hdata : ascii "data/" = ascii "data" ++ [slash] := by decide
    rw [if_neg hbase, hdata, ← List.append_assoc, List.getLast?_concat]

/-- The data handler lets a request for a JSON file through to the file server. Such a path is not
that of an index. -/
theorem dataHandler_of_isJson (md5 : Bytes → Digest) (dir : FilePath) (dirTime : Option Nat)
    (files : Files) (cache : TsvCache) (h : isJson r.path = true) :
    dataHandler md5 dir dirTime files cache r
      = (cache, .file (serveFile dir files (r.path.drop (r.uiPath ++ ascii "data").length))) := by
  obtain ⟨stem, hstem⟩ := List.isSuffixOf_iff_suffix.mp h
  have hlast : ∀ s : Bytes, s.getLast? ≠ some 110 → s ≠ [] → s.isSuffixOf r.path = false := by
    intro s hs hne
    by_contra hsuffix
    obtain ⟨t, ht⟩ := List.isSuffixOf_iff_suffix.mp (Bool.of_not_eq_false hsuffix)
    refine hs ?_
    rw [← List.getLast?_append_of_ne_nil t hne, ht, ← hstem, List.getLast?_append_of_ne_nil]
    · decide
    · decide
  rw [dataHandler, hlast (ascii "/") (by decide) (by decide),
    hlast (ascii "/index.html") (by decide) (by decide),
    hlast (ascii "/index.tsv") (by decide) (by decide), h]
  rfl

end IstioVendor.Ui
