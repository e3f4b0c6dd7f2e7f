import IstioVendor.Proofs.Periodic.ResultId
import IstioVendor.Proofs.Ui.DataDir

/-!
# `IstioVendor.Proofs.Ui.Saves`: saved results that are lost

The handler saves the result of a run under its ID. `saveRuns` saves the results of runs that have
completed one after the other, with all writes succeeding, and returns the paths that `SaveJSON`
gave. No result is lost when these are paths of different files and each file still has its result
at the end (`NoResultLost`).

An ID is the name of a file in the directory, so a save is a write to `resultFile`. What is lost is
decided by the IDs alone. `noResultLost_iff` says when: of any two runs, the second has another
start time, in seconds, or other words in its labels, as far as they are kept. `SaveJSON` does not
look whether the file is there. Two runs without labels that start in the same second are enough
(`two_runs_in_one_second`), and the UI runs tests in parallel.
-/

set_option autoImplicit false

namespace IstioVendor.Ui

open Lib
open Periodic (StartTime resultID formatDate tag slash_notMem_resultID resultID_eq_iff)

/-! ### Names of results -/

/-- A completed run: what the ID is made of, and the result in JSON. -/
structure CompletedRun where
  startTime : StartTime
  labels : Bytes
  json : Bytes

namespace CompletedRun

/-- The name that the handler gives to `SaveJSON`. -/
def id (r : CompletedRun) : Bytes := resultID r.startTime r.labels

theorem isName_id (r : CompletedRun) : IsName (r.id ++ jsonExt) := by
  have hslash : slash ∉ r.id := slash_notMem_resultID r.startTime r.labels
  have hext : slash ∉ jsonExt := by decide
  exact isName_of_isJson (by simp [hslash, hext])
    (List.isSuffixOf_iff_suffix.mpr (List.suffix_append _ _))

/-- The file that the result is saved in. -/
def resultFile (dir : FilePath) (r : CompletedRun) : FilePath :=
  dir ++ [⟨r.id ++ jsonExt, r.isName_id⟩]

/-- The runs started in the same second, and the IDs keep the same of their words. -/
def SameName (r r' : CompletedRun) : Prop :=
  r.startTime = r'.startTime ∧
    (tag r.labels).take (64 - (formatDate r.startTime).length)
      = (tag r'.labels).take (64 - (formatDate r.startTime).length)

theorem resultFile_eq_iff (dir : FilePath) (r r' : CompletedRun) :
    r.resultFile dir = r'.resultFile dir ↔ SameName r r' := by
  rw [SameName, ← resultID_eq_iff]
  constructor
  · intro h
    have hname := List.head_eq_of_cons_eq (List.append_cancel_left h)
    exact List.append_cancel_right (congrArg FileName.bytes hname)
  · intro h
    have hid : r.id = r'.id := h
    unfold resultFile
    congr 2
    exact FileName.eq_of_bytes (congrArg (· ++ jsonExt) hid)

end CompletedRun

/-! ### Saving runs one after the other -/

/-- The results are saved in the order of the list: the files at the end, and the paths that
`SaveJSON` returned. -/
def saveRuns (dir : FilePath) : Files → List CompletedRun → Files × List Bytes
  | files, [] => (files, [])
  | files, r :: runs =>
    let (files', path) := saveJSON (some dir) files .done r.id r.json
    let (files'', paths) := saveRuns dir files' runs
    (files'', path :: paths)

/-- The file that the data handler serves for a path from the UI. -/
def servedFile (dir : FilePath) (path : Bytes) : FilePath :=
  dir ++ FilePath.join [] (path.drop (ascii "data").length)

/-- Each path leads to a file of its own, and each file has the result that was saved in it. -/
structure NoResultLost (dir : FilePath) (files : Files) (runs : List CompletedRun) : Prop where
  distinct : ((saveRuns dir files runs).2.map (servedFile dir)).Nodup
  readable : ∀ saved ∈ runs.zip (saveRuns dir files runs).2,
    serveFile dir (saveRuns dir files runs).1 (saved.2.drop (ascii "data").length)
      = some saved.1.json

section
variable {dir : FilePath} {files : Files} {r : CompletedRun} {runs : List CompletedRun}
  {path : FilePath}

/-- A save writes the file of the result. -/
theorem saveJSON_id (dir : FilePath) (files : Files) (r : CompletedRun) :
    saveJSON (some dir) files .done r.id r.json
      = (files.write (r.resultFile dir) r.json, ascii "data/" ++ (r.id ++ jsonExt)) := by
  have hjoin : dir.join (r.id ++ jsonExt) = r.resultFile dir :=
    FilePath.join_name dir ⟨r.id ++ jsonExt, r.isName_id⟩
  simp only [saveJSON, Files.writeFile, hjoin]

theorem servedFile_id (dir : FilePath) (r : CompletedRun) :
    servedFile dir (ascii "data/" ++ (r.id ++ jsonExt)) = r.resultFile dir := by
  exact congrArg (dir ++ ·) (FilePath.join_name [] ⟨r.id ++ jsonExt, r.isName_id⟩)

theorem saveRuns_paths (dir : FilePath) (files : Files) (runs : List CompletedRun) :
    (saveRuns dir files runs).2 = runs.map fun r => ascii "data/" ++ (r.id ++ jsonExt) := by
  induction runs generalizing files with
  | nil => rfl
  | cons r runs ih =>
    simp only [saveRuns, saveJSON_id, List.map_cons]
    rw [ih]

/-- A file that no run is saved in stays. -/
theorem read_saveRuns_of_notMem (h : path ∉ runs.map (CompletedRun.resultFile dir)) :
    (saveRuns dir files runs).1.read path = files.read path := by
  induction runs generalizing files with
  | nil => rfl
  | cons r runs ih =>
    rw [List.map_cons, List.mem_cons, not_or] at h
    simp only [saveRuns, saveJSON_id]
    rw [ih h.2, Files.read_write, if_neg fun heq => h.1 heq.symm]

/-- With a file of its own, each run finds its result at the end. -/
theorem read_saveRuns (hnodup : (runs.map (CompletedRun.resultFile dir)).Nodup) (hr : r ∈ runs) :
    (saveRuns dir files runs).1.read (r.resultFile dir) = some r.json := by
  induction runs generalizing files with
  | nil => cases hr
  | cons r' runs ih =>
    rw [List.map_cons, List.nodup_cons] at hnodup
    rcases List.mem_cons.mp hr with rfl | hr
    · simp only [saveRuns, saveJSON_id]
      rw [read_saveRuns_of_notMem hnodup.1, Files.read_write, if_pos rfl]
    · simp only [saveRuns]
      exact ih hnodup.2 hr

theorem servedFile_paths (dir : FilePath) (files : Files) (runs : List CompletedRun) :
    (saveRuns dir files runs).2.map (servedFile dir) = runs.map (CompletedRun.resultFile dir) := by
  rw [saveRuns_paths, List.map_map]
  exact List.map_congr_left fun r _ => servedFile_id dir r

end

/-- No result is lost when no two runs have one name. -/
theorem noResultLost_iff (dir : FilePath) (files : Files) (runs : List CompletedRun) :
    NoResultLost dir files runs ↔ runs.Pairwise fun r r' => ¬ CompletedRun.SameName r r' := by
  have hnames : (runs.map (CompletedRun.resultFile dir)).Nodup
      ↔ runs.Pairwise fun r r' => ¬ CompletedRun.SameName r r' := by
    rw [List.Nodup, List.pairwise_map]
    exact List.Pairwise.iff fun r r' => not_congr (CompletedRun.resultFile_eq_iff dir r r')
  rw [← hnames, ← servedFile_paths dir files runs]
  constructor
  · intro h
    exact h.distinct
  · intro hnodup
    refine ⟨hnodup, fun saved hsaved => ?_⟩
    rw [servedFile_paths] at hnodup
    have hzip : runs.zip (runs.map fun r => ascii "data/" ++ (r.id ++ jsonExt))
        = runs.map fun r => (r, ascii "data/" ++ (r.id ++ jsonExt)) := by
      rw [← List.zip_map', List.map_id']
    rw [saveRuns_paths, hzip, List.mem_map] at hsaved
    obtain ⟨r, hr, rfl⟩ := hsaved
    have hserved : serveFile dir (saveRuns dir files runs).1
        ((ascii "data/" ++ (r.id ++ jsonExt)).drop (ascii "data").length)
          = (saveRuns dir files runs).1.read (servedFile dir _) := rfl
    exact hserved.trans (by rw [servedFile_id, read_saveRuns hnodup hr])

/-- A client that asks the data handler for the path of a saved result gets the result, when none is
lost. -/
theorem NoResultLost.served {dir : FilePath} {files : Files} {runs : List CompletedRun}
    (h : NoResultLost dir files runs) {saved : CompletedRun × Bytes}
    (hsaved : saved ∈ runs.zip (saveRuns dir files runs).2) {r : DataRequest}
    (hpath : r.path = r.uiPath ++ saved.2) (md5 : Bytes → Digest) (dirTime : Option Nat)
    (cache : TsvCache) :
    dataHandler md5 dir dirTime (saveRuns dir files runs).1 cache r
      = (cache, .file (some saved.1.json)) := by
  have hmem := (List.of_mem_zip hsaved).2
  rw [saveRuns_paths] at hmem
  obtain ⟨run, -, hrun⟩ := List.mem_map.mp hmem
  have hjson : isJson r.path = true := by
    rw [hpath, ← hrun]
    refine List.isSuffixOf_iff_suffix.mpr ?_
    rw [← List.append_assoc, ← List.append_assoc]
    exact List.suffix_append _ _
  have hdrop : r.path.drop (r.uiPath ++ ascii "data").length
      = saved.2.drop (ascii "data").length := by
    rw [hpath, List.length_append, ← List.drop_drop, List.drop_left]
  rw [dataHandler_of_isJson md5 dir dirTime _ cache hjson, hdrop, h.readable saved hsaved]

/-- The first second of 2018. -/
def newYear : StartTime where
  year := 2018
  month := 1
  day := 1
  hour := 0
  minute := 0
  second := 0
  year_lt := by decide
  month_le := by decide
  day_le := by decide
  hour_lt := by decide
  minute_lt := by decide
  second_lt := by decide

/-- Two runs without labels start in the same second, and the second result replaces the first
one. -/
theorem two_runs_in_one_second :
    ¬ NoResultLost [] ∅ [⟨newYear, [], ascii "[1]"⟩, ⟨newYear, [], ascii "[2]"⟩] ∧
      serveFile [] (saveRuns [] ∅ [⟨newYear, [], ascii "[1]"⟩, ⟨newYear, [], ascii "[2]"⟩]).1
        (ascii "/2018-01-01-000000.json") = some (ascii "[2]") := by
  refine ⟨fun h => absurd h.distinct ?_, ?_⟩
  · decide +kernel
  · decide +kernel

end IstioVendor.Ui
