import IstioVendor.Proofs.Ui.Sync

/-!
# `IstioVendor.Proofs.Ui.Failures`: what a failed download leaves behind

`downloadOne` reports an error when the server does not answer with 200, or when the write fails. A
sync that comes later skips a result when a file of its name is there, so a failed download must
leave no file (`NoTrace`).

A write that fails in the middle breaks this. `ioutil.WriteFile` has then made the file, with a part
of the content, and `downloadOne` does not remove it. `CutWrite` is the state before a download that
ends so. `noTrace_iff` is about one download, and `failed_download_traceless_iff` about every
sequence of entries: no download of the sequence leaves a trace, exactly when none is in such a
state.

`downloads` is the sequence. `processTSV_downloads` shows that it is what `processTSV` does to the
files and the fetches.
-/

set_option autoImplicit false

namespace IstioVendor.Ui

open Lib

/-! ### One download -/

/-- The reports that are errors. The others are a skip or a success. -/
def Report.isError : Report → Bool
  | .httpError _ => true
  | .writeError => true
  | _ => false

/-- A failed download puts no file where none was, and any later download of the name fetches it
again. The directories and the permissions are the same ones then. -/
structure NoTrace (w : World) (dir : FilePath) (s : SyncState) (name u : Bytes) : Prop where
  absent : (downloadOne w dir s name u).2.isError = true →
    s.files.read (dir.join name) = none →
    (downloadOne w dir s name u).1.files.read (dir.join name) = none
  retried : (downloadOne w dir s name u).2.isError = true →
    ∀ (w' : World) (s' : SyncState) (u' : Bytes), w'.denied = w.denied → w'.isDir = w.isDir →
      s'.files = (downloadOne w dir s name u).1.files →
      ∃ g : Fetch, g.url = u' ∧ (downloadOne w' dir s' name u').1.fetches = s'.fetches ++ [g]

/-- The download gets as far as the write, and the write fails in the middle. -/
structure CutWrite (w : World) (dir : FilePath) (s : SyncState) (name u : Bytes) : Prop where
  json : isJson name = true
  missing : w.stat s.files (dir.join name) = .missing
  answered : (w.answer s.fetches.length u).1 = 200
  cut : ∃ n, w.writing (s.fetches.length + 1) = .cut n

section OneDownload

variable {w : World} {dir : FilePath} {s : SyncState} {name u : Bytes}

theorem World.stat_eq_missing_iff {files : Files} {path : FilePath} :
    w.stat files path = .missing ↔
      w.denied path = false ∧ files.read path = none ∧ w.isDir path = false := by
  unfold World.stat
  cases w.denied path <;> cases files.read path <;> cases w.isDir path <;> simp

/-- A download of a file that is there says so, and fetches nothing. -/
theorem downloadOne_found (hjson : isJson name = true)
    (hstat : w.stat s.files (dir.join name) = .found) :
    downloadOne w dir s name u = s.report .alreadyExists := by
  simp [downloadOne, hjson, hstat]

/-- A download of a file that is not there fetches it. -/
theorem downloadOne_missing (hjson : isJson name = true)
    (hstat : w.stat s.files (dir.join name) = .missing) :
    downloadOne w dir s name u =
      let fetched := (s.fetch w .entry u).1
      let answer := w.answer s.fetches.length u
      let written := s.files.writeFile (w.writing (s.fetches.length + 1)) (dir.join name) answer.2
      if answer.1 ≠ 200 then fetched.report (.httpError answer.1)
      else { fetched with files := written.1 }.report
        (if written.2 then .success else .writeError) := by
  unfold downloadOne
  rw [hjson, Bool.not_true, if_neg Bool.false_ne_true]
  dsimp only
  rw [hstat]
  simp only [SyncState.fetch, List.length_append, List.length_singleton]
  by_cases hcode : (w.answer s.fetches.length u).1 ≠ 200
  · rw [if_pos hcode, if_pos hcode]
  · rw [if_neg hcode, if_neg hcode]
    split_ifs <;> rfl

/-- The fetch of a download of a file that is not there. -/
theorem fetches_downloadOne_missing (hjson : isJson name = true)
    (hstat : w.stat s.files (dir.join name) = .missing) :
    (downloadOne w dir s name u).1.fetches = s.fetches ++
      [⟨.entry, u, (w.answer s.fetches.length u).1, (w.answer s.fetches.length u).2⟩] := by
  rw [downloadOne_missing hjson hstat]
  dsimp only
  split_ifs <;> rfl

/-- An error is only reported for a file that was not there. -/
theorem missing_of_isError (herror : (downloadOne w dir s name u).2.isError = true) :
    isJson name = true ∧ w.stat s.files (dir.join name) = .missing := by
  unfold downloadOne at herror
  cases hjson : isJson name with
  | false => simp [hjson, SyncState.report, Report.isError] at herror
  | true =>
    cases hstat : w.stat s.files (dir.join name) with
    | found => simp [hjson, hstat, SyncState.report, Report.isError] at herror
    | failed => simp [hjson, hstat, SyncState.report, Report.isError] at herror
    | missing => exact ⟨rfl, rfl⟩

/-- A failed download leaves the files as they were, if its write was not cut. -/
theorem files_of_isError (herror : (downloadOne w dir s name u).2.isError = true)
    (hcut : ¬ CutWrite w dir s name u) : (downloadOne w dir s name u).1.files = s.files := by
  obtain ⟨hjson, hstat⟩ := missing_of_isError herror
  rw [downloadOne_missing hjson hstat] at herror ⊢
  by_cases hcode : (w.answer s.fetches.length u).1 ≠ 200
  · rw [if_pos hcode]
    rfl
  · rw [if_neg hcode] at herror ⊢
    cases hwriting : w.writing (s.fetches.length + 1) with
    | done =>
      rw [hwriting] at herror
      cases herror
    | refused => rfl -- The file could not be made.
    | cut n => exact absurd ⟨hjson, hstat, not_not.mp hcode, n, hwriting⟩ hcut

/-- A download with a cut write is an error, and the file is there behind it. -/
theorem CutWrite.leaves (hcut : CutWrite w dir s name u) :
    (downloadOne w dir s name u).2 = .writeError ∧
      ∃ part, (downloadOne w dir s name u).1.files.read (dir.join name) = some part := by
  obtain ⟨n, hn⟩ := hcut.cut
  rw [downloadOne_missing hcut.json hcut.missing]
  rw [if_neg (not_not.mpr hcut.answered), hn]
  refine ⟨rfl, (w.answer s.fetches.length u).2.take n, ?_⟩
  show (s.files.write (dir.join name) _).read (dir.join name) = _
  rw [Files.read_write, if_pos rfl]

/-- A download leaves no trace when it fails, exactly when its write is not cut. -/
theorem noTrace_iff : NoTrace w dir s name u ↔ ¬ CutWrite w dir s name u := by
  constructor
  · intro htrace hcut
    obtain ⟨hreport, part, hpart⟩ := hcut.leaves
    have habsent := (World.stat_eq_missing_iff.mp hcut.missing).2.1
    have hnone := htrace.absent (by rw [hreport]; rfl) habsent
    rw [hnone] at hpart
    cases hpart
  · intro hcut
    constructor
    · intro herror hnone
      rw [files_of_isError herror hcut, hnone]
    · intro herror w' s' u' hdenied hdir hfiles
      obtain ⟨hjson, hstat⟩ := missing_of_isError herror
      -- The files are the same ones, so the later `os.Stat` says what this one said.
      have hstat' : w'.stat s'.files (dir.join name) = .missing := by
        rw [hfiles, files_of_isError herror hcut, ← hstat]
        simp only [World.stat, hdenied, hdir]
      exact ⟨_, rfl, fetches_downloadOne_missing hjson hstat'⟩

end OneDownload

/-! ### Every sequence of entries -/

/-- The downloads of a list of names and URLs, in order. -/
def downloads (w : World) (dir : FilePath) (s : SyncState) (calls : List (Bytes × Bytes)) :
    SyncState :=
  calls.foldl (fun s call => (downloadOne w dir s call.1 call.2).1) s

/-- Two states with the same files and fetches. -/
def SyncState.Same (s t : SyncState) : Prop := s.files = t.files ∧ s.fetches = t.fetches

/-- The response does not matter to a download. -/
theorem SyncState.Same.downloadOne {s t : SyncState} (hsame : s.Same t) (w : World)
    (dir : FilePath) (name u : Bytes) :
    (downloadOne w dir s name u).1.Same (downloadOne w dir t name u).1 := by
  -- The states differ in what was written to the response, which `downloadOne` does not read.
  obtain ⟨files, fetches, out, codes⟩ := s
  obtain ⟨files', fetches', out', codes'⟩ := t
  obtain ⟨rfl, rfl⟩ : files = files' ∧ fetches = fetches' := hsame
  cases hjson : isJson name with
  | false =>
    simp only [Ui.downloadOne, hjson]
    exact ⟨rfl, rfl⟩
  | true =>
    cases hstat : w.stat files (dir.join name) with
    | found =>
      rw [downloadOne_found hjson hstat, downloadOne_found hjson hstat]
      exact ⟨rfl, rfl⟩
    | failed =>
      simp only [Ui.downloadOne, hjson, hstat]
      exact ⟨rfl, rfl⟩
    | missing =>
      rw [downloadOne_missing hjson hstat, downloadOne_missing hjson hstat]
      dsimp only
      split_ifs <;> exact ⟨rfl, rfl⟩

theorem SyncState.Same.processEntry {s t : SyncState} (hsame : s.Same t) (w : World)
    (dir : FilePath) (item : (Bytes × Option Bytes) × Nat) :
    (processEntry w dir s item).Same
      (downloads w dir t (item.1.2.map fun name => (name, item.1.1)).toList) := by
  unfold Ui.processEntry
  cases item.1.2 with
  | none => exact hsame
  | some name =>
    have hwritten : ((s.write (ascii "<tr><td>")).write (htmlEscapeString item.1.1)).Same t := hsame
    exact hwritten.downloadOne w dir name item.1.1

/-- `processTSV` does the downloads of its calls, and nothing else to the files. -/
theorem processTSV_downloads (w : World) (dir : FilePath) (s : SyncState) (sdata : Bytes) :
    (processTSV w dir s sdata).Same (downloads w dir s (tsvCalls sdata)) := by
  -- The induction is on the entries. An entry without a name is no call.
  have hloop : ∀ (entries : List (Bytes × Option Bytes)) (k : Nat) (s t : SyncState), s.Same t →
      ((entries.zipIdx k).foldl (processEntry w dir) s).Same (downloads w dir t
        (entries.filterMap fun entry => entry.2.map fun name => (name, entry.1))) := by
    intro entries
    induction entries with
    | nil => exact fun _ _ _ hsame => hsame
    | cons entry entries ih =>
      intro k s t hsame
      have hstep := ih (k + 1) _ _ (hsame.processEntry w dir (entry, k))
      cases hname : entry.2 with
      | none => simpa [hname, downloads] using hstep
      | some name => simpa [hname, downloads] using hstep
  exact hloop _ 0 _ s ⟨rfl, rfl⟩

/-- No download of a sequence leaves a trace when it fails, exactly when no write of the sequence is
cut. -/
theorem failed_download_traceless_iff (w : World) (dir : FilePath) (s : SyncState)
    (calls : List (Bytes × Bytes)) :
    (∀ before call after, calls = before ++ call :: after →
      NoTrace w dir (downloads w dir s before) call.1 call.2) ↔
    ∀ before call after, calls = before ++ call :: after →
      ¬ CutWrite w dir (downloads w dir s before) call.1 call.2 := by
  constructor
  · intro htrace before call after hcalls
    exact noTrace_iff.mp (htrace before call after hcalls)
  · intro hcut before call after hcalls
    exact noTrace_iff.mpr (hcut before call after hcalls)

/-- A server that answers every fetch with two bytes, and a disk that takes the first one only. -/
def fullDisk : World :=
  { threeLines with
    respond := fun _ _ => (200, ascii "[]")
    writing := fun _ => .cut 1 }

/-- The entry of an index with one result. -/
def oneCall : Bytes × Bytes := (ascii "x.json", ascii "http://h/x.json")

/-- The index has one result, the disk is full, and the file stays with its first byte. The next
sync has room on the disk and skips the result. -/
theorem downloadOne_leaves_part :
    tsvCalls (tsvHeader ++ [newline] ++ oneCall.2) = [oneCall] ∧
    (downloadOne fullDisk [] { files := ∅ } oneCall.1 oneCall.2).2.text =
      ascii "<td>skipped (write error)" ∧
    (downloadOne fullDisk [] { files := ∅ } oneCall.1 oneCall.2).1.files.read
      (FilePath.join [] oneCall.1) = some (ascii "[") ∧
    (downloadOne threeLines [] (downloads fullDisk [] { files := ∅ } [oneCall]) oneCall.1
      oneCall.2).2.text = ascii "<td>skipped (already exists)" ∧
    ¬ NoTrace fullDisk [] { files := ∅ } oneCall.1 oneCall.2 := by
  refine ⟨by decide +kernel, by decide +kernel, by decide +kernel, by decide +kernel, ?_⟩
  rw [noTrace_iff, not_not]
  exact ⟨by decide +kernel, World.stat_eq_missing_iff.mpr ⟨rfl, by decide +kernel, rfl⟩,
    by decide +kernel, 1, rfl⟩

end IstioVendor.Ui
