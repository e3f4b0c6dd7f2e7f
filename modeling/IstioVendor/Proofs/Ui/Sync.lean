import IstioVendor.Proofs.Ui.DataDir
import IstioVendor.Ui.Sync

/-!
# `IstioVendor.Proofs.Ui.Sync`: what a sync does to the files

A sync writes only new files, and each of them is accounted for (`Accounted`): it is in the data
directory, its name has the extension and is the last part of a path that a listing has (`Listed`),
and its content is the body of a successful fetch of that entry. `Progress` is this relation between
two states of a sync. It is transitive, `downloadOne` makes progress (`downloadOne_cases` says all
that it can do), and so do the loops and the recursion over the pages.

`sync_frame` states it for the handler, together with the number of listings that it fetches.
-/

set_option autoImplicit false

namespace IstioVendor.Ui

open Lib

/-! ### Listed entries and the files that are made from them -/

/-- The answer to the fetch lists an entry: `name` is the last part of its path, and `u` its URL. -/
inductive Listed (w : World) (f : Fetch) (name u : Bytes) : Prop where
  | line {base l : Bytes} {ur : Url} (purpose : f.purpose = .listing base) (code : f.code = 200)
      (mem : l ∈ ((trimSpace f.body).splitOn newline).tail) (field : u = (l.splitOn tab).headD [])
      (parse : Url.parse u = some ur) (last : name = lastPart slash ur.path)
  | object {base el : Bytes} {bu : Url} {page : ListBucketResult}
      (purpose : f.purpose = .listing base) (code : f.code = 200)
      (unmarshal : w.unmarshal f.body = some page) (mem : el ∈ page.names)
      (parse : Url.parse base = some bu) (object : u = objectURL w base bu el)
      (last : name = lastPart slash el)

variable {f : Fetch} {base : Bytes} {n : Nat}

theorem Listed.slash_notMem {w : World} {name u : Bytes} (h : Listed w f name u) :
    slash ∉ name := by
  cases h with
  | line _ _ _ _ _ last => exact last ▸ (notMem_lastPart slash _).1
  | object _ _ _ _ _ _ last => exact last ▸ (notMem_lastPart slash _).1

/-- The file is a result in the directory, listed by one fetch, and another one brought its
content. -/
def Accounted (w : World) (dir : FilePath) (fetches : List Fetch) (path : FilePath)
    (content : Bytes) : Prop :=
  ∃ (name : FileName) (f g : Fetch), path = dir ++ [name] ∧ isJson name.bytes = true ∧
    f ∈ fetches ∧ Listed w f name.bytes g.url ∧
    g ∈ fetches ∧ g.purpose = .entry ∧ g.code = 200 ∧ g.body = content

/-- The second state comes after the first: no file has changed, and new files are accounted
for. -/
structure Progress (w : World) (dir : FilePath) (s s' : SyncState) : Prop where
  logged : s.fetches ⊆ s'.fetches
  kept : ∀ path content, s.files.read path = some content → s'.files.read path = some content
  created : ∀ path content, s.files.read path = none → s'.files.read path = some content →
    Accounted w dir s'.fetches path content

section
variable {w : World} {dir path : FilePath} {s s' s'' : SyncState} {content : Bytes}

theorem Accounted.mono {fetches fetches' : List Fetch} (hsub : fetches ⊆ fetches')
    (h : Accounted w dir fetches path content) : Accounted w dir fetches' path content := by
  obtain ⟨name, f, g, hpath, hjson, hf, hlisted, hg, hrest⟩ := h
  exact ⟨name, f, g, hpath, hjson, hsub hf, hlisted, hsub hg, hrest⟩

theorem Progress.of_eq (hfiles : s'.files = s.files) (hsub : s.fetches ⊆ s'.fetches) :
    Progress w dir s s' where
  logged := hsub
  kept := fun path content hread => by rw [hfiles, hread]
  created := fun path content hnone hread => by
    rw [hfiles, hnone] at hread
    cases hread

theorem Progress.refl (s : SyncState) : Progress w dir s s := .of_eq rfl (List.Subset.refl _)

theorem Progress.trans (h : Progress w dir s s') (h' : Progress w dir s' s'') :
    Progress w dir s s'' where
  logged := List.Subset.trans h.logged h'.logged
  kept := fun path content hread => h'.kept path content (h.kept path content hread)
  created := fun path content hnone hread => by
    cases hread' : s'.files.read path with
    | none => exact h'.created path content hread' hread
    | some content' =>
      have heq := h'.kept path content' hread'
      cases heq.symm.trans hread
      exact (h.created path _ hnone hread').mono h'.logged

/-- What is written to the response does not matter. -/
theorem Progress.congr {t t' : SyncState} (h : Progress w dir s s') (hfiles : t.files = s.files)
    (hfetches : t.fetches = s.fetches) (hfiles' : t'.files = s'.files)
    (hfetches' : t'.fetches = s'.fetches) : Progress w dir t t' := by
  refine ⟨?_, ?_, ?_⟩
  · rw [hfetches, hfetches']
    exact h.logged
  · rw [hfiles, hfiles']
    exact h.kept
  · rw [hfiles, hfiles', hfetches']
    exact h.created

theorem foldl_progress {α : Type} {step : SyncState → α → SyncState} (items : List α)
    (h : ∀ t item, item ∈ items → s.fetches ⊆ t.fetches → Progress w dir t (step t item)) :
    Progress w dir s (items.foldl step s) := by
  induction items generalizing s with
  | nil => exact .refl s
  | cons item items ih =>
    have hfirst := h s item List.mem_cons_self (List.Subset.refl _)
    exact hfirst.trans (ih fun t item' hmem hsub =>
      h t item' (List.mem_cons_of_mem _ hmem) (List.Subset.trans hfirst.logged hsub))

/-! ### One result -/

/-- The fetches that are for listings. -/
def listings (fetches : List Fetch) : List Fetch :=
  fetches.filter fun f => match f.purpose with
    | .listing _ => true
    | .entry => false

/-- A download leaves everything as it is, or it fetches the entry of a file that is not there, and
then the file is written when the answer is good. -/
theorem downloadOne_cases (w : World) (dir : FilePath) (s : SyncState) (name u : Bytes) :
    ((downloadOne w dir s name u).1.files = s.files ∧
      (downloadOne w dir s name u).1.fetches = s.fetches) ∨
    ∃ g : Fetch, g.purpose = .entry ∧ g.url = u ∧ isJson name = true ∧
      s.files.read (dir.join name) = none ∧
      (downloadOne w dir s name u).1.fetches = s.fetches ++ [g] ∧
      ((downloadOne w dir s name u).1.files = s.files ∨
        (g.code = 200 ∧ (downloadOne w dir s name u).1.files = (s.files.writeFile
          (w.writing (s.fetches.length + 1)) (dir.join name) g.body).1)) := by
  unfold downloadOne
  by_cases hjson : isJson name = true
  · rw [hjson, Bool.not_true, if_neg Bool.false_ne_true]
    dsimp only
    cases hstat : w.stat s.files (dir.join name) with
    | found => exact .inl ⟨rfl, rfl⟩
    | failed => exact .inl ⟨rfl, rfl⟩
    | missing =>
      have hnone : s.files.read (dir.join name) = none := by
        unfold World.stat at hstat
        split_ifs at hstat with _ hfound
        rw [Bool.or_eq_true, not_or, Bool.not_eq_true, Option.isSome_eq_false_iff,
          Option.isNone_iff_eq_none] at hfound
        exact hfound.1
      right
      generalize hanswer : w.answer s.fetches.length u = answer
      obtain ⟨code, body⟩ := answer
      refine ⟨⟨.entry, u, code, body⟩, rfl, rfl, rfl, hnone, ?_⟩
      simp only [SyncState.fetch, hanswer]
      rw [List.length_append, List.length_singleton]
      by_cases hcode : code ≠ 200
      · rw [if_pos hcode]
        exact ⟨rfl, .inl rfl⟩
      · rw [if_neg hcode]
        -- The outcome of the write decides about the report only.
        generalize s.files.writeFile _ _ _ = written
        obtain ⟨files, ok⟩ := written
        cases ok with
        | true => exact ⟨rfl, .inr ⟨not_not.mp hcode, rfl⟩⟩
        | false => exact ⟨rfl, .inr ⟨not_not.mp hcode, rfl⟩⟩
  · rw [Bool.not_eq_true] at hjson
    rw [hjson, Bool.not_false, if_pos rfl]
    exact .inl ⟨rfl, rfl⟩

/-- A download fetches no listing. -/
theorem listings_downloadOne (w : World) (dir : FilePath) (s : SyncState) (name u : Bytes) :
    listings (downloadOne w dir s name u).1.fetches = listings s.fetches := by
  rcases downloadOne_cases w dir s name u with ⟨_, hfetches⟩ | ⟨g, hpurpose, _, _, _, hfetches, _⟩
  · rw [hfetches]
  · rw [hfetches, listings, List.filter_append]
    simp [listings, hpurpose]

/-- The download of a listed entry. -/
theorem downloadOne_progress (hw : ∀ n, w.writing n = .done) {name u : Bytes} (hf : f ∈ s.fetches)
    (hlisted : Listed w f name u) : Progress w dir s (downloadOne w dir s name u).1 := by
  rcases downloadOne_cases w dir s name u with
    ⟨hfiles, hfetches⟩ | ⟨g, hpurpose, hurl, hjson, hnone, hfetches, hfiles⟩
  · exact .of_eq hfiles (by rw [hfetches]; exact List.Subset.refl _)
  have hsub : s.fetches ⊆ (downloadOne w dir s name u).1.fetches := by
    rw [hfetches]
    exact List.subset_append_left _ _
  rcases hfiles with hfiles | ⟨hcode, hfiles⟩
  · exact .of_eq hfiles hsub
  -- The file is new, and its content is the body of the fetch.
  let fname : FileName := ⟨name, isName_of_isJson hlisted.slash_notMem hjson⟩
  have hjoin : dir.join name = dir ++ [fname] := FilePath.join_name dir fname
  rw [hw, Files.writeFile, hjoin] at hfiles
  rw [hjoin] at hnone
  refine ⟨hsub, fun path content hread => ?_, fun path content hread hread' => ?_⟩
  · rw [hfiles, Files.read_write]
    split_ifs with hpath
    · rw [← hpath, hnone] at hread
      cases hread
    · exact hread
  · rw [hfiles, Files.read_write] at hread'
    split_ifs at hread' with hpath
    · refine ⟨fname, f, g, hpath.symm, hjson, hsub hf, hurl ▸ hlisted, ?_, hpurpose, hcode,
        Option.some.inj hread'⟩
      rw [hfetches]
      exact List.mem_append_right _ (List.mem_singleton.mpr rfl)
    · rw [hread] at hread'
      cases hread'

/-! ### Listings -/

theorem listings_foldl {α : Type} {step : SyncState → α → SyncState} (items : List α)
    (h : ∀ t item, listings (step t item).fetches = listings t.fetches) (s : SyncState) :
    listings (items.foldl step s).fetches = listings s.fetches := by
  induction items generalizing s with
  | nil => rfl
  | cons item items ih => rw [List.foldl_cons, ih, h]

theorem listings_processEntry (w : World) (dir : FilePath) (t : SyncState)
    (item : (Bytes × Option Bytes) × Nat) :
    listings (processEntry w dir t item).fetches = listings t.fetches := by
  unfold processEntry
  cases item.1.2 with
  | none => rfl
  | some name => exact listings_downloadOne w dir _ name item.1.1

theorem listings_processTSV (w : World) (dir : FilePath) (s : SyncState) (sdata : Bytes) :
    listings (processTSV w dir s sdata).fetches = listings s.fetches :=
  listings_foldl _ (listings_processEntry w dir) _

theorem processTSV_progress (hw : ∀ n, w.writing n = .done) (hf : f ∈ s.fetches)
    (hpurpose : f.purpose = .listing base) (hcode : f.code = 200) :
    Progress w dir s (processTSV w dir s (trimSpace f.body)) := by
  have hloop : ∀ t : SyncState, t.files = s.files → t.fetches = s.fetches →
      Progress w dir t ((tsvEntries (trimSpace f.body)).zipIdx.foldl (processEntry w dir) t) := by
    intro t _ hfetches
    refine foldl_progress _ fun t' item hmem hsub => ?_
    obtain ⟨entry, i⟩ := item
    have hentry : entry ∈ tsvEntries (trimSpace f.body) := List.fst_mem_of_mem_zipIdx hmem
    obtain ⟨l, hl, rfl⟩ := List.mem_map.mp hentry
    dsimp only [tsvEntry]
    cases hparse : Url.parse ((l.splitOn tab).headD []) with
    | none => exact .of_eq rfl (List.Subset.refl _)
    | some ur =>
      have hlisted : Listed w f (lastPart slash ur.path) ((l.splitOn tab).headD []) :=
        .line hpurpose hcode hl rfl hparse rfl
      let t₁ := (t'.write (ascii "<tr><td>")).write (htmlEscapeString ((l.splitOn tab).headD []))
      have hone : Progress w dir t₁ (downloadOne w dir t₁ _ _).1 :=
        downloadOne_progress hw (hsub (hfetches ▸ hf)) hlisted
      exact hone.congr rfl rfl rfl rfl
  exact (hloop ((s.write _).write _) rfl rfl).congr rfl rfl rfl rfl

theorem listings_processObject (w : World) (dir : FilePath) (baseURL : Bytes) (bu : Url)
    (t : SyncState) (item : Bytes × Nat) :
    listings (processObject w dir baseURL bu t item).fetches = listings t.fetches :=
  listings_downloadOne w dir _ _ _

/-- Only the response has changed. -/
def Quiet (s s' : SyncState) : Prop := s'.files = s.files ∧ s'.fetches = s.fetches

theorem xmlStart_quiet (s : SyncState) (level n : Nat) : Quiet s (xmlStart s level n) := by
  unfold xmlStart
  split_ifs
  · exact ⟨rfl, rfl⟩
  · exact ⟨rfl, rfl⟩

theorem processNilURL_quiet (s : SyncState) (level : Nat) (l : ListBucketResult) :
    Quiet s (processNilURL s level l).1 := by
  unfold processNilURL
  cases l.names with
  | cons el els => exact ⟨rfl, rfl⟩
  | nil =>
    split_ifs
    · exact ⟨rfl, rfl⟩
    · exact ⟨rfl, rfl⟩
    · exact ⟨rfl, rfl⟩

/-- Progress with at most `n` more listings. -/
def Pages (w : World) (dir : FilePath) (n : Nat) (s s' : SyncState) : Prop :=
  Progress w dir s s' ∧ (listings s'.fetches).length ≤ (listings s.fetches).length + n

theorem Pages.mono {m : Nat} (h : Pages w dir m s s') (hle : m ≤ n) : Pages w dir n s s' :=
  ⟨h.1, h.2.trans (Nat.add_le_add_left hle _)⟩

theorem Pages.trans {m : Nat} (h : Pages w dir m s s') (h' : Pages w dir n s' s'') :
    Pages w dir (m + n) s s'' := by
  refine ⟨h.1.trans h'.1, ?_⟩
  have h₁ := h.2
  have h₂ := h'.2
  omega

theorem Pages.of_quiet (h : Pages w dir n s s') (hquiet : Quiet s' s'') : Pages w dir n s s'' := by
  refine ⟨h.1.trans (.of_eq hquiet.1 ?_), ?_⟩
  · rw [hquiet.2]
    exact List.Subset.refl _
  · rw [hquiet.2]
    exact h.2

theorem Pages.of_quiet_left (hquiet : Quiet s s') (h : Pages w dir n s' s'') :
    Pages w dir n s s'' := by
  refine ⟨Progress.trans (.of_eq hquiet.1 ?_) h.1, ?_⟩
  · rw [hquiet.2]
    exact List.Subset.refl _
  · rw [← hquiet.2]
    exact h.2

/-- The loop over the objects of one page. -/
theorem objects_progress (hw : ∀ n, w.writing n = .done) {bu : Url} {page : ListBucketResult}
    (hf : f ∈ s.fetches) (hpurpose : f.purpose = .listing base) (hcode : f.code = 200)
    (hpage : w.unmarshal f.body = some page) (hparse : Url.parse base = some bu) :
    Progress w dir s (page.names.zipIdx.foldl (processObject w dir base bu) s) := by
  refine foldl_progress _ fun t item hmem hsub => ?_
  obtain ⟨el, i⟩ := item
  have hlisted : Listed w f (lastPart slash el) (objectURL w base bu el) :=
    .object hpurpose hcode hpage (List.fst_mem_of_mem_zipIdx hmem) hparse rfl rfl
  let t₁ := (t.write (ascii "<tr><td>")).write (htmlEscapeString el)
  have hone : Progress w dir t₁ (downloadOne w dir t₁ _ _).1 :=
    downloadOne_progress hw (hsub hf) hlisted
  exact hone.congr rfl rfl rfl rfl

/-- The fetch of a listing is the only new one, and it is a listing. -/
theorem fetch_listing (w : World) (dir : FilePath) (s : SyncState) (base url : Bytes) :
    ∃ s' f, s.fetch w (.listing base) url = (s', f.code, f.body) ∧ Pages w dir 1 s s' ∧
      f ∈ s'.fetches ∧ f.purpose = .listing base := by
  refine ⟨_, ⟨.listing base, url, _, _⟩, rfl, ⟨.of_eq rfl (List.subset_append_left _ _), ?_⟩,
    List.mem_append_right _ (List.mem_singleton.mpr rfl), rfl⟩
  rw [listings, List.filter_append, List.length_append]
  exact Nat.le_refl _

/-- The pages from `level` on. -/
theorem processXML_pages (hw : ∀ n, w.writing n = .done) (level : Nat) (hf : f ∈ s.fetches)
    (hpurpose : f.purpose = .listing base) (hcode : f.code = 200) :
    Pages w dir (101 - level) s (processXML w dir f.body base level s).1 := by
  induction hn : 101 - level using Nat.strongRecOn generalizing s f base level with
  | _ n ih =>
    rw [processXML]
    cases hpage : w.unmarshal f.body with
    | none => exact ⟨.of_eq rfl (List.Subset.refl _), Nat.le_add_right _ _⟩
    | some page =>
      have hstart := xmlStart_quiet s level page.names.length
      refine .of_quiet_left hstart ?_
      dsimp only
      have hf₀ : f ∈ (xmlStart s level page.names.length).fetches := hstart.2 ▸ hf
      generalize xmlStart s level page.names.length = s₀ at hf₀
      cases hparse : Url.parse base with
      | none =>
        have hrefl : Pages w dir n s₀ s₀ := ⟨.refl s₀, Nat.le_add_right _ _⟩
        exact hrefl.of_quiet (processNilURL_quiet s₀ level page)
      | some bu =>
        have hloop : Progress w dir s₀ _ :=
          objects_progress hw hf₀ hpurpose hcode hpage hparse
        have hlist := listings_foldl page.names.zipIdx
          (listings_processObject w dir base bu) s₀
        dsimp only
        generalize page.names.zipIdx.foldl (processObject w dir base bu) s₀ = s₁
          at hloop hlist
        have hhere : Pages w dir 0 s₀ s₁ := ⟨hloop, by rw [hlist]; omega⟩
        by_cases hmarker : page.nextMarker.length = 0
        · rw [if_pos hmarker]
          exact hhere.mono (Nat.zero_le n)
        rw [if_neg hmarker]
        by_cases hlevel : 100 < level
        · rw [dif_pos hlevel]
          exact (hhere.mono (Nat.zero_le n)).of_quiet ⟨rfl, rfl⟩
        rw [dif_neg hlevel]
        by_cases hsame : w.getMarker bu.rawQuery = page.nextMarker
        · rw [if_pos hsame]
          exact (hhere.mono (Nat.zero_le n)).of_quiet ⟨rfl, rfl⟩
        rw [if_neg hsame]
        -- One more listing, and the pages that follow it.
        generalize w.urlString base _ = newBaseURL
        generalize hs₂ : ((s₁.write (ascii "<tr><td>")).write
          (htmlEscapeString newBaseURL)).write (ascii "<td>") = s₂
        have hquiet : Quiet s₁ s₂ := hs₂ ▸ ⟨rfl, rfl⟩
        obtain ⟨s₃, f', heq, hpage', hf', hpurpose'⟩ :=
          fetch_listing w dir s₂ newBaseURL newBaseURL
        have hfetch := (hhere.of_quiet hquiet).trans hpage'
        rw [heq]
        by_cases hncode : f'.code ≠ 200
        · rw [if_pos hncode]
          exact (hfetch.mono (by omega)).of_quiet ⟨rfl, rfl⟩
        rw [if_neg hncode]
        have hnext := ih (100 - level) (by omega) (level + 1) hf' hpurpose'
          (not_not.mp hncode) (by omega)
        exact (hfetch.trans hnext).mono (by omega)

/-! ### The handler -/

/-- The whole sync: the index is one listing, and a bucket has up to 101 pages behind it. -/
theorem syncHandler_pages (hw : ∀ n, w.writing n = .done) (dataDir : Option FilePath)
    (files : Files) (url : Bytes) :
    Pages w (w.dirOf dataDir) 102 { files := files } (syncHandler w dataDir files url) := by
  unfold syncHandler
  dsimp only
  generalize hs₀ : SyncState.write { files := files } (ascii "Fetch of index/bucket url ... ") = s₀
  have hquiet : Quiet { files := files } s₀ := hs₀ ▸ ⟨rfl, rfl⟩
  refine .of_quiet_left hquiet ?_
  have hrefl : Pages w (w.dirOf dataDir) 0 s₀ s₀ := ⟨.refl s₀, Nat.le_refl _⟩
  cases Url.parse (urlSchemeCheck (trimSpace url)) with
  | none => exact (hrefl.mono (Nat.zero_le 102)).of_quiet ⟨rfl, rfl⟩
  | some _ =>
    obtain ⟨s₁, f, heq, hfetch, hf, hpurpose⟩ := fetch_listing w (w.dirOf dataDir) s₀
      (trimSpace url) (urlSchemeCheck (trimSpace url))
    rw [heq]
    by_cases hok : f.code ≠ 200
    · rw [if_pos hok]
      exact (hfetch.mono (by decide)).of_quiet ⟨rfl, rfl⟩
    rw [if_neg hok]
    have hcode : f.code = 200 := not_not.mp hok
    by_cases htsv : tsvHeader.isPrefixOf (trimSpace f.body) = true
    · rw [if_pos htsv]
      have hentries : Pages w (w.dirOf dataDir) 0 s₁
          (processTSV w (w.dirOf dataDir) s₁ (trimSpace f.body)) :=
        ⟨processTSV_progress hw hf hpurpose hcode, by rw [listings_processTSV]; omega⟩
      exact ((hfetch.trans hentries).mono (by decide)).of_quiet ⟨rfl, rfl⟩
    · rw [if_neg htsv]
      have hpages : Pages w (w.dirOf dataDir) 101 s₁ _ :=
        processXML_pages hw 0 hf hpurpose hcode
      generalize processXML w (w.dirOf dataDir) f.body (trimSpace url) 0 s₁ = result at hpages
      obtain ⟨s₂, finish⟩ := result
      have hall := (hfetch.trans hpages).mono (n := 102) (by decide)
      cases finish with
      | table => exact hall.of_quiet ⟨rfl, rfl⟩
      | failed => exact hall
      | panicked => exact hall

end

/-- A sync leaves the files that are there, its new files are results in the data directory with
the content that was fetched for a listed entry, and it fetches at most 102 listings. -/
theorem sync_frame (w : World) (hw : ∀ n, w.writing n = .done) (dataDir : Option FilePath)
    (files : Files) (url : Bytes) :
    (∀ path content, files.read path = some content →
      (syncHandler w dataDir files url).files.read path = some content) ∧
    (∀ path content, files.read path = none →
      (syncHandler w dataDir files url).files.read path = some content →
      Accounted w (w.dirOf dataDir) (syncHandler w dataDir files url).fetches path content) ∧
    (listings (syncHandler w dataDir files url).fetches).length ≤ 102 := by
  obtain ⟨hprogress, hlistings⟩ := syncHandler_pages hw dataDir files url
  exact ⟨hprogress.kept, hprogress.created, hlistings⟩

/-- A server with an index of three lines: a result, the same one again, and one that tries to leave
the directory. -/
def threeLines : World where
  cwd := []
  respond := fun n _ =>
    if n = 0 then
      (200, tsvHeader ++ [newline] ++ ascii "http://h/data/x.json" ++ [tab, newline]
        ++ ascii "http://h/x.json" ++ [newline] ++ ascii "http://h/%2E%2E%2Fy.json")
    else (200, ascii "[" ++ decimal n ++ ascii "]")
  refusal := fun _ => []
  unmarshal := fun _ => none
  urlString := fun _ _ => []
  getMarker := fun _ => []
  setMarker := fun _ _ => []
  denied := fun _ => false
  isDir := fun _ => false
  writing := fun _ => .done

/-- The sync from this server: two files, both in the directory, and the first one fetched once. -/
theorem sync_frame_threeLines :
    (syncHandler threeLines none ∅ (ascii "h/index.tsv")).files.entries.length = 2 ∧
    (syncHandler threeLines none ∅ (ascii "h/index.tsv")).fetches.length = 3 ∧
    ∀ path content,
      (syncHandler threeLines none ∅ (ascii "h/index.tsv")).files.read path = some content →
      Accounted threeLines [] (syncHandler threeLines none ∅ (ascii "h/index.tsv")).fetches path
        content := by
  refine ⟨by decide +kernel, by decide +kernel, fun path content hread => ?_⟩
  have hframe := sync_frame threeLines (fun _ => rfl) none ∅ (ascii "h/index.tsv")
  exact hframe.2.1 path content rfl hread

end IstioVendor.Ui
