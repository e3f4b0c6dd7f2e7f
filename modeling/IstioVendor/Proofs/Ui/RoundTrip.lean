import Mathlib.Algebra.Order.BigOperators.Group.List
import Mathlib.Algebra.Order.Group.Nat
import IstioVendor.Proofs.Ui.DataDir
import IstioVendor.Ui.Sync

/-!
# `IstioVendor.Proofs.Ui.RoundTrip`: an index read by another server

One server makes an index with `tsvIndex`, another one reads it in `SyncHandler`: it trims the text,
takes it apart at line ends and tabs, and parses the first field of each line as a URL
(`tsvCalls`). The round trip is right when each result is asked for once, under its own name and
with a URL that stands for it, and nothing else with the extension is asked for (`RoundTrip`).

The index has names as they are, it does not escape them. `roundTrip_iff` says when the round trip
is right: there is nothing in the directory, or the URL of the directory has no tab, line end,
query or fragment and a path that ends with a slash, and no name has a tab, a line end or one of
the bytes `%`, `?` and `#` (`percent_name_lost` is a name that has one). The other source of a sync,
a bucket in XML, puts the names into a URL with `String`, which escapes them.

For the condition the index is seen as a list of lines (`indexLines_eq`). What a name leaves of
itself in the URL is `urlPart`, and only a clean name is its own part: from other names only shorter
ones come back (`length_of_unescape_urlPart`), so the longest name that is not clean is lost.
-/

set_option autoImplicit false

namespace IstioVendor.Ui

open Lib

/-! ### The property -/

/-- The URL extends the URL of the directory, and its path is that of the file. -/
def Denotes (urlPrefix fname u : Bytes) : Prop :=
  urlPrefix <+: u ∧ ∃ base, Url.parse urlPrefix = some base ∧
    Url.parse u = some { base with path := base.path ++ fname }

/-- The index of the names is taken for one, each name is asked for once with its URL, and no other
result is asked for. -/
structure RoundTrip (urlPrefix : Bytes) (names : List FileName) (sdata : Bytes) : Prop where
  detected : tsvHeader.isPrefixOf sdata = true
  each : ∀ name ∈ names, ∃ u,
    (tsvCalls sdata).filter (fun call => call.1 = name.bytes) = [(name.bytes, u)] ∧
      Denotes urlPrefix name.bytes u
  only : ∀ call ∈ tsvCalls sdata, isJson call.1 = true → ∃ name ∈ names, call.1 = name.bytes

/-- No byte of the name has a meaning in an index or in a URL. -/
def CleanName (fname : Bytes) : Prop :=
  tab ∉ fname ∧ newline ∉ fname ∧ percent ∉ fname ∧ question ∉ fname ∧ hash ∉ fname

/-- A URL with a path that ends with a slash, and nothing behind the path. -/
def CleanPrefix (urlPrefix : Bytes) : Prop :=
  tab ∉ urlPrefix ∧ newline ∉ urlPrefix ∧ question ∉ urlPrefix ∧ hash ∉ urlPrefix ∧
    ∃ base, Url.parse urlPrefix = some base ∧ EndsWithSlash base.path

/-! ### The lines of an index -/

variable {call : Bytes × Bytes} {name : FileName}

section
variable {urlPrefix : Bytes} {names : List FileName} {field : FileName → Bytes}

/-- An index without the last line end. `field` are the size and the digest of each name. -/
def indexText (urlPrefix : Bytes) (field : FileName → Bytes) (names : List FileName) : Bytes :=
  tsvHeader ++ names.flatMap fun name =>
    newline :: (urlPrefix ++ (name.bytes ++ tab :: field name))

/-- The size and the digest of a result. -/
def indexField (md5 : Bytes → Digest) (files : Files) (dir : FilePath) (name : FileName) : Bytes :=
  decimal (contentOf files dir name).length ++ tab :: base64 (md5 (contentOf files dir name)).bytes

theorem tsvIndex_eq_indexText (md5 : Bytes → Digest) (dir : FilePath) (files : Files)
    (urlPrefix : Bytes) :
    tsvIndex md5 dir files urlPrefix
      = indexText urlPrefix (indexField md5 files dir) (results files dir) ++ [newline] := by
  have hmove : ∀ (names : List FileName) (g : FileName → Bytes),
      [newline] ++ names.flatMap (fun name => g name ++ [newline])
        = names.flatMap (fun name => newline :: g name) ++ [newline] := by
    intro names g
    induction names with
    | nil => rfl
    | cons name names ih =>
      rw [List.flatMap_cons, List.flatMap_cons, List.append_assoc (newline :: g name), ← ih]
      simp
  rw [tsvIndex_eq, indexText, List.append_assoc, List.append_assoc, ← hmove]
  simp only [tsvLine, indexField, List.append_assoc, List.cons_append, List.nil_append]

/-- The text is taken apart at the line ends. -/
theorem splitOn_indexText (urlPrefix : Bytes) (field : FileName → Bytes) (names : List FileName) :
    (indexText urlPrefix field names).splitOn newline = tsvHeader :: names.flatMap fun name =>
      (urlPrefix ++ (name.bytes ++ tab :: field name)).splitOn newline := by
  have hlines : ∀ s : Bytes, (s ++ names.flatMap fun name =>
      newline :: (urlPrefix ++ (name.bytes ++ tab :: field name))).splitOn newline
        = s.splitOn newline ++ names.flatMap fun name =>
          (urlPrefix ++ (name.bytes ++ tab :: field name)).splitOn newline := by
    induction names with
    | nil => simp
    | cons name names ih =>
      intro s
      rw [List.flatMap_cons, List.flatMap_cons, List.cons_append, List.splitOn_append_cons_self, ih]
  rw [indexText, hlines, List.splitOn_eq_singleton (by decide), List.singleton_append]

/-- The sync finds the text of the index again: it begins and ends with visible characters. -/
theorem trimSpace_tsvIndex (md5 : Bytes → Digest) (dir : FilePath) (files : Files)
    (urlPrefix : Bytes) :
    trimSpace (tsvIndex md5 dir files urlPrefix)
      = indexText urlPrefix (indexField md5 files dir) (results files dir) := by
  have hlast : ∃ b, visible b = true ∧
      (indexText urlPrefix (indexField md5 files dir) (results files dir)).getLast? = some b := by
    rcases List.eq_nil_or_concat (results files dir) with hnil | ⟨init, name, hconcat⟩
    · rw [hnil]
      exact ⟨48, by decide, rfl⟩
    · -- The last line ends with its digest.
      have hdigest : base64 (md5 (contentOf files dir name)).bytes ≠ [] := by
        refine base64_ne_nil fun h => ?_
        have hsize := (md5 (contentOf files dir name)).size
        rw [h] at hsize
        cases hsize
      have hend : ∃ lead, indexText urlPrefix (indexField md5 files dir) (results files dir)
          = lead ++ base64 (md5 (contentOf files dir name)).bytes := by
        refine ⟨indexText urlPrefix (indexField md5 files dir) init ++ newline :: (urlPrefix
          ++ (name.bytes ++ tab :: (decimal (contentOf files dir name).length ++ [tab]))), ?_⟩
        rw [hconcat, List.concat_eq_append]
        simp [indexText, indexField]
      obtain ⟨lead, hlead⟩ := hend
      refine ⟨_, visible_of_mem_base64 (List.getLast_mem hdigest), ?_⟩
      rw [hlead, List.getLast?_append_of_ne_nil _ hdigest, List.getLast?_eq_some_getLast hdigest]
  obtain ⟨b, hb, hlast⟩ := hlast
  rw [tsvIndex_eq_indexText]
  exact trimSpace_concat_newline (a := 84) (by decide) hb rfl hlast

theorem newline_notMem_indexField (md5 : Bytes → Digest) (files : Files) (dir : FilePath)
    (name : FileName) : newline ∉ indexField md5 files dir name := by
  have hnewline : visible newline = false := by decide
  have hdecimal : ∀ n, newline ∉ decimal n := fun n h => by
    have hdigit := of_mem_decimal h
    exact absurd hdigit (by decide)
  have hbase : ∀ s, newline ∉ base64 s := fun s h => by
    have hvisible := visible_of_mem_base64 h
    rw [hnewline] at hvisible
    cases hvisible
  have htab : newline ≠ tab := by decide
  simp [indexField, hdecimal, hbase, htab]

/-! ### Calls -/

/-- The call for a line. -/
def lineCall (l : Bytes) : Option (Bytes × Bytes) :=
  (tsvEntry l).2.map fun name => (name, (tsvEntry l).1)

theorem tsvCalls_indexText (urlPrefix : Bytes) (field : FileName → Bytes)
    (names : List FileName) :
    tsvCalls (indexText urlPrefix field names) = names.flatMap fun name =>
      ((urlPrefix ++ (name.bytes ++ tab :: field name)).splitOn newline).filterMap lineCall := by
  rw [tsvCalls, tsvEntries, splitOn_indexText, List.tail_cons, List.filterMap_map,
    List.filterMap_flatMap]
  rfl

theorem lineCall_eq_some {l : Bytes} :
    lineCall l = some call ↔ call.2 = l.takeWhile (· != tab) ∧
      ∃ url, Url.parse call.2 = some url ∧ call.1 = lastPart slash url.path := by
  obtain ⟨name, u⟩ := call
  simp only [lineCall, tsvEntry, headD_splitOn, Option.map_map, Option.map_eq_some_iff,
    Function.comp_apply, Prod.mk.injEq]
  constructor
  · rintro ⟨url, hurl, rfl, rfl⟩
    exact ⟨rfl, url, hurl, rfl⟩
  · rintro ⟨rfl, url, hurl, rfl⟩
    exact ⟨url, hurl, rfl, rfl⟩

/-! ### Clean names come back -/

theorem denotes_of_clean (hslash : EndsWithSlash urlPrefix) (hclean : CleanPrefix urlPrefix)
    (hname : CleanName name.bytes) : Denotes urlPrefix name.bytes (urlPrefix ++ name.bytes) := by
  obtain ⟨_, _, hquestion, hhash, base, hbase, hpath⟩ := hclean
  obtain ⟨_, _, hpercent', hquestion', hhash'⟩ := hname
  exact ⟨List.prefix_append _ _, base, hbase, Url.parse_append_of_clean hslash hquestion hhash hbase
    hpath name.valid.1 hpercent' hquestion' hhash'⟩

/-- A clean name makes one line and one call. -/
theorem calls_of_clean (hslash : EndsWithSlash urlPrefix) (hclean : CleanPrefix urlPrefix)
    (hname : CleanName name.bytes) (hfield : newline ∉ field name) :
    ((urlPrefix ++ (name.bytes ++ tab :: field name)).splitOn newline).filterMap lineCall
      = [(name.bytes, urlPrefix ++ name.bytes)] := by
  obtain ⟨_, base, hbase, hparse⟩ := denotes_of_clean hslash hclean hname
  obtain ⟨htab, hnewline, _, _, base', hbase', hpath⟩ := hclean
  cases hbase'.symm.trans hbase
  obtain ⟨htab', hnewline', _⟩ := hname
  have hne : newline ≠ tab := by decide
  have hline : newline ∉ urlPrefix ++ (name.bytes ++ tab :: field name) := by
    simp [hnewline, hnewline', hfield, hne]
  have htext : tab ∉ urlPrefix ++ name.bytes := by simp [htab, htab']
  have hcall : lineCall (urlPrefix ++ (name.bytes ++ tab :: field name))
      = some (name.bytes, urlPrefix ++ name.bytes) := by
    rw [lineCall_eq_some]
    refine ⟨?_, _, hparse, ?_⟩
    · rw [← List.append_assoc, takeWhile_append_of_notMem htext,
        List.takeWhile_cons_of_neg (by simp), List.append_nil]
    · obtain ⟨path, hpath⟩ := hpath
      rw [hpath, lastPart_append name.valid.1]
  rw [List.splitOn_eq_singleton hline, List.filterMap_cons, hcall, List.filterMap_nil]

theorem roundTrip_of_clean (hslash : EndsWithSlash urlPrefix) (hclean : CleanPrefix urlPrefix)
    (hnames : ∀ name ∈ names, CleanName name.bytes) (hfield : ∀ name, newline ∉ field name)
    (hnodup : names.Nodup) : RoundTrip urlPrefix names (indexText urlPrefix field names) := by
  have hcalls : tsvCalls (indexText urlPrefix field names)
      = names.map fun name => (name.bytes, urlPrefix ++ name.bytes) := by
    rw [tsvCalls_indexText, List.map_eq_flatMap]
    exact List.flatMap_congr fun name hname =>
      calls_of_clean hslash hclean (hnames name hname) (hfield name)
  refine ⟨List.isPrefixOf_iff_prefix.mpr (List.prefix_append _ _), fun name hname => ?_,
    fun call hcall _ => ?_⟩
  · refine ⟨urlPrefix ++ name.bytes, ?_, denotes_of_clean hslash hclean (hnames name hname)⟩
    have hfilter : names.filter (fun name' => decide (name'.bytes = name.bytes)) = [name] := by
      refine List.perm_singleton.mp ((List.perm_ext_iff_of_nodup (hnodup.filter _)
        (List.nodup_singleton _)).mpr fun name' => ?_)
      rw [List.mem_filter, List.mem_singleton, decide_eq_true_eq]
      constructor
      · intro h
        exact FileName.eq_of_bytes h.2
      · rintro rfl
        exact ⟨hname, rfl⟩
    rw [hcalls, List.filter_map]
    exact congrArg (List.map _) hfilter
  · rw [hcalls, List.mem_map] at hcall
    obtain ⟨name, hname, rfl⟩ := hcall
    exact ⟨name, hname, rfl⟩

/-! ### Other names do not -/

/-- What a name leaves of itself in the field of the URL. -/
def urlPart (fname : Bytes) : Bytes :=
  (fname.takeWhile (· != newline)).takeWhile (· != tab)

theorem takeWhile_line (fname rest : Bytes) :
    ((fname ++ tab :: rest).takeWhile (· != newline)).takeWhile (· != tab) = urlPart fname := by
  unfold urlPart
  by_cases hnewline : newline ∈ fname
  · rw [takeWhile_append_of_mem hnewline]
  · rw [takeWhile_append_of_notMem hnewline, takeWhile_of_notMem hnewline,
      List.takeWhile_cons_of_pos (by decide)]
    by_cases htab : tab ∈ fname
    · rw [takeWhile_append_of_mem htab]
    · rw [takeWhile_append_of_notMem htab, List.takeWhile_cons_of_neg (by simp), List.append_nil,
        takeWhile_of_notMem htab]

/-- The field of the URL in a line that a name makes has no slash. -/
theorem slash_notMem_field {fname rest l : Bytes} (hname : slash ∉ fname) (hrest : newline ∉ rest)
    (hl : l ∈ (fname ++ tab :: rest).splitOn newline) : slash ∉ l.takeWhile (· != tab) := by
  induction hn : fname.length using Nat.strongRecOn generalizing fname with
  | _ n ih =>
    by_cases hnewline : newline ∈ fname
    · obtain ⟨a, b, rfl, ha⟩ := List.eq_append_cons_of_mem hnewline
      have hb : slash ∉ b := fun h =>
        hname (List.mem_append_right _ (List.mem_cons_of_mem _ h))
      rw [List.append_assoc, List.cons_append, List.splitOn_append_cons_self,
        List.splitOn_eq_singleton ha] at hl
      rcases List.mem_append.mp hl with hl | hl
      · obtain rfl := List.mem_singleton.mp hl
        exact fun h => hname (List.mem_append_left _ (List.takeWhile_subset _ h))
      · exact ih b.length (by simp at hn; omega) hb hl rfl
    · have hne : newline ≠ tab := by decide
      have hline : newline ∉ fname ++ tab :: rest := by simp [hnewline, hrest, hne]
      rw [List.splitOn_eq_singleton hline, List.mem_singleton] at hl
      have htake := takeWhile_line fname rest
      rw [takeWhile_of_notMem hline, urlPart] at htake
      rw [hl, htake]
      exact fun h => hname (List.takeWhile_subset _ (List.takeWhile_subset _ h))

/-- A call with a URL that extends the URL of the directory comes from the first line of a name. -/
theorem eq_append_urlPart (hslash : EndsWithSlash urlPrefix)
    (hfield : ∀ name, newline ∉ field name)
    (hcall : call ∈ tsvCalls (indexText urlPrefix field names)) (hextends : urlPrefix <+: call.2) :
    tab ∉ urlPrefix ∧ newline ∉ urlPrefix ∧
      ∃ name ∈ names, call.2 = urlPrefix ++ urlPart name.bytes := by
  rw [tsvCalls_indexText, List.mem_flatMap] at hcall
  obtain ⟨name, hname, hcall⟩ := hcall
  obtain ⟨l, hl, hcall⟩ := List.mem_filterMap.mp hcall
  obtain ⟨hfst, _⟩ := lineCall_eq_some.mp hcall
  rw [hfst] at hextends
  have htab : tab ∉ urlPrefix := fun h => by
    have := List.mem_takeWhile_imp (hextends.subset h)
    simp at this
  have hnewline : newline ∉ urlPrefix := fun h =>
    notMem_of_mem_splitOn hl (List.takeWhile_subset _ (hextends.subset h))
  refine ⟨htab, hnewline, name, hname, hfst.trans ?_⟩
  rw [splitOn_append_of_notMem hnewline] at hl
  rcases List.mem_cons.mp hl with rfl | hl
  · rw [takeWhile_append_of_notMem htab, takeWhile_line]
  · exact absurd (hextends.subset hslash.mem)
      (slash_notMem_field name.valid.1 (hfield name) (List.mem_of_mem_tail hl))

/-- What comes back of a name is not longer than the name, and it is the name only if that is
clean. -/
theorem length_of_unescape_urlPart {fname d : Bytes}
    (hd : unescape .any (cut question (cut hash (urlPart fname)).1).1 = some d) :
    (CleanName fname → d = fname) ∧ (¬ CleanName fname → d.length < fname.length) := by
  obtain ⟨hle, hlt⟩ := length_of_unescape hd
  have hlen : ∀ (c : UInt8) (s : Bytes), (s.takeWhile (· != c)).length ≤ s.length :=
    fun c s => (List.takeWhile_sublist _).length_le
  unfold urlPart cut at hd hle hlt
  dsimp only at hd hle hlt
  have hlen₁ := hlen newline fname
  have hlen₂ := hlen tab (fname.takeWhile (· != newline))
  have hlen₃ := hlen hash ((fname.takeWhile (· != newline)).takeWhile (· != tab))
  have hlen₄ := hlen question
    (((fname.takeWhile (· != newline)).takeWhile (· != tab)).takeWhile (· != hash))
  -- One byte after the other that would cut the name off, in the order in which the index is read.
  by_cases hnewline : newline ∈ fname
  · have := length_takeWhile_lt hnewline
    exact ⟨fun h => absurd hnewline h.2.1, fun _ => by omega⟩
  rw [takeWhile_of_notMem hnewline] at *
  by_cases htab : tab ∈ fname
  · have := length_takeWhile_lt htab
    exact ⟨fun h => absurd htab h.1, fun _ => by omega⟩
  rw [takeWhile_of_notMem htab] at *
  by_cases hhash : hash ∈ fname
  · have := length_takeWhile_lt hhash
    exact ⟨fun h => absurd hhash h.2.2.2.2, fun _ => by omega⟩
  rw [takeWhile_of_notMem hhash] at *
  by_cases hquestion : question ∈ fname
  · have := length_takeWhile_lt hquestion
    exact ⟨fun h => absurd hquestion h.2.2.2.1, fun _ => by omega⟩
  rw [takeWhile_of_notMem hquestion] at *
  by_cases hpercent : percent ∈ fname
  · exact ⟨fun h => absurd hpercent h.2.2.1, fun _ => hlt hpercent⟩
  · exact ⟨fun _ => unescape_of_notMem hpercent hd,
      fun h => absurd ⟨htab, hnewline, hpercent, hquestion, hhash⟩ h⟩

/-- A name that is asked for comes from what a name leaves in the URL. -/
theorem source_of_roundTrip (hslash : EndsWithSlash urlPrefix)
    (hfield : ∀ name, newline ∉ field name)
    (h : RoundTrip urlPrefix names (indexText urlPrefix field names)) (hname : name ∈ names) :
    CleanPrefix urlPrefix ∧ ∃ name' ∈ names,
      unescape .any (cut question (cut hash (urlPart name'.bytes)).1).1 = some name.bytes := by
  obtain ⟨u, hfilter, hextends, base, hbase, hu⟩ := h.each name hname
  have hmem : (name.bytes, u) ∈ (tsvCalls (indexText urlPrefix field names)).filter
      (fun call => call.1 = name.bytes) := by
    rw [hfilter]
    exact List.mem_singleton.mpr rfl
  have hcall := (List.mem_filter.mp hmem).1
  obtain ⟨htab, hnewline, name', hname', rfl⟩ := eq_append_urlPart hslash hfield hcall hextends
  -- Behind a query or a fragment, or with no path, the name would not come into the path.
  have hcut : ¬ (question ∈ urlPrefix ∨ hash ∈ urlPrefix) := fun hcut => by
    have hpath := Url.path_of_parse_append_of_cut hcut hbase hu
    exact name.valid.2.1 (List.append_right_eq_self.mp hpath)
  rw [not_or] at hcut
  have hpart : slash ∉ urlPart name'.bytes := fun h =>
    name'.valid.1 (List.takeWhile_subset _ (List.takeWhile_subset _ h))
  rcases Url.path_of_parse_append hslash hcut.1 hcut.2 hpart hbase hu with
    hnil | ⟨hpath, d, hd, heq⟩
  · exact absurd (List.append_eq_nil_iff.mp hnil).2 name.valid.2.1
  · refine ⟨⟨htab, hnewline, hcut.1, hcut.2, base, hbase, hpath⟩, name', hname', ?_⟩
    rw [hd, List.append_cancel_left heq]

/-- With a name that is not clean there would be longer and longer ones. -/
theorem clean_of_sources
    (h : ∀ name ∈ names, ∃ name' ∈ names,
      unescape .any (cut question (cut hash (urlPart name'.bytes)).1).1 = some name.bytes) :
    ∀ name ∈ names, CleanName name.bytes := by
  by_contra hbad
  have hlonger : ∀ n, ∃ name ∈ names, ¬ CleanName name.bytes ∧ n ≤ name.bytes.length := by
    intro n
    induction n with
    | zero =>
      push Not at hbad
      obtain ⟨name, hname, hclean⟩ := hbad
      exact ⟨name, hname, hclean, Nat.zero_le _⟩
    | succ n ih =>
      obtain ⟨name, hname, hclean, hn⟩ := ih
      obtain ⟨name', hname', hd⟩ := h name hname
      obtain ⟨hself, hlt⟩ := length_of_unescape_urlPart hd
      have hclean' : ¬ CleanName name'.bytes := fun hclean' =>
        hclean ((hself hclean').symm ▸ hclean')
      have := hlt hclean'
      exact ⟨name', hname', hclean', by omega⟩
  obtain ⟨name, hname, _, hlen⟩ := hlonger ((names.map fun name => name.bytes.length).sum + 1)
  have := List.le_sum_of_mem (List.mem_map_of_mem (f := fun name => name.bytes.length) hname)
  omega

end

/-- When the results of one server come to another one through the index. -/
theorem roundTrip_iff (md5 : Bytes → Digest) (dir : FilePath) (files : Files) (urlPrefix : Bytes)
    (hslash : EndsWithSlash urlPrefix) :
    RoundTrip urlPrefix (results files dir) (trimSpace (tsvIndex md5 dir files urlPrefix)) ↔
      results files dir = [] ∨
        (CleanPrefix urlPrefix ∧ ∀ name ∈ results files dir, CleanName name.bytes) := by
  have hfield := newline_notMem_indexField md5 files dir
  rw [trimSpace_tsvIndex]
  constructor
  · intro h
    cases hresults : results files dir with
    | nil => exact .inl rfl
    | cons name names =>
      rw [hresults] at h
      right
      exact ⟨(source_of_roundTrip hslash hfield h List.mem_cons_self).1,
        clean_of_sources fun _ hname => (source_of_roundTrip hslash hfield h hname).2⟩
  · rintro (hnil | ⟨hclean, hnames⟩)
    · rw [hnil]
      refine ⟨rfl, fun name hname => absurd hname List.not_mem_nil, fun call hcall => ?_⟩
      rw [tsvCalls_indexText] at hcall
      exact absurd hcall List.not_mem_nil
    · exact roundTrip_of_clean hslash hclean hnames hfield (nodup_results files dir)

/-- The files with the names in the root directory. -/
def filesNamed (names : List Bytes) : Files :=
  names.foldl (fun files name => files.write (FilePath.join [] name) []) ∅

/-- Two results, one of them with a blank and a colon in its name. -/
theorem roundTrip_two_results :
    (results (filesNamed [ascii "a.json", ascii "b c:d.json"]) []).length = 2 ∧
      RoundTrip (ascii "http://h/data/")
        (results (filesNamed [ascii "a.json", ascii "b c:d.json"]) [])
        (trimSpace (tsvIndex zeroMd5 [] (filesNamed [ascii "a.json", ascii "b c:d.json"])
          (ascii "http://h/data/"))) := by
  have hslash : EndsWithSlash (ascii "http://h/data/") := ⟨ascii "http://h/data", rfl⟩
  refine ⟨by decide +kernel, (roundTrip_iff zeroMd5 [] _ _ hslash).mpr (.inr ?_)⟩
  refine ⟨⟨by decide, by decide, by decide, by decide,
    { scheme := ascii "http", host := ascii "h", path := ascii "/data/" }, by decide +kernel,
    ascii "/data", rfl⟩, ?_⟩
  unfold CleanName
  decide +kernel

/-- A percent sign in a name is read as the start of an escape. The line of the name is not a URL,
and the result is not asked for. -/
theorem percent_name_lost :
    ¬ RoundTrip (ascii "http://h/data/") (results (filesNamed [ascii "50%.json"]) [])
      (trimSpace (tsvIndex zeroMd5 [] (filesNamed [ascii "50%.json"])
        (ascii "http://h/data/"))) := by
  intro h
  have hcalls : tsvCalls (trimSpace (tsvIndex zeroMd5 [] (filesNamed [ascii "50%.json"])
      (ascii "http://h/data/"))) = [] := by
    decide +kernel
  have hname : (results (filesNamed [ascii "50%.json"]) []).length = 1 := by
    decide +kernel
  obtain ⟨name, hname⟩ := List.length_eq_one_iff.mp hname
  obtain ⟨u, hfilter, _⟩ := h.each name (hname ▸ List.mem_singleton.mpr rfl)
  rw [hcalls] at hfilter
  cases hfilter

end IstioVendor.Ui
