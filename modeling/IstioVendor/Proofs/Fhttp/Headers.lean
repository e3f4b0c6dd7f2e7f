import IstioVendor.Proofs.Fhttp.RequestLines

/-!
# `IstioVendor.Proofs.Fhttp.Headers`: reading the headers changes them

`GetHeaders` adds the value for `Host` to the header of the options, and not to a copy of it. A
second call returns the value twice, and a request has the line that was read besides the one that
`NewFastClient` writes. When there is no value for `Host`, a call changes nothing.

`headers_readOnly_iff` is about a sequence of calls and all others that differ from it in calls of
`GetHeaders` only. For these calls to be harmless, no text may set the value for `Host`. Then the
request has one `Host` line, if no line end in the URL or in a key makes a second one.
-/

set_option autoImplicit false

namespace IstioVendor.Fhttp

open Lib

variable {call : HeaderCall} {calls : List HeaderCall} {hdr : Bytes} {header : Header}
  {keys : List Bytes} {kv : Bytes × Bytes}

section
variable {w : ClientWorld} {o : HTTPOptions}

/-! ### Calls -/

/-- The options before the first call. -/
def HTTPOptions.fresh (o : HTTPOptions) : HTTPOptions :=
  { o with extraHeaders := none, hostOverride := [] }

/-- The call sets the value for `Host`. -/
def HeaderCall.SetsHost : HeaderCall → Prop
  | .add hdr => ∃ v, hostValue hdr = some v ∧ v ≠ []
  | _ => False

/-- The calls that are no calls of `GetHeaders`. -/
def writes (calls : List HeaderCall) : List HeaderCall := calls.filter (· ≠ .get)

theorem writes_append (pre post : List HeaderCall) :
    writes (pre ++ post) = writes pre ++ writes post := List.filter_append ..

theorem mem_writes_of_setsHost (hmem : call ∈ calls) (h : call.SetsHost) : call ∈ writes calls := by
  refine List.mem_filter.mpr ⟨hmem, decide_eq_true fun hget => ?_⟩
  rw [hget] at h
  exact h

theorem runCalls_append (o : HTTPOptions) (pre post : List HeaderCall) :
    (runCalls w o (pre ++ post)).2 = (runCalls w (runCalls w o pre).2 post).2 := by
  induction pre generalizing o with
  | nil => rfl
  | cons call pre ih => exact ih (call.run w o).2

/-- A text that sets the value for `Host`. -/
theorem add_of_hostValue {v : Bytes} (h : hostValue hdr = some v) (o : HTTPOptions) :
    ∃ header, (o.addAndValidateExtraHeader w hdr).2.extraHeaders = some header ∧
      (o.addAndValidateExtraHeader w hdr).2.hostOverride = v := by
  cases hextra : o.extraHeaders with
  | none =>
    rw [add_of_none hextra, add_eq rfl, h]
    exact ⟨_, rfl, rfl⟩
  | some header =>
    rw [add_eq hextra, h]
    exact ⟨_, rfl, rfl⟩

/-- Without a value for `Host`, nothing is added to the header that is read. -/
theorem run_get (h : o.hostOverride = []) : HeaderCall.run w o .get = ([o.extraHeaders], o) := by
  have hget : o.getHeaders = (o.extraHeaders, o) := if_pos h
  rw [HeaderCall.run, hget]

/-- With a value for `Host`, it is added to the header of the options. -/
theorem run_get_of_host (hextra : o.extraHeaders = some header) (h : o.hostOverride ≠ []) :
    HeaderCall.run w o .get = ([some (Header.add header (ascii "Host") o.hostOverride)],
      { o with extraHeaders := some (Header.add header (ascii "Host") o.hostOverride) }) := by
  have hget : o.getHeaders = (some (Header.add header (ascii "Host") o.hostOverride),
      { o with extraHeaders := some (Header.add header (ascii "Host") o.hostOverride) }) := by
    rw [HTTPOptions.getHeaders, if_neg h, hextra]
    rfl
  rw [HeaderCall.run, hget]

theorem values_add_host (header : Header) (v : Bytes) :
    Header.values (Header.add header (ascii "Host") v) (ascii "Host")
      = Header.values header (ascii "Host") ++ [v] := by
  have hkey : canonicalKey (ascii "Host") = ascii "Host" := by decide
  unfold Header.values Header.add
  rw [List.filter_append, hkey, List.map_append]
  simp

/-! ### The keys in the header -/

/-- The keys of the headers that were added since the header was made. -/
def keyStep (keys : List Bytes) : HeaderCall → List Bytes
  | .add hdr => keys ++ ((otherHeader hdr).map Prod.fst).toList
  | .init => []
  | .reset => []
  | .get => keys

def keysOf (calls : List HeaderCall) : List Bytes := calls.foldl keyStep []

theorem keysOf_writes (calls : List HeaderCall) : keysOf (writes calls) = keysOf calls := by
  have hfold : ∀ keys, (writes calls).foldl keyStep keys = calls.foldl keyStep keys := by
    induction calls with
    | nil => exact fun _ => rfl
    | cons call calls ih =>
      intro keys
      cases call with
      | get => exact ih keys
      | add hdr => exact ih _
      | init => exact ih _
      | reset => exact ih _
  exact hfold []

/-- The options have no value for `Host`, and the header has the keys. -/
structure HasKeys (o : HTTPOptions) (keys : List Bytes) : Prop where
  host : o.hostOverride = []
  sound : ∀ kv ∈ o.extraHeaders.getD [],
    kv.1 = ascii "User-Agent" ∨ ∃ key ∈ keys, kv.1 = canonicalKey key
  complete : ∀ key ∈ keys, ∃ v, (canonicalKey key, v) ∈ o.extraHeaders.getD []
  names : ∀ key ∈ keys, colon ∉ key

/-- There is no colon in a key. -/
theorem colon_notMem_of_otherHeader (h : otherHeader hdr = some kv) : colon ∉ kv.1 := by
  obtain ⟨kv', hsplit, h⟩ := Option.bind_eq_some_iff.mp h
  split_ifs at h
  cases h
  unfold splitHeader at hsplit
  split_ifs at hsplit
  cases hsplit
  intro hmem
  have hmem : colon ∈ hdr.takeWhile (· != colon) := mem_of_mem_trimSpace hmem
  have hne := List.mem_takeWhile_imp hmem
  exact bne_iff_ne.mp hne rfl

theorem HasKeys.eq_nil (h : HasKeys o keys) (hnone : o.extraHeaders = none) : keys = [] := by
  refine List.eq_nil_iff_forall_not_mem.mpr fun key hkey => ?_
  obtain ⟨v, hv⟩ := h.complete key hkey
  rw [hnone] at hv
  cases hv

/-- An empty header. -/
theorem hasKeys_nil (hhost : o.hostOverride = []) (hextra : o.extraHeaders.getD [] = []) :
    HasKeys o [] := by
  refine ⟨hhost, ?_, fun _ h => absurd h List.not_mem_nil, fun _ h => absurd h List.not_mem_nil⟩
  rw [hextra]
  exact fun _ h => absurd h List.not_mem_nil

theorem hasKeys_initHeaders (w : ClientWorld) (o : HTTPOptions) : HasKeys (o.initHeaders w) [] where
  host := rfl
  sound := fun kv hkv => .inl (by rw [List.mem_singleton.mp hkv])
  complete := fun _ h => absurd h List.not_mem_nil
  names := fun _ h => absurd h List.not_mem_nil

theorem HasKeys.add (h : HasKeys o keys) (hextra : o.extraHeaders = some header)
    (hhdr : ¬ (HeaderCall.add hdr).SetsHost) :
    HasKeys (o.addAndValidateExtraHeader w hdr).2 (keyStep keys (.add hdr)) := by
  have hsound := h.sound
  have hcomplete := h.complete
  rw [hextra, Option.getD_some] at hsound hcomplete
  rw [add_eq hextra]
  have hlast : ∀ key ∈ ((otherHeader hdr).map Prod.fst).toList,
      ∃ kv', otherHeader hdr = some kv' ∧ kv'.1 = key := by
    intro key hkey
    simpa using hkey
  refine ⟨?_, ?_, ?_, ?_⟩
  · show (hostValue hdr).getD o.hostOverride = []
    rw [h.host]
    cases hv : hostValue hdr with
    | none => rfl
    | some v => exact not_not.mp fun hne => hhdr ⟨v, hv, hne⟩
  · intro kv hkv
    rcases List.mem_append.mp hkv with hkv | hkv
    · rcases hsound kv hkv with hua | ⟨key, hkey, heq⟩
      · exact .inl hua
      · exact .inr ⟨key, List.mem_append_left _ hkey, heq⟩
    · obtain ⟨hdr', hhdr', kv', hother, rfl⟩ := exists_of_mem_added hkv
      obtain rfl := List.mem_singleton.mp hhdr'
      refine .inr ⟨kv'.1, List.mem_append_right _ ?_, rfl⟩
      simp [hother]
  · intro key hkey
    rcases List.mem_append.mp hkey with hkey | hkey
    · obtain ⟨v, hv⟩ := hcomplete key hkey
      exact ⟨v, List.mem_append_left _ hv⟩
    · obtain ⟨kv', hother, rfl⟩ := hlast key hkey
      exact ⟨kv'.2, List.mem_append_right _ (mem_added (List.mem_singleton.mpr rfl) hother)⟩
  · intro key hkey
    rcases List.mem_append.mp hkey with hkey | hkey
    · exact h.names key hkey
    · obtain ⟨kv', hother, rfl⟩ := hlast key hkey
      exact colon_notMem_of_otherHeader hother

/-- One call that sets no value for `Host`. -/
theorem HasKeys.run (h : HasKeys o keys) (hcall : ¬ call.SetsHost) :
    HasKeys (call.run w o).2 (keyStep keys call) := by
  cases call with
  | add hdr =>
    show HasKeys (o.addAndValidateExtraHeader w hdr).2 _
    cases hextra : o.extraHeaders with
    | none =>
      -- The first text makes the header, and no key was added before it.
      rw [add_of_none hextra, h.eq_nil hextra]
      exact (hasKeys_initHeaders w o).add rfl hcall
    | some header => exact h.add hextra hcall
  | init => exact hasKeys_initHeaders w o
  | reset => exact hasKeys_nil rfl rfl
  | get =>
    rw [run_get h.host]
    exact h

/-- A run of calls that set no value for `Host`. -/
theorem HasKeys.runAll (h : HasKeys o keys) (hcalls : ∀ call ∈ calls, ¬ call.SetsHost) :
    HasKeys (runCalls w o calls).2 (calls.foldl keyStep keys) := by
  induction calls generalizing o keys with
  | nil => exact h
  | cons call calls ih =>
    exact ih (h.run (hcalls call List.mem_cons_self)) fun call' hmem =>
      hcalls call' (List.mem_cons_of_mem call hmem)

theorem hasKeys_runCalls (o : HTTPOptions) (hcalls : ∀ call ∈ calls, ¬ call.SetsHost) :
    HasKeys (runCalls w o.fresh calls).2 (keysOf calls) :=
  (hasKeys_nil rfl rfl).runAll hcalls

theorem HasKeys.init (h : HasKeys o keys) (url : Bytes) : HasKeys (o.init w url) keys := by
  obtain ⟨-, -, ⟨hnone, -, hextra, hhost⟩ | ⟨-, hextra, hhost⟩⟩ := init_eq w o url
  · refine ⟨hhost, ?_, ?_, h.names⟩
    · rw [hextra]
      exact fun kv hkv => .inl (by rw [List.mem_singleton.mp hkv])
    · rw [h.eq_nil hnone]
      exact fun _ hkey => absurd hkey List.not_mem_nil
  · refine ⟨hhost.trans h.host, ?_, ?_, h.names⟩
    · rw [hextra]
      exact h.sound
    · rw [hextra]
      exact h.complete

/-! ### `Host` lines -/

/-- The line has the name `Host`. -/
def isHostLine (l : Bytes) : Bool := (ascii "host:").isPrefixOf (l.map toLower)

/-- The last line of a text. -/
def lastLine (s : Bytes) : Bytes := (splitLines s).getLastD []

theorem lastLine_mem (s : Bytes) : lastLine s ∈ splitLines s := by
  obtain ⟨l, ls, hls⟩ := List.exists_cons_of_ne_nil (splitLines_ne_nil s)
  rw [lastLine, hls, List.getLastD_cons, List.getLastD_eq_getLast?]
  cases hlast : ls.getLast? with
  | none => exact List.mem_cons_self
  | some l' => exact List.mem_cons_of_mem l (List.mem_of_getLast? hlast)

theorem colon_mem_of_isHostLine {l : Bytes} (h : isHostLine l = true) : colon ∈ l := by
  obtain ⟨rest, hrest⟩ := List.isPrefixOf_iff_prefix.mp h
  have hmem : colon ∈ l.map toLower := by
    rw [← hrest]
    exact List.mem_append_left _ (by decide)
  obtain ⟨b, hb, hlower⟩ := List.mem_map.mp hmem
  rwa [← (toLower_eq_iff (by decide)).mp hlower]

/-- A name without a colon, with a colon behind it. -/
theorem isHostLine_name {name : Bytes} (hname : colon ∉ name) (rest : Bytes) :
    isHostLine (name ++ colon :: rest) = true ↔ name.map toLower = ascii "host" := by
  have hlower : colon ∉ name.map toLower := by
    intro hmem
    obtain ⟨b, hb, hlower⟩ := List.mem_map.mp hmem
    exact hname ((toLower_eq_iff (by decide)).mp hlower ▸ hb)
  unfold isHostLine
  rw [List.isPrefixOf_iff_prefix, List.map_append, List.map_cons]
  constructor
  · rintro ⟨t, ht⟩
    have htake := congrArg (List.takeWhile (· != colon)) ht
    have hcolon : toLower colon = colon := by decide
    rw [hcolon, takeWhile_append_of_notMem hlower, List.takeWhile_cons_of_neg (by simp),
      List.append_nil] at htake
    rw [← htake]
    rfl
  · intro heq
    rw [heq]
    exact ⟨rest.map toLower, rfl⟩

/-- The line of a header is a `Host` line iff the last line of its key is `host`. -/
theorem hostLines_line (hkey : colon ∉ kv.1) :
    (∀ l ∈ splitLines (Header.line kv), isHostLine l = false) ↔
      (lastLine kv.1).map toLower ≠ ascii "host" := by
  have hnot : ∀ l ∈ splitLines kv.1, colon ∉ l := fun l hl hmem =>
    hkey (mem_of_mem_splitLines hl hmem)
  -- A line end in the key divides the line. The colon is behind the last part of the key.
  have hlast := isHostLine_name (hnot _ (lastLine_mem kv.1)) (32 :: Header.cleanValue kv.2)
  rw [Header.line, List.append_assoc, splitLines_append_isLine _ (isLine_value kv.2), ← lastLine]
  constructor
  · intro h heq
    have hfalse := h _ (List.mem_append_right _ List.mem_cons_self)
    exact Bool.false_ne_true (hfalse.symm.trans (hlast.mpr heq))
  · intro h l hl
    rcases List.mem_append.mp hl with hl | hl
    · refine Bool.eq_false_iff.mpr fun hhost => hnot l (List.mem_of_mem_dropLast hl) ?_
      exact colon_mem_of_isHostLine hhost
    · obtain rfl := List.mem_singleton.mp hl
      exact Bool.eq_false_iff.mpr fun hhost => h (hlast.mp hhost)

theorem map_toLower_canonicalBytes (upper : Bool) (key : Bytes) :
    (canonicalBytes upper key).map toLower = key.map toLower := by
  have hlower : ∀ b : UInt8, toLower (toLower b) = toLower b := by
    intro b
    unfold toLower isUpper
    grind
  have hupper : ∀ b : UInt8, toLower (toUpper b) = toLower b := by
    intro b
    unfold toUpper toLower isUpper
    grind
  induction key generalizing upper with
  | nil => rfl
  | cons b key ih =>
    rw [canonicalBytes, List.map_cons, List.map_cons, ih]
    cases upper with
    | false => rw [if_neg Bool.false_ne_true, hlower]
    | true => rw [if_pos rfl, hupper]

/-- The canonical form of a key changes the case of its letters only. -/
theorem lastLine_canonicalKey (key : Bytes) :
    (lastLine (canonicalKey key)).map toLower = (lastLine key).map toLower := by
  unfold canonicalKey
  split_ifs with htoken
  · have hline := isLine_of_tokens htoken
    have hcanonical := isLine_canonicalBytes hline true
    rw [lastLine, splitLines_of_not_infix_crlf hcanonical.not_infix_crlf, lastLine,
      splitLines_of_not_infix_crlf hline.not_infix_crlf]
    exact map_toLower_canonicalBytes true key
  · rfl

theorem colon_notMem_canonicalKey {key : Bytes} (h : colon ∉ key) : colon ∉ canonicalKey key := by
  unfold canonicalKey
  split_ifs
  · intro hmem
    have hcolon : toLower colon = colon := by decide
    have hlower := List.mem_map_of_mem (f := toLower) hmem
    rw [map_toLower_canonicalBytes, hcolon] at hlower
    obtain ⟨b, hb, heq⟩ := List.mem_map.mp hlower
    exact h ((toLower_eq_iff (by decide)).mp heq ▸ hb)
  · exact h

/-- No line of the headers is a `Host` line iff no key ends with the line `host`. -/
theorem HasKeys.hostLines_iff (h : HasKeys o keys) :
    (∀ kv ∈ o.extraHeaders.getD [], ∀ l ∈ splitLines (Header.line kv), isHostLine l = false) ↔
      ∀ key ∈ keys, (lastLine key).map toLower ≠ ascii "host" := by
  constructor
  · intro hlines key hkey
    obtain ⟨v, hv⟩ := h.complete key hkey
    have hnot := (hostLines_line (colon_notMem_canonicalKey (h.names key hkey))).mp
      (hlines _ hv)
    rwa [lastLine_canonicalKey] at hnot
  · intro hkeys kv hkv
    rcases h.sound kv hkv with hua | ⟨key, hkey, heq⟩
    · rw [hostLines_line (by rw [hua]; decide), hua]
      decide
    · rw [hostLines_line (by rw [heq]; exact colon_notMem_canonicalKey (h.names key hkey)), heq,
        lastLine_canonicalKey]
      exact hkeys key hkey

theorem countP_flatMap_eq_zero {p : Bytes → Bool} {ls : List Bytes} :
    (ls.flatMap splitLines).countP p = 0 ↔ ∀ l ∈ ls, ∀ l' ∈ splitLines l, p l' = false := by
  rw [List.countP_eq_zero]
  constructor
  · intro h l hl l' hl'
    exact Bool.eq_false_iff.mpr (h l' (List.mem_flatMap.mpr ⟨l, hl, hl'⟩))
  · intro h l' hl'
    obtain ⟨l, hl, hl'⟩ := List.mem_flatMap.mp hl'
    exact Bool.eq_false_iff.mp (h l hl l' hl')

/-- The `Host` lines of a request for HTTP/1.1 without a value for `Host`. -/
theorem HasKeys.countP_request (h : HasKeys o keys) (hhttp10 : o.http10 = false) {url : Url}
    (hurl : IsLine url.host) :
    (splitLines (fastRequest w.withWrite o url)).countP isHostLine = 1 ↔
      (∀ l ∈ splitLines (startLine w o url), isHostLine l = false) ∧
        ∀ key ∈ keys, (lastLine key).map toLower ≠ ascii "host" := by
  -- The line of the URL's host is the one, so that no other part may have one.
  have hhost : (splitLines (hostLine [] url)).countP isHostLine = 1 := by
    have hline : IsLine (hostLine [] url) := isLine_append (by decide) hurl
    have hname := (isHostLine_name (show colon ∉ ascii "Host" by decide) (32 :: url.host)).mpr
      (by decide)
    rw [splitLines_of_not_infix_crlf hline.not_infix_crlf, List.countP_singleton]
    exact if_pos hname
  have hclose : ((closeLines o).flatMap splitLines).countP isHostLine = 0 := by
    unfold closeLines
    cases o.disableKeepAlive <;> decide
  have hheaders : (((Header.sorted (o.extraHeaders.getD [])).map Header.line).flatMap
      splitLines).countP isHostLine = 0 ↔
        ∀ key ∈ keys, (lastLine key).map toLower ≠ ascii "host" := by
    rw [countP_flatMap_eq_zero, ← h.hostLines_iff, List.forall_mem_map]
    exact forall_congr' fun kv => imp_congr_left (sorted_perm _).mem_iff
  have hstart : (splitLines (startLine w o url)).countP isHostLine = 0 ↔
      ∀ l ∈ splitLines (startLine w o url), isHostLine l = false := by
    rw [List.countP_eq_zero]
    exact forall_congr' fun l => imp_congr_right fun _ => Bool.eq_false_iff.symm
  have hblank : ([[]].flatMap splitLines ++ [[]]).countP isHostLine = 0 := by decide
  rw [fastRequest_eq, splitLines_joinLines, requestLines, hhttp10, if_neg Bool.false_ne_true,
    h.host, List.flatMap_append, List.append_assoc, List.countP_append, hblank, List.flatMap_append,
    List.flatMap_cons, List.flatMap_cons]
  simp only [List.countP_append]
  rw [hhost, hclose, ← hheaders, ← hstart]
  omega

/-! ### The result -/

/-- Calls of `GetHeaders` can be put in and taken out: the others return the same headers, and the
request is the same. A request for HTTP/1.1 has one `Host` line. -/
structure ReadOnly (w : ClientWorld) (o : HTTPOptions) (calls : List HeaderCall) : Prop where
  returned : ∀ pre post, writes (pre ++ post) = writes calls →
    (runCalls w (runCalls w o.fresh (pre ++ [.get])).2 post).1.map (Option.map Header.values)
      = (runCalls w (runCalls w o.fresh pre).2 post).1.map (Option.map Header.values)
  request : ∀ pre post, writes (pre ++ post) = writes calls →
    (newFastClient w.withWrite (runCalls w o.fresh (pre ++ .get :: post)).2).1.request
      = (newFastClient w.withWrite (runCalls w o.fresh (pre ++ post)).2).1.request
  oneHost : o.http10 = false → ∀ calls', writes calls' = writes calls → ∀ req,
    (newFastClient w.withWrite (runCalls w o.fresh calls').2).1.request = some req →
      (splitLines req).countP isHostLine = 1

/-- No text sets the value for `Host`. When there is a request for HTTP/1.1, then neither its
request line nor a key that is in the header at the end makes a `Host` line of its own. -/
structure NoHostTexts (w : ClientWorld) (o : HTTPOptions) (calls : List HeaderCall) : Prop where
  unset : ∀ call ∈ calls, ¬ call.SetsHost
  lines : o.http10 = false → ∀ url, fastUrl w (o.init w o.url).url = some url →
    (∀ l ∈ splitLines (startLine w o url), isHostLine l = false) ∧
      ∀ key ∈ keysOf calls, (lastLine key).map toLower ≠ ascii "host"

variable {calls : List HeaderCall}

/-- What is not set in a sequence is not set in one with the same writes. -/
theorem unset_of_writes_eq {calls' : List HeaderCall} (h : ∀ call ∈ calls, ¬ call.SetsHost)
    (heq : writes calls' = writes calls) : ∀ call ∈ calls', ¬ call.SetsHost := by
  intro call hmem hsets
  have hwrites := mem_writes_of_setsHost hmem hsets
  rw [heq] at hwrites
  exact h call (List.mem_filter.mp hwrites).1 hsets

/-- The request at the end of a sequence of calls that set no value for `Host`. -/
theorem request_runCalls (h : ∀ call ∈ calls, ¬ call.SetsHost) (o : HTTPOptions) :
    ∃ o', HasKeys o' (keysOf calls) ∧ o'.http10 = o.http10 ∧
      (newFastClient w.withWrite (runCalls w o.fresh calls).2).1.request
        = (fastUrl w (o.init w o.url).url).map (fastRequest w.withWrite o') := by
  obtain ⟨e, v, heq⟩ := exists_runCalls_eq w o.fresh calls
  have hkeys : HasKeys ((runCalls w o.fresh calls).2.init w o.url) (keysOf calls) :=
    (hasKeys_runCalls o h).init o.url
  have hhttp10 := (init_eq w (runCalls w o.fresh calls).2 o.url).1
  rw [heq] at hkeys hhttp10 ⊢
  refine ⟨_, hkeys, hhttp10, ?_⟩
  rw [request_newFastClient]
  have hurl := url_init_headers w o e v o.url
  exact congrArg (fun text => (fastUrl w text).map _) hurl

theorem ReadOnly.unset (h : ReadOnly w o calls) : ∀ call ∈ calls, ¬ call.SetsHost := by
  rintro call hmem hsets
  obtain ⟨before, after, hsplit⟩ := List.append_of_mem (mem_writes_of_setsHost hmem hsets)
  have hwrites : ∀ c ∈ before ++ call :: after, c ≠ .get := by
    rw [← hsplit]
    exact fun c hc => of_decide_eq_true (List.mem_filter.mp hc).2
  have hbefore : writes (before ++ [call]) = before ++ [call] :=
    List.filter_eq_self.mpr fun c hc => decide_eq_true (hwrites c (by simp at hc ⊢; tauto))
  have hafter : writes (.get :: after) = after := by
    show writes after = after
    exact List.filter_eq_self.mpr fun c hc => decide_eq_true (hwrites c (by simp [hc]))
  -- One call more between the text and a call that is there.
  have heq := h.returned (before ++ [call]) (.get :: after) (by
    rw [writes_append, hbefore, hafter, hsplit, List.append_assoc]
    rfl)
  cases call with
  | init => exact hsets
  | reset => exact hsets
  | get => exact hsets
  | add hdr =>
    obtain ⟨v, hv, hne⟩ := hsets
    obtain ⟨header, hextra, hhost⟩ := add_of_hostValue hv (runCalls w o.fresh before).2
    rw [runCalls_append, runCalls_append o.fresh before] at heq
    have hstep : (runCalls w (runCalls w o.fresh before).2 [.add hdr]).2
        = ((runCalls w o.fresh before).2.addAndValidateExtraHeader w hdr).2 := rfl
    rw [hstep] at heq
    generalize ((runCalls w o.fresh before).2.addAndValidateExtraHeader w hdr).2 = o'
      at heq hextra hhost
    subst hhost
    have hget := run_get_of_host (w := w) hextra hne
    have hget' := run_get_of_host (w := w)
      (o := { o' with extraHeaders := some (Header.add header (ascii "Host") o'.hostOverride) })
      rfl hne
    have hheads := (List.cons.inj (by
      simpa only [runCalls, hget, hget', List.singleton_append, List.map_cons,
        Option.map_some] using heq)).1
    -- The header that is read then has the value once more than without it.
    have hvalues := congrFun (Option.some.inj hheads) (ascii "Host")
    have hlength := congrArg List.length hvalues
    rw [values_add_host, List.length_append] at hlength
    simp at hlength

/-- Calls of `GetHeaders` change nothing iff no text sets the value for `Host`, and no line end in
the URL or in a key makes another `Host` line. -/
theorem headers_readOnly_iff (w : ClientWorld) (o : HTTPOptions) (calls : List HeaderCall) :
    ReadOnly w o calls ↔ NoHostTexts w o calls := by
  constructor
  · intro h
    refine ⟨h.unset, fun hhttp10 url hurl => ?_⟩
    obtain ⟨o', hkeys, hhttp10', hrequest⟩ := request_runCalls (w := w) h.unset o
    rw [hurl, Option.map_some] at hrequest
    have hone := h.oneHost hhttp10 calls rfl _ hrequest
    have hstart : startLine w o' url = startLine w o url := by
      rw [startLine, hhttp10', startLine]
    rw [hkeys.countP_request (hhttp10'.trans hhttp10)
      (Url.isLine_host (parse_of_fastUrl hurl)), hstart] at hone
    exact hone
  · intro h
    -- A call of `GetHeaders` leaves the options as they are, wherever it is put in.
    have hsame : ∀ pre post, writes (pre ++ post) = writes calls →
        (runCalls w o.fresh (pre ++ [.get])).2 = (runCalls w o.fresh pre).2 := by
      intro pre post heq
      have hunset := unset_of_writes_eq h.unset heq
      have hkeys := hasKeys_runCalls (w := w) o fun call hc =>
        hunset call (List.mem_append_left post hc)
      rw [runCalls_append]
      show (HeaderCall.run w (runCalls w o.fresh pre).2 .get).2 = _
      rw [run_get hkeys.host]
    refine ⟨?_, ?_, ?_⟩
    · intro pre post heq
      rw [hsame pre post heq]
    · intro pre post heq
      rw [show pre ++ .get :: post = pre ++ [.get] ++ post by simp, runCalls_append,
        hsame pre post heq, ← runCalls_append]
    · intro hhttp10 calls' heq req hreq
      obtain ⟨o', hkeys, hhttp10', hrequest⟩ :=
        request_runCalls (w := w) (unset_of_writes_eq h.unset heq) o
      rw [hrequest] at hreq
      obtain ⟨url, hurl, rfl⟩ := Option.map_eq_some_iff.mp hreq
      have hstart : startLine w o' url = startLine w o url := by
        rw [startLine, hhttp10', startLine]
      have hkeysOf : keysOf calls' = keysOf calls := by
        rw [← keysOf_writes, heq, keysOf_writes]
      rw [hkeys.countP_request (hhttp10'.trans hhttp10)
        (Url.isLine_host (parse_of_fastUrl hurl)), hstart, hkeysOf]
      exact h.lines hhttp10 url hurl

end

/-- A call of `GetHeaders` puts a second `Host` line into the request. -/
theorem getHeaders_adds_host_line :
    (newFastClient onlineWorld.withWrite
        (runCalls onlineWorld rootOptions.fresh [.add (ascii "Host: b")]).2).1.request
      = some (ascii "GET / HTTP/1.1\r\nHost: b\r\nUser-Agent: istio/fortio\r\n\r\n") ∧
    (newFastClient onlineWorld.withWrite
        (runCalls onlineWorld rootOptions.fresh [.add (ascii "Host: b"), .get]).2).1.request
      = some (ascii "GET / HTTP/1.1\r\nHost: b\r\nHost: b\r\n"
          ++ ascii "User-Agent: istio/fortio\r\n\r\n") ∧
    ¬ ReadOnly onlineWorld rootOptions [.add (ascii "Host: b")] := by
  refine ⟨by decide +kernel, by decide +kernel, fun h => ?_⟩
  refine h.unset (.add (ascii "Host: b")) List.mem_cons_self ⟨ascii "b", ?_, by decide⟩
  decide +kernel

end IstioVendor.Fhttp
