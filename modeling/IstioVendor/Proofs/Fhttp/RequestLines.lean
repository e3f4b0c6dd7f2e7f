import Mathlib.Data.List.Perm.Basic
import IstioVendor.Fhttp.Headers

/-!
# `IstioVendor.Proofs.Fhttp.RequestLines`: the lines of a request

The request of a fast client is a text of lines: the request line, `Host` and `Connection` for
HTTP/1.1, a line for each value of the header, and a blank line (`fastRequest_eq`). The texts come
from the options. A line is one line of the request iff no line end is in it.

The value of a header has none when it is written. A URL has none in its host. But the key of a
header and the value of `Host` go to the request as they are, without the white space around them.
`request_framed_iff` says that the request has the right lines iff these texts have no line end,
and that all lines, with the blank line at the end, are where they should be then.
-/

set_option autoImplicit false

namespace IstioVendor.Fhttp

open Lib

/-! ### Lines of headers -/

theorem isLine_cleanValue (value : Bytes) : IsLine (Header.cleanValue value) := by
  -- The line bytes are replaced, and trimming only takes bytes away.
  have hmap : IsLine (value.map Header.newlineToSpace) := by
    intro b hb
    obtain ⟨a, -, rfl⟩ := List.mem_map.mp hb
    unfold Header.newlineToSpace
    split_ifs with ha
    · decide
    · rw [not_or] at ha
      exact ⟨ha.2, ha.1⟩
  intro b hb
  unfold Header.cleanValue Header.trimString at hb
  rw [List.mem_reverse] at hb
  have hb := (List.dropWhile_sublist _).mem hb
  rw [List.mem_reverse] at hb
  exact hmap b ((List.dropWhile_sublist _).mem hb)

theorem isLine_append {s t : Bytes} (hs : IsLine s) (ht : IsLine t) : IsLine (s ++ t) := by
  intro b hb
  rcases List.mem_append.mp hb with hb | hb
  · exact hs b hb
  · exact ht b hb

/-- What follows the key in the line of a header. -/
theorem isLine_value (value : Bytes) : IsLine (ascii ": " ++ Header.cleanValue value) :=
  isLine_append (by decide) (isLine_cleanValue value)

theorem crlf_infix_line_iff (kv : Bytes × Bytes) : crlf <:+: Header.line kv ↔ crlf <:+: kv.1 := by
  rw [Header.line, List.append_assoc]
  exact crlf_infix_append_isLine kv.1 (isLine_value kv.2)

theorem line_ne_nil (kv : Bytes × Bytes) : Header.line kv ≠ [] := by
  simp [Header.line, ascii]

theorem isLine_of_tokens {key : Bytes} (h : key.all isTokenByte = true) : IsLine key := by
  intro b hb
  have htoken := List.all_eq_true.mp h b hb
  constructor
  · rintro rfl
    exact absurd htoken (by decide)
  · rintro rfl
    exact absurd htoken (by decide)

/-- A byte below the letters is not the case of another one. -/
theorem toUpper_eq_iff {a b : UInt8} (ha : a < 65) : toUpper b = a ↔ b = a := by
  unfold toUpper
  grind

theorem toLower_eq_iff {a b : UInt8} (ha : a < 65) : toLower b = a ↔ b = a := by
  unfold toLower isUpper
  grind

theorem isLine_canonicalBytes {key : Bytes} (h : IsLine key) (upper : Bool) :
    IsLine (canonicalBytes upper key) := by
  induction key generalizing upper with
  | nil => exact h
  | cons b key ih =>
    have hb := h b List.mem_cons_self
    intro c hc
    rcases List.mem_cons.mp hc with rfl | hc
    · cases upper
      · exact ⟨fun h13 => hb.1 ((toLower_eq_iff (by decide)).mp h13),
          fun h10 => hb.2 ((toLower_eq_iff (by decide)).mp h10)⟩
      · exact ⟨fun h13 => hb.1 ((toUpper_eq_iff (by decide)).mp h13),
          fun h10 => hb.2 ((toUpper_eq_iff (by decide)).mp h10)⟩
    · exact ih (fun b' hb' => h b' (List.mem_cons_of_mem b hb')) _ c hc

/-- The canonical form of a key has a line end iff the key has. -/
theorem crlf_infix_canonicalKey_iff (key : Bytes) : crlf <:+: canonicalKey key ↔ crlf <:+: key := by
  unfold canonicalKey
  split_ifs with htoken
  · have hline := isLine_of_tokens htoken
    exact iff_of_false (isLine_canonicalBytes hline true).not_infix_crlf hline.not_infix_crlf
  · rfl

/-! ### The request -/

/-- The request line. -/
def startLine (w : ClientWorld) (o : HTTPOptions) (url : Url) : Bytes :=
  ascii "GET " ++ w.requestURI url ++ ascii " HTTP/"
    ++ if o.http10 then ascii "1.0" else ascii "1.1"

/-- The line for the host, with the URL's host if the value for `Host` is empty. -/
def hostLine (host : Bytes) (url : Url) : Bytes :=
  ascii "Host: " ++ if host ≠ [] then host else url.host

/-- The line for a connection that is not kept. -/
def closeLines (o : HTTPOptions) : List Bytes :=
  if o.disableKeepAlive then [ascii "Connection: close"] else []

/-- The lines of a request, up to the blank one. -/
def requestLines (w : ClientWorld) (o : HTTPOptions) (url : Url) (host : Bytes) (header : Header) :
    List Bytes :=
  startLine w o url :: (if o.http10 then [] else hostLine host url :: closeLines o)
    ++ (Header.sorted header).map Header.line

theorem fastRequest_eq (w : ClientWorld) (o : HTTPOptions) (url : Url) :
    fastRequest w.withWrite o url
      = joinLines (requestLines w o url o.hostOverride (o.extraHeaders.getD []) ++ [[]]) := by
  have hblank : joinLines [[]] = crlf := rfl
  unfold fastRequest requestLines startLine hostLine closeLines ClientWorld.withWrite Header.write
  cases o.http10 <;> cases o.disableKeepAlive <;>
    simp [List.append_assoc, hblank]

/-- The URL that a fast client connects to. -/
def fastUrl (w : ClientWorld) (text : Bytes) : Option Url :=
  (Url.parse text).filter fun url => decide (url.scheme = ascii "http") &&
    w.resolve (w.hostname url) (if w.port url = [] then url.scheme else w.port url)

theorem request_newFastClient (w : ClientWorld) (o : HTTPOptions) :
    (newFastClient w o).1.request
      = (fastUrl w (o.init w o.url).url).map (fastRequest w (o.init w o.url)) := by
  unfold newFastClient fastUrl
  dsimp only
  cases Url.parse (o.init w o.url).url with
  | none => rfl
  | some url =>
    rw [Option.filter_some]
    dsimp only
    generalize (if w.port url = [] then url.scheme else w.port url) = port
    by_cases hscheme : url.scheme = ascii "http"
    · rw [if_neg (not_not.mpr hscheme), decide_eq_true hscheme, Bool.true_and]
      cases w.resolve (w.hostname url) port with
      | false => rfl
      | true => rfl
    · rw [if_pos hscheme, decide_eq_false hscheme, Bool.false_and]
      rfl

variable {w : ClientWorld} {o : HTTPOptions} {header base : Header} {req : Bytes}
  {kv : Bytes × Bytes}

theorem parse_of_fastUrl {text : Bytes} {url : Url} (h : fastUrl w text = some url) :
    Url.parse text = some url :=
  (Option.filter_eq_some_iff.mp h).1

/-! ### The headers of the options -/

/-- The value for `Host` in a text. -/
def hostValue (hdr : Bytes) : Option Bytes :=
  (splitHeader hdr).bind fun kv => if isHostKey kv.1 then some kv.2 else none

/-- The key and the value of another header in a text. -/
def otherHeader (hdr : Bytes) : Option (Bytes × Bytes) :=
  (splitHeader hdr).bind fun kv => if isHostKey kv.1 then none else some kv

/-- The last value for `Host`, empty if there is none. -/
def lastHost (hdrs : List Bytes) : Bytes := (hdrs.filterMap hostValue).getLastD []

/-- The other headers, with their canonical keys. -/
def added (hdrs : List Bytes) : Header :=
  (hdrs.filterMap otherHeader).map fun kv => (canonicalKey kv.1, kv.2)

/-- `AddAndValidateExtraHeader` for each of the texts. -/
def HTTPOptions.addHeaders (w : ClientWorld) (o : HTTPOptions) (hdrs : List Bytes) : HTTPOptions :=
  (runCalls w o (hdrs.map .add)).2

/-- `AddAndValidateExtraHeader` makes the header if there is none. -/
theorem add_of_none (h : o.extraHeaders = none) (hdr : Bytes) :
    o.addAndValidateExtraHeader w hdr = (o.initHeaders w).addAndValidateExtraHeader w hdr := by
  unfold HTTPOptions.addAndValidateExtraHeader
  rw [h]
  rfl

theorem add_eq (h : o.extraHeaders = some header) (hdr : Bytes) :
    (o.addAndValidateExtraHeader w hdr).2 = { o with
      extraHeaders := some (header ++ added [hdr])
      hostOverride := (hostValue hdr).getD o.hostOverride } := by
  have hinit : (if o.extraHeaders.isNone then o.initHeaders w else o) = o := by
    rw [h]
    rfl
  unfold HTTPOptions.addAndValidateExtraHeader hostValue
  rw [hinit]
  cases hsplit : splitHeader hdr with
  | none =>
    -- A text without a colon is refused, and adds nothing.
    have hadded : added [hdr] = [] := by simp [added, otherHeader, hsplit]
    rw [hadded, List.append_nil, ← h]
    rfl
  | some kv =>
    obtain ⟨key, value⟩ := kv
    cases hhost : isHostKey key with
    | true =>
      -- The value for `Host` does not go to the header.
      have hadded : added [hdr] = [] := by simp [added, otherHeader, hsplit, hhost]
      rw [hadded, List.append_nil, ← h]
      simp [hhost]
    | false =>
      have hadded : added [hdr] = [(canonicalKey key, value)] := by
        simp [added, otherHeader, hsplit, hhost]
      rw [hadded]
      simp [hhost, h, Header.add]

theorem addHeaders_eq (h : o.extraHeaders = some header) (hdrs : List Bytes) :
    o.addHeaders w hdrs = { o with
      extraHeaders := some (header ++ added hdrs)
      hostOverride := (hdrs.filterMap hostValue).getLastD o.hostOverride } := by
  induction hdrs generalizing o header with
  | nil =>
    rw [show added [] = [] from rfl, List.append_nil, ← h]
    rfl
  | cons hdr hdrs ih =>
    have hstep : o.addHeaders w (hdr :: hdrs)
        = (o.addAndValidateExtraHeader w hdr).2.addHeaders w hdrs := rfl
    have hadded : added (hdr :: hdrs) = added [hdr] ++ added hdrs := by
      rw [added, ← List.singleton_append, List.filterMap_append, List.map_append]
      rfl
    rw [hstep, add_eq h, ih rfl, hadded]
    -- A later value for `Host` replaces this one.
    rw [List.append_assoc]
    cases hhost : hostValue hdr with
    | none => rw [List.filterMap_cons_none hhost, Option.getD_none]
    | some v => rw [List.filterMap_cons_some hhost, Option.getD_some, List.getLastD_cons]

/-- The calls change the header and the value for `Host`, and nothing else. -/
theorem exists_run_eq (w : ClientWorld) (o : HTTPOptions) (call : HeaderCall) :
    ∃ e v, (call.run w o).2 = { o with extraHeaders := e, hostOverride := v } := by
  cases call with
  | add hdr =>
    show ∃ e v, (o.addAndValidateExtraHeader w hdr).2 = _
    cases h : o.extraHeaders with
    | none =>
      rw [add_of_none h, add_eq rfl]
      exact ⟨_, _, rfl⟩
    | some header =>
      rw [add_eq h]
      exact ⟨_, _, rfl⟩
  | init => exact ⟨_, _, rfl⟩
  | reset => exact ⟨_, _, rfl⟩
  | get =>
    show ∃ e v, o.getHeaders.2 = _
    unfold HTTPOptions.getHeaders
    split_ifs
    · exact ⟨o.extraHeaders, o.hostOverride, rfl⟩
    · exact ⟨_, _, rfl⟩

theorem exists_runCalls_eq (w : ClientWorld) (o : HTTPOptions) (calls : List HeaderCall) :
    ∃ e v, (runCalls w o calls).2 = { o with extraHeaders := e, hostOverride := v } := by
  induction calls generalizing o with
  | nil => exact ⟨o.extraHeaders, o.hostOverride, rfl⟩
  | cons call calls ih =>
    obtain ⟨e, v, heq⟩ := exists_run_eq w o call
    obtain ⟨e', v', heq'⟩ := ih (call.run w o).2
    exact ⟨e', v', heq'.trans (by rw [heq])⟩

/-- The URL that `Init` leaves does not depend on the headers. -/
theorem url_init_headers (w : ClientWorld) (o : HTTPOptions) (e : Option Header) (v url : Bytes) :
    ({ o with extraHeaders := e, hostOverride := v }.init w url).url = (o.init w url).url := by
  have hcheck : ∀ h h' : HTTPOptions, h.url = h'.url →
      h.urlSchemeCheck.url = h'.urlSchemeCheck.url := by
    intro h h' heq
    unfold HTTPOptions.urlSchemeCheck
    rw [heq]
    split_ifs <;> simp [heq]
  -- `Init` makes a header if there is none. It sets the URL and checks its scheme in any case.
  unfold HTTPOptions.init
  cases o.initDone with
  | true => rfl
  | false =>
    apply hcheck
    cases e <;> cases o.extraHeaders <;> rfl

/-- What `Init` leaves alone. -/
theorem init_eq (w : ClientWorld) (o : HTTPOptions) (url : Bytes) :
    (o.init w url).http10 = o.http10 ∧ (o.init w url).disableKeepAlive = o.disableKeepAlive ∧
      ((o.extraHeaders = none ∧ o.initDone = false ∧
          (o.init w url).extraHeaders = some [(ascii "User-Agent", w.userAgent)] ∧
          (o.init w url).hostOverride = []) ∨
        ((o.extraHeaders ≠ none ∨ o.initDone = true) ∧
          (o.init w url).extraHeaders = o.extraHeaders ∧
          (o.init w url).hostOverride = o.hostOverride)) := by
  have hcheck : ∀ h : HTTPOptions, h.urlSchemeCheck.http10 = h.http10 ∧
      h.urlSchemeCheck.disableKeepAlive = h.disableKeepAlive ∧
      h.urlSchemeCheck.extraHeaders = h.extraHeaders ∧
      h.urlSchemeCheck.hostOverride = h.hostOverride := by
    intro h
    unfold HTTPOptions.urlSchemeCheck
    split_ifs <;> exact ⟨rfl, rfl, rfl, rfl⟩
  unfold HTTPOptions.init
  cases hdone : o.initDone with
  | true => exact ⟨rfl, rfl, .inr ⟨.inr rfl, rfl, rfl⟩⟩
  | false =>
    cases hheaders : o.extraHeaders with
    | none =>
      obtain ⟨hhttp10, hclose, hextra, hhost⟩ := hcheck _
      exact ⟨hhttp10, hclose, .inl ⟨rfl, rfl, hextra, hhost⟩⟩
    | some header =>
      obtain ⟨hhttp10, hclose, hextra, hhost⟩ := hcheck _
      exact ⟨hhttp10, hclose, .inr ⟨.inl (Option.some_ne_none header), hextra, hhost⟩⟩

/-- Options that no header was added to: as they are made, after `Init`, or after `ResetHeaders`.
`base` is what the header has in it. -/
structure StartsWith (w : ClientWorld) (o : HTTPOptions) (base : Header) : Prop where
  host : o.hostOverride = []
  headers :
    (o.extraHeaders = none ∧ o.initDone = false ∧ base = [(ascii "User-Agent", w.userAgent)]) ∨
    (o.extraHeaders = some base ∧ (base = [] ∨ base = [(ascii "User-Agent", w.userAgent)]))

/-- The header and the value for `Host` in the options of a client. -/
theorem StartsWith.init_addHeaders (h : StartsWith w o base) (hdrs : List Bytes) (url : Bytes) :
    ((o.addHeaders w hdrs).init w url).extraHeaders.getD [] = base ++ added hdrs ∧
      ((o.addHeaders w hdrs).init w url).hostOverride = lastHost hdrs ∧
      ((o.addHeaders w hdrs).init w url).http10 = o.http10 ∧
      ((o.addHeaders w hdrs).init w url).disableKeepAlive = o.disableKeepAlive := by
  -- The header is made by the first text, or by `Init` if there is no text.
  have hsome : ∀ h : HTTPOptions, h.extraHeaders = some base → h.hostOverride = [] →
      h.http10 = o.http10 → h.disableKeepAlive = o.disableKeepAlive →
      ((h.addHeaders w hdrs).init w url).extraHeaders.getD [] = base ++ added hdrs ∧
      ((h.addHeaders w hdrs).init w url).hostOverride = lastHost hdrs ∧
      ((h.addHeaders w hdrs).init w url).http10 = o.http10 ∧
      ((h.addHeaders w hdrs).init w url).disableKeepAlive = o.disableKeepAlive := by
    intro h hextra hhost hhttp10 hclose
    rw [addHeaders_eq hextra, hhost]
    obtain ⟨h10, hdis, ⟨hnone, -⟩ | ⟨-, hextra', hhost'⟩⟩ := init_eq w { h with
      extraHeaders := some (base ++ added hdrs)
      hostOverride := (hdrs.filterMap hostValue).getLastD [] } url
    · cases hnone
    · exact ⟨by rw [hextra']; rfl, hhost', h10.trans hhttp10, hdis.trans hclose⟩
  obtain ⟨hhost, ⟨hnone, hdone, rfl⟩ | ⟨hextra, -⟩⟩ := h
  · cases hdrs with
    | nil =>
      obtain ⟨h10, hdis, ⟨-, -, hextra', hhost'⟩ | ⟨hor, -⟩⟩ := init_eq w o url
      · exact ⟨by rw [show o.addHeaders w [] = o from rfl, hextra']; rfl, hhost', h10, hdis⟩
      · rcases hor with hne | hdone'
        · exact absurd hnone hne
        · exact absurd (hdone.symm.trans hdone') Bool.false_ne_true
    | cons hdr hdrs =>
      have hfirst :
          o.addHeaders w (hdr :: hdrs) = (o.initHeaders w).addHeaders w (hdr :: hdrs) := by
        show ((o.addAndValidateExtraHeader w hdr).2.addHeaders w hdrs) = _
        rw [add_of_none hnone]
        rfl
      rw [hfirst]
      exact hsome (o.initHeaders w) rfl rfl rfl rfl
  · exact hsome o hextra hhost rfl rfl

/-! ### Framing -/

/-- The request has its lines and no others: the request line, `Host` with the URL's host or the
last value for it, `Connection` if the connection is not kept, and a line for each header. The blank
line is at the end, and nowhere else. -/
structure Framed (w : ClientWorld) (o : HTTPOptions) (base : Header) (hdrs : List Bytes)
    (req : Bytes) : Prop where
  blank : ∀ pre post, req = pre ++ crlf ++ crlf ++ post → post = []
  ends : ∃ pre, req = pre ++ crlf ++ crlf
  lines : ∃ url headers, Url.parse (o.init w o.url).url = some url ∧
    headers.Perm ((base ++ added hdrs).map Header.line) ∧
    splitLines req = startLine w o url :: hostLine (lastHost hdrs) url :: closeLines o
      ++ headers ++ [[], []]

/-- No line end gets to the request from the texts, and the request has a line for the host. -/
structure NoLineEnds (o : HTTPOptions) (hdrs : List Bytes) : Prop where
  http11 : o.http10 = false
  host : ¬ crlf <:+: lastHost hdrs
  keys : ∀ hdr ∈ hdrs, ∀ kv, otherHeader hdr = some kv → ¬ crlf <:+: kv.1

/-- The lines of the request of a client. -/
theorem StartsWith.exists_request (h : StartsWith w o base) {hdrs : List Bytes}
    (hreq : (newFastClient w.withWrite (o.addHeaders w hdrs)).1.request = some req) :
    ∃ url, Url.parse (o.init w o.url).url = some url ∧
      req = joinLines (requestLines w o url (lastHost hdrs) (base ++ added hdrs) ++ [[]]) := by
  rw [request_newFastClient] at hreq
  obtain ⟨url, hurl, rfl⟩ := Option.map_eq_some_iff.mp hreq
  obtain ⟨e, v, heq⟩ := exists_runCalls_eq w o (hdrs.map .add)
  have hinit : (o.addHeaders w hdrs).init w.withWrite (o.addHeaders w hdrs).url
      = (o.addHeaders w hdrs).init w o.url := by
    rw [show (o.addHeaders w hdrs).url = o.url by rw [HTTPOptions.addHeaders, heq]]
    rfl
  rw [hinit] at hurl ⊢
  refine ⟨url, ?_, ?_⟩
  · rw [← url_init_headers w o e v, ← heq]
    exact parse_of_fastUrl hurl
  · obtain ⟨hextra, hhost, hhttp10, hclose⟩ := h.init_addHeaders hdrs o.url
    rw [fastRequest_eq, hextra, hhost]
    unfold requestLines startLine closeLines
    rw [hhttp10, hclose]

section
variable {w : ClientWorld} {o : HTTPOptions} {base : Header} {hdrs : List Bytes} {url : Url}

theorem isLine_startLine (huri : ∀ url, IsLine (w.requestURI url)) (o : HTTPOptions) (url : Url) :
    IsLine (startLine w o url) := by
  refine isLine_append (isLine_append (isLine_append (by decide) (huri url)) (by decide)) ?_
  cases o.http10 <;> decide

/-- The keys that are there before headers are added have no line end. -/
theorem StartsWith.keys (h : StartsWith w o base) : ∀ kv ∈ base, ¬ crlf <:+: kv.1 := by
  have hbase : base = [] ∨ base = [(ascii "User-Agent", w.userAgent)] := by
    rcases h.headers with ⟨-, -, hbase⟩ | ⟨-, hbase⟩
    · exact .inr hbase
    · exact hbase
  intro kv hkv
  rcases hbase with rfl | rfl
  · cases hkv
  · obtain rfl := List.mem_singleton.mp hkv
    have hline : IsLine (ascii "User-Agent") := by decide
    exact hline.not_infix_crlf

theorem exists_of_mem_added (h : kv ∈ added hdrs) :
    ∃ hdr ∈ hdrs, ∃ kv', otherHeader hdr = some kv' ∧ kv = (canonicalKey kv'.1, kv'.2) := by
  obtain ⟨kv', hkv', rfl⟩ := List.mem_map.mp h
  obtain ⟨hdr, hhdr, hother⟩ := List.mem_filterMap.mp hkv'
  exact ⟨hdr, hhdr, kv', hother, rfl⟩

theorem mem_added {hdr : Bytes} (hhdr : hdr ∈ hdrs) (h : otherHeader hdr = some kv) :
    (canonicalKey kv.1, kv.2) ∈ added hdrs :=
  List.mem_map.mpr ⟨kv, List.mem_filterMap.mpr ⟨hdr, hhdr, h⟩, rfl⟩

theorem sorted_perm (h : Header) : (Header.sorted h).Perm h := List.perm_insertionSort _ h

/-- The lines of the headers have no line end iff the keys have none. -/
theorem headerLines_iff (hstart : StartsWith w o base) :
    (∀ l ∈ (base ++ added hdrs).map Header.line, ¬ crlf <:+: l) ↔
      ∀ hdr ∈ hdrs, ∀ kv, otherHeader hdr = some kv → ¬ crlf <:+: kv.1 := by
  constructor
  · intro h hdr hhdr kv hkv hcrlf
    refine h (Header.line (canonicalKey kv.1, kv.2)) ?_ ?_
    · exact List.mem_map_of_mem (List.mem_append_right _ (mem_added hhdr hkv))
    · rwa [crlf_infix_line_iff, crlf_infix_canonicalKey_iff]
  · intro h l hl
    obtain ⟨kv, hkv, rfl⟩ := List.mem_map.mp hl
    rw [crlf_infix_line_iff]
    rcases List.mem_append.mp hkv with hkv | hkv
    · exact hstart.keys kv hkv
    · obtain ⟨hdr, hhdr, kv', hother, rfl⟩ := exists_of_mem_added hkv
      rw [crlf_infix_canonicalKey_iff]
      exact h hdr hhdr kv' hother

/-- The `Host` line has no line end iff the last value for it has none. -/
theorem hostLine_iff (hurl : Url.parse (o.init w o.url).url = some url) :
    ¬ crlf <:+: hostLine (lastHost hdrs) url ↔ ¬ crlf <:+: lastHost hdrs := by
  rw [hostLine, crlf_infix_isLine_append (by decide)]
  split_ifs with hhost
  · rfl
  · rw [not_not] at hhost
    rw [hhost]
    exact iff_of_true (Url.isLine_host hurl).not_infix_crlf (isLine_nil).not_infix_crlf

theorem closeLines_not_infix (o : HTTPOptions) : ∀ l ∈ closeLines o, ¬ crlf <:+: l ∧ l ≠ [] := by
  unfold closeLines
  cases o.disableKeepAlive with
  | false => simp
  | true =>
    intro l hl
    obtain rfl := List.mem_singleton.mp hl
    exact ⟨IsLine.not_infix_crlf (by decide), by decide⟩

theorem splitLines_request {ls : List Bytes} (h : ∀ l ∈ ls, ¬ crlf <:+: l) :
    splitLines (joinLines (ls ++ [[]])) = ls ++ [[], []] := by
  rw [splitLines_joinLines, List.flatMap_append, flatMap_splitLines h, List.append_assoc]
  rfl

/-- If the request is framed, then no line end gets to it from the texts. -/
theorem Framed.noLineEnds (huri : ∀ url, IsLine (w.requestURI url)) (hstart : StartsWith w o base)
    (hreq : (newFastClient w.withWrite (o.addHeaders w hdrs)).1.request = some req)
    (h : Framed w o base hdrs req) : NoLineEnds o hdrs := by
  obtain ⟨url, headers, hurl, hperm, hlines⟩ := h.lines
  obtain ⟨url', hurl', hrequest⟩ := hstart.exists_request hreq
  cases hurl.symm.trans hurl'
  have hline : ∀ l ∈ splitLines req, ¬ crlf <:+: l := fun l hl => not_infix_of_mem_splitLines hl
  rw [hlines] at hline
  have hheaders : ∀ l ∈ (base ++ added hdrs).map Header.line, ¬ crlf <:+: l := by
    intro l hl
    refine hline l (List.mem_append_left _ (List.mem_append_right _ ?_))
    exact hperm.mem_iff.mpr hl
  refine ⟨?_, ?_, (headerLines_iff hstart).mp hheaders⟩
  · -- Without a `Host` line there is a line too few.
    by_contra hhttp10
    rw [Bool.not_eq_false] at hhttp10
    have hsorted := (sorted_perm (base ++ added hdrs)).map Header.line
    rw [requestLines, hhttp10, if_pos rfl, List.singleton_append] at hrequest
    have hall : ∀ l ∈ startLine w o url :: (Header.sorted (base ++ added hdrs)).map Header.line,
        ¬ crlf <:+: l := by
      intro l hl
      rcases List.mem_cons.mp hl with rfl | hl
      · exact (isLine_startLine huri o url).not_infix_crlf
      · exact hheaders l (hsorted.mem_iff.mp hl)
    rw [hrequest, splitLines_request hall] at hlines
    have hlength := congrArg List.length hlines
    simp only [List.length_append, List.length_cons, List.length_nil, hperm.length_eq,
      hsorted.length_eq] at hlength
    omega
  · rw [← hostLine_iff hurl]
    exact hline _ (by simp)

/-- Without line ends in the texts, the request is framed. -/
theorem NoLineEnds.framed (huri : ∀ url, IsLine (w.requestURI url)) (hstart : StartsWith w o base)
    (hreq : (newFastClient w.withWrite (o.addHeaders w hdrs)).1.request = some req)
    (h : NoLineEnds o hdrs) : Framed w o base hdrs req := by
  obtain ⟨url, hurl, rfl⟩ := hstart.exists_request hreq
  have hperm := (sorted_perm (base ++ added hdrs)).map Header.line
  have heq : requestLines w o url (lastHost hdrs) (base ++ added hdrs)
      = startLine w o url :: hostLine (lastHost hdrs) url :: closeLines o
        ++ (Header.sorted (base ++ added hdrs)).map Header.line := by
    rw [requestLines, h.http11, if_neg Bool.false_ne_true]
  -- Every line is one line, and none of them is blank.
  have hall : ∀ l ∈ requestLines w o url (lastHost hdrs) (base ++ added hdrs),
      ¬ crlf <:+: l ∧ l ≠ [] := by
    rw [heq]
    intro l hl
    rcases List.mem_append.mp hl with hl | hl
    · rcases List.mem_cons.mp hl with rfl | hl
      · exact ⟨(isLine_startLine huri o url).not_infix_crlf, by simp [startLine, ascii]⟩
      · rcases List.mem_cons.mp hl with rfl | hl
        · exact ⟨(hostLine_iff hurl).mpr h.host, by simp [hostLine, ascii]⟩
        · exact closeLines_not_infix o l hl
    · refine ⟨(headerLines_iff hstart).mpr h.keys l (hperm.mem_iff.mp hl), ?_⟩
      obtain ⟨kv, -, rfl⟩ := List.mem_map.mp hl
      exact line_ne_nil kv
  have hlines := splitLines_request fun l hl => (hall l hl).1
  refine ⟨?_, ?_, ?_⟩
  · intro pre post hreq
    exact eq_nil_of_blankLine hlines (fun l hl => (hall l hl).2) hreq
  · -- The last line before the blank one ends the text.
    obtain ⟨ls, l, hls⟩ := List.eq_nil_or_concat (requestLines w o url (lastHost hdrs)
      (base ++ added hdrs)) |>.resolve_left (by rw [heq]; simp)
    refine ⟨joinLines ls ++ l, ?_⟩
    rw [hls]
    simp
  · exact ⟨url, _, hurl, hperm, by rw [hlines, heq]⟩

/-- The request has the right lines iff no line end is in the last value for `Host` or in a key, and
it is for HTTP/1.1. -/
theorem request_framed_iff (w : ClientWorld) (huri : ∀ url, IsLine (w.requestURI url))
    (o : HTTPOptions) (base : Header) (hstart : StartsWith w o base) (hdrs : List Bytes)
    (req : Bytes) (hreq : (newFastClient w.withWrite (o.addHeaders w hdrs)).1.request = some req) :
    Framed w o base hdrs req ↔ NoLineEnds o hdrs :=
  ⟨fun h => h.noLineEnds huri hstart hreq, fun h => h.framed huri hstart hreq⟩

end

/-- A world in which every host has an address, and every request is for the root. -/
def onlineWorld : ClientWorld where
  resolve := fun _ _ => true
  hostname := Url.host
  port := fun _ => []
  requestURI := fun _ => ascii "/"
  requestHost := Url.host
  headerLines := Header.write
  userAgent := ascii "istio/fortio"
  bufferSizeKb := 16
  bufferSize_lt := by decide

/-- Options with a URL. -/
def rootOptions : HTTPOptions := { HTTPOptions.zero with url := ascii "http://a/" }

theorem startsWith_rootOptions :
    StartsWith onlineWorld rootOptions [(ascii "User-Agent", ascii "istio/fortio")] :=
  ⟨rfl, .inl ⟨rfl, rfl, rfl⟩⟩

theorem request_framed_two_headers :
    Framed onlineWorld rootOptions [(ascii "User-Agent", ascii "istio/fortio")]
      [ascii "host: b", ascii "x-id: 1"]
      (ascii "GET / HTTP/1.1\r\nHost: b\r\nUser-Agent: istio/fortio\r\nX-Id: 1\r\n\r\n") := by
  have hhost : lastHost [ascii "host: b", ascii "x-id: 1"] = ascii "b" := by decide +kernel
  have hfirst : otherHeader (ascii "host: b") = none := by decide +kernel
  have hsecond : otherHeader (ascii "x-id: 1") = some (ascii "x-id", ascii "1") := by
    decide +kernel
  have huri : IsLine (ascii "/") := by decide
  refine (request_framed_iff onlineWorld (fun _ => huri) rootOptions _ startsWith_rootOptions
    [ascii "host: b", ascii "x-id: 1"] _ (by decide +kernel)).mpr ⟨rfl, ?_, ?_⟩
  · rw [hhost]
    exact IsLine.not_infix_crlf (by decide)
  · intro hdr hhdr kv hkv
    rcases List.mem_pair.mp hhdr with rfl | rfl
    · rw [hfirst] at hkv
      cases hkv
    · rw [hsecond] at hkv
      cases hkv
      exact IsLine.not_infix_crlf (by decide)

/-- A value for `Host` with line ends makes two requests of one. -/
theorem request_split_by_host :
    (newFastClient onlineWorld.withWrite
        (rootOptions.addHeaders onlineWorld [ascii "Host: b\r\n\r\nGET /c HTTP/1.1"])).1.request
      = some (ascii "GET / HTTP/1.1\r\nHost: b\r\n\r\n"
          ++ ascii "GET /c HTTP/1.1\r\nUser-Agent: istio/fortio\r\n\r\n") ∧
      ¬ Framed onlineWorld rootOptions [(ascii "User-Agent", ascii "istio/fortio")]
        [ascii "Host: b\r\n\r\nGET /c HTTP/1.1"]
        (ascii "GET / HTTP/1.1\r\nHost: b\r\n\r\n"
          ++ ascii "GET /c HTTP/1.1\r\nUser-Agent: istio/fortio\r\n\r\n") := by
  refine ⟨by decide +kernel, fun h => ?_⟩
  have hpost := h.blank (ascii "GET / HTTP/1.1\r\nHost: b")
    (ascii "GET /c HTTP/1.1\r\nUser-Agent: istio/fortio\r\n\r\n") (by decide +kernel)
  exact absurd hpost (by decide)

end IstioVendor.Fhttp
