import IstioVendor.Proofs.Periodic.Results
import IstioVendor.Ui.Sync

/-!
# `IstioVendor.Proofs.Fhttp.NewClient`: a client that cannot be made

`NewClient` makes the standard client when the options or an `https` URL ask for it
(`HTTPOptions.wantsStd`), and otherwise the fast one. `newClient_cases` has all results.
`NewFastClient` returns a nil interface when it fails. `NewStdClient` returns a nil pointer, and
`NewClient` makes it an interface that is not nil.

So the callers see the failure exactly when it is not a standard client whose URL does
not parse (`failure_reported_iff`). In that case they call `Fetch` on the nil pointer, and the
process ends in a panic (`nil_client_fetched`). `FetcherHandler` always asks for the fast
client (`wantsStd_fetcherOptions`), and is not affected.
-/

set_option autoImplicit false

namespace IstioVendor.Fhttp

open Lib

/-! ### The scheme of a URL -/

section
variable (url : Bytes)

theorem exists_lcURL_http : ∃ rest, lcURL (ascii "http://" ++ url) = ascii "http://" ++ rest := by
  unfold lcURL
  split_ifs with hlong
  · refine ⟨(url.take 1).map toLower, ?_⟩
    rfl
  · exact ⟨url, rfl⟩

theorem isHTTPS_http : isHTTPS (ascii "http://" ++ url) = false := by
  obtain ⟨rest, hrest⟩ := exists_lcURL_http url
  rw [isHTTPS, hrest]
  rfl

/-- The check of the text, in the words of the check of the options. -/
theorem urlSchemeCheck_eq :
    Ui.urlSchemeCheck url
      = if url.length = 0 then url
        else if isHTTPS url then url
        else if (ascii "http://").isPrefixOf (lcURL url) then url
        else ascii "http://" ++ url := by
  unfold Ui.urlSchemeCheck HTTPOptions.urlSchemeCheck
  split_ifs <;> first | rfl | simp_all

/-- The check of a URL that begins with `http://` changes nothing. -/
theorem urlSchemeCheck_http :
    Ui.urlSchemeCheck (ascii "http://" ++ url) = ascii "http://" ++ url := by
  obtain ⟨rest, hrest⟩ := exists_lcURL_http url
  have hscheme : (ascii "http://").isPrefixOf (lcURL (ascii "http://" ++ url)) = true := by
    rw [hrest]
    rfl
  rw [urlSchemeCheck_eq, isHTTPS_http, hscheme]
  simp

theorem urlSchemeCheck_idem :
    Ui.urlSchemeCheck (Ui.urlSchemeCheck url) = Ui.urlSchemeCheck url := by
  by_cases hsame : Ui.urlSchemeCheck url = url
  · rw [hsame, hsame]
  · rw [urlSchemeCheck_eq url] at hsame ⊢
    split_ifs at hsame ⊢ <;> first | exact absurd rfl hsame | exact urlSchemeCheck_http url

theorem isHTTPS_urlSchemeCheck : isHTTPS (Ui.urlSchemeCheck url) = isHTTPS url := by
  rw [urlSchemeCheck_eq]
  split_ifs with hnil hhttps hhttp
  · rfl
  · rfl
  · rfl
  · rw [isHTTPS_http]
    exact (Bool.eq_false_iff.mpr hhttps).symm

end

/-! ### The options -/

namespace HTTPOptions

/-- `NewClient` makes the standard client. -/
def wantsStd (h : HTTPOptions) : Bool := h.disableFastClient || isHTTPS h.url

/-- The URL from which the client is made. -/
def checkedURL (h : HTTPOptions) : Bytes := Ui.urlSchemeCheck h.url

/-- The options of two states agree on what decides about the client. -/
structure Agrees (h h' : HTTPOptions) : Prop where
  wantsStd : h'.wantsStd = h.wantsStd
  checkedURL : h'.checkedURL = h.checkedURL

variable {w : ClientWorld} {h : HTTPOptions}

theorem url_urlSchemeCheck : h.urlSchemeCheck.url = h.checkedURL := by
  rw [checkedURL, urlSchemeCheck_eq, HTTPOptions.urlSchemeCheck]
  split_ifs <;> first | rfl | simp_all

theorem disableFastClient_urlSchemeCheck : h.urlSchemeCheck.disableFastClient = h.wantsStd := by
  rw [wantsStd, HTTPOptions.urlSchemeCheck]
  split_ifs with hnil hhttps hhttp
  · have hnot : isHTTPS h.url = false := by
      rw [List.eq_nil_of_length_eq_zero hnil]
      decide
    simp [hnot]
  · simp [hhttps]
  · simp [hhttps]
  · simp [hhttps]

theorem initDone_urlSchemeCheck : h.urlSchemeCheck.initDone = h.initDone := by
  unfold HTTPOptions.urlSchemeCheck
  split_ifs <;> rfl

theorem agrees_urlSchemeCheck : Agrees h h.urlSchemeCheck where
  wantsStd := by
    rw [wantsStd, disableFastClient_urlSchemeCheck, url_urlSchemeCheck, checkedURL,
      isHTTPS_urlSchemeCheck, wantsStd, Bool.or_assoc, Bool.or_self]
  checkedURL := by
    rw [checkedURL, url_urlSchemeCheck, checkedURL, urlSchemeCheck_idem]

theorem init_of_done (hdone : h.initDone = true) (url : Bytes) : h.init w url = h := by
  rw [init, if_pos hdone]

/-- `Init` does nothing, or it fills in defaults and checks the URL. -/
theorem init_cases (w : ClientWorld) (h : HTTPOptions) (url : Bytes) :
    (h.initDone = true ∧ h.init w url = h) ∨
      ∃ h' : HTTPOptions, h'.url = url ∧ h'.disableFastClient = h.disableFastClient ∧
        h'.initDone = true ∧ h.init w url = h'.urlSchemeCheck := by
  by_cases hdone : h.initDone = true
  · exact .inl ⟨hdone, init_of_done hdone url⟩
  · refine .inr ⟨_, ?_, ?_, ?_, if_neg hdone⟩
    all_goals
      dsimp only
      split <;> rfl

theorem initDone_init : (h.init w h.url).initDone = true := by
  rcases init_cases w h h.url with ⟨hdone, heq⟩ | ⟨h', -, -, hdone, heq⟩
  · rw [heq, hdone]
  · rw [heq, initDone_urlSchemeCheck, hdone]

theorem agrees_init : Agrees h (h.init w h.url) := by
  rcases init_cases w h h.url with ⟨-, heq⟩ | ⟨h', hurl, hdisable, -, heq⟩
  · rw [heq]
    exact ⟨rfl, rfl⟩
  · have hsame : Agrees h h' :=
      ⟨by rw [wantsStd, wantsStd, hurl, hdisable], by rw [checkedURL, checkedURL, hurl]⟩
    rw [heq]
    exact ⟨agrees_urlSchemeCheck.wantsStd.trans hsame.wantsStd,
      agrees_urlSchemeCheck.checkedURL.trans hsame.checkedURL⟩

/-- The options from which `NewClient` makes the client. -/
def checked (w : ClientWorld) (h : HTTPOptions) : HTTPOptions := (h.init w h.url).urlSchemeCheck

theorem url_checked : (h.checked w).url = h.checkedURL := by
  rw [checked, url_urlSchemeCheck, agrees_init.checkedURL]

theorem disableFastClient_checked : (h.checked w).disableFastClient = h.wantsStd := by
  rw [checked, disableFastClient_urlSchemeCheck, agrees_init.wantsStd]

theorem initDone_checked : (h.checked w).initDone = true := by
  rw [checked, initDone_urlSchemeCheck, initDone_init]

theorem init_checked (url : Bytes) : (h.checked w).init w url = h.checked w :=
  init_of_done initDone_checked url

/-- Options with the URL and the switch of the checked ones. -/
theorem agrees_of_checked {h' : HTTPOptions} (hurl : h'.url = (h.checked w).url)
    (hdisable : h'.disableFastClient = (h.checked w).disableFastClient) : Agrees h h' := by
  rw [url_checked] at hurl
  rw [disableFastClient_checked] at hdisable
  refine ⟨?_, by rw [checkedURL, hurl, checkedURL, urlSchemeCheck_idem]⟩
  rw [wantsStd, hurl, hdisable, checkedURL, isHTTPS_urlSchemeCheck, wantsStd, Bool.or_assoc,
    Bool.or_self]

end HTTPOptions

/-! ### The client -/

section
variable {w : ClientWorld} {h : HTTPOptions}

theorem newClient_eq : newClient w h
    = if h.wantsStd then
        (.std (newStdClient w (h.checked w)).1, (newStdClient w (h.checked w)).2)
      else newFastClient w (h.checked w) := by
  rw [← @HTTPOptions.disableFastClient_checked w h]
  rfl

/-- The standard client is missing exactly when its URL does not parse. -/
theorem newStdClient_isSome (hdone : h.initDone = true) :
    (newStdClient w h).1.isSome = (Url.parse h.url).isSome := by
  unfold newStdClient newHTTPRequest
  rw [HTTPOptions.init_of_done hdone]
  dsimp only
  cases Url.parse h.url <;> rfl

theorem newStdClient_checked :
    (newStdClient w (h.checked w)).1.isSome = (Url.parse h.checkedURL).isSome := by
  rw [newStdClient_isSome HTTPOptions.initDone_checked, HTTPOptions.url_checked]

theorem agrees_newStdClient : h.Agrees (newStdClient w (h.checked w)).2 := by
  unfold newStdClient
  rw [HTTPOptions.init_checked]
  dsimp only
  split
  · exact HTTPOptions.agrees_of_checked rfl rfl
  · exact HTTPOptions.agrees_of_checked rfl rfl

/-- A fast client can be made for a URL. -/
def fastReaches (w : ClientWorld) (url : Bytes) : Bool :=
  match Url.parse url with
  | none => false
  | some url =>
    url.scheme == ascii "http" &&
      w.resolve (w.hostname url) (if w.port url = [] then url.scheme else w.port url)

/-- The fast client is an interface that is nil when there is no client. -/
theorem newFastClient_spec :
    (newFastClient w (h.checked w)).1.built = fastReaches w h.checkedURL ∧
      (newFastClient w (h.checked w)).1.isNil = !fastReaches w h.checkedURL ∧
      h.Agrees (newFastClient w (h.checked w)).2 := by
  unfold newFastClient fastReaches
  rw [HTTPOptions.init_checked]
  dsimp only
  rw [HTTPOptions.url_checked]
  cases Url.parse h.checkedURL with
  | none => exact ⟨rfl, rfl, HTTPOptions.agrees_of_checked rfl rfl⟩
  | some url =>
    dsimp only
    generalize (if w.port url = [] then url.scheme else w.port url) = port
    by_cases hscheme : url.scheme = ascii "http"
    · rw [if_neg (not_not.mpr hscheme), beq_iff_eq.mpr hscheme, Bool.true_and]
      cases w.resolve (w.hostname url) port with
      | false => exact ⟨rfl, rfl, HTTPOptions.agrees_of_checked rfl rfl⟩
      | true => exact ⟨rfl, rfl, HTTPOptions.agrees_of_checked HTTPOptions.url_checked.symm rfl⟩
    · rw [if_pos hscheme, beq_eq_false_iff_ne.mpr hscheme]
      exact ⟨rfl, rfl, HTTPOptions.agrees_of_checked rfl rfl⟩

theorem agrees_newClient : h.Agrees (newClient w h).2 := by
  rw [newClient_eq]
  split_ifs
  · exact agrees_newStdClient
  · exact newFastClient_spec.2.2

/-- A client can be made, for the kind of the client and the checked URL. -/
def reaches (w : ClientWorld) (std : Bool) (url : Bytes) : Bool :=
  if std then (Url.parse url).isSome else fastReaches w url

theorem built_newClient : (newClient w h).1.built = reaches w h.wantsStd h.checkedURL := by
  rw [newClient_eq, reaches]
  split_ifs
  · exact newStdClient_checked
  · exact newFastClient_spec.1

/-- The options ask for a standard client, and its URL does not parse. -/
def HTTPOptions.StdUnparsed (h : HTTPOptions) : Prop :=
  h.wantsStd = true ∧ Url.parse h.checkedURL = none

/-- The nil pointer in an interface. -/
theorem newClient_of_stdUnparsed (hbad : h.StdUnparsed) : (newClient w h).1 = .std none := by
  have hnone : (newStdClient w (h.checked w)).1.isSome = false := by
    rw [newStdClient_checked, hbad.2]
    rfl
  rw [newClient_eq, if_pos hbad.1, Option.not_isSome_iff_eq_none.mp (Bool.eq_false_iff.mp hnone)]

/-- In all other cases the interface says whether there is a client. -/
theorem isNil_newClient (hgood : ¬ h.StdUnparsed) :
    (newClient w h).1.isNil = !(newClient w h).1.built := by
  rw [newClient_eq]
  split_ifs with hstd
  · have hparse : (Url.parse h.checkedURL).isSome = true :=
      Option.isSome_iff_ne_none.mpr fun hnone => hgood ⟨hstd, hnone⟩
    rw [Fetcher.built, newStdClient_checked, hparse]
    rfl
  · rw [newFastClient_spec.1, newFastClient_spec.2.1]

end

section
variable {h h' : HTTPOptions}

theorem HTTPOptions.Agrees.stdUnparsed (hagree : h.Agrees h') : h'.StdUnparsed ↔ h.StdUnparsed := by
  rw [HTTPOptions.StdUnparsed, HTTPOptions.StdUnparsed, hagree.wantsStd, hagree.checkedURL]

theorem HTTPOptions.Agrees.built (hagree : h.Agrees h') (w : ClientWorld) :
    (newClient w h').1.built = (newClient w h).1.built := by
  rw [built_newClient, built_newClient, hagree.wantsStd, hagree.checkedURL]

end

/-! ### The callers -/

/-- A caller that gets a client, or none when `created` is not set, gives up or fetches from it. -/
structure Safe (created : Bool) (u : Usage CallerEnd) : Prop where
  reported : created = false → u = ⟨.returned, []⟩
  fetched : ∀ f ∈ u.fetched, f.built = true

section
variable {w : ClientWorld} {h : HTTPOptions} {answer : Fetched}

/-- The caller gives up without a client, and fetches from the client it got. -/
theorem Safe.of_built {f : Fetcher} {u : Usage CallerEnd}
    (hnone : f.built = false → u = ⟨.returned, []⟩) (hsome : f.built = true → u.fetched = [f]) :
    Safe f.built u where
  reported := hnone
  fetched := fun f' hf' => by
    cases hbuilt : f.built with
    | false =>
      rw [hnone hbuilt] at hf'
      exact absurd hf' List.not_mem_nil
    | true =>
      rw [hsome hbuilt] at hf'
      rw [List.mem_singleton.mp hf', hbuilt]

theorem fetchURL_safe (hgood : ¬ h.StdUnparsed) :
    Safe (newClient w h).1.built (fetchURL w h answer) := by
  unfold fetchURL Fetcher.fetch
  dsimp only
  rw [isNil_newClient hgood]
  refine .of_built (fun hbuilt => ?_) (fun hbuilt => ?_)
  · simp [hbuilt]
  · simp [hbuilt]

theorem wantsStd_newHTTPOptions (url : Bytes) : (newHTTPOptions w url).wantsStd = isHTTPS url := by
  rcases HTTPOptions.init_cases w .zero url with ⟨hdone, -⟩ | ⟨h', hurl, hdisable, -, heq⟩
  · exact absurd hdone (by decide)
  · rw [newHTTPOptions, heq, HTTPOptions.agrees_urlSchemeCheck.wantsStd, HTTPOptions.wantsStd,
      hurl, hdisable]
    rfl

theorem wantsStd_onBehalfOf (remoteAddr : Bytes) :
    (h.onBehalfOf w remoteAddr).wantsStd = h.wantsStd := by
  unfold HTTPOptions.onBehalfOf
  split <;> rfl

/-- `FetcherHandler` asks for the fast client. -/
theorem wantsStd_fetcherOptions (requestURL remoteAddr : Bytes) :
    (fetcherOptions w requestURL remoteAddr).wantsStd = false := by
  have htimeOut : ∀ (opts : HTTPOptions) (timeOut : Int),
      { opts with httpReqTimeOut := timeOut }.wantsStd = opts.wantsStd := fun _ _ => rfl
  rw [fetcherOptions, wantsStd_onBehalfOf, htimeOut, wantsStd_newHTTPOptions]
  exact isHTTPS_http _

theorem fetcherHandler_safe (hijacked : Bool) (requestURL remoteAddr : Bytes) :
    Safe (newClient w (fetcherOptions w requestURL remoteAddr)).1.built
      (fetcherHandler w hijacked requestURL remoteAddr answer) := by
  have hgood : ¬ (fetcherOptions w requestURL remoteAddr).StdUnparsed := fun hbad => by
    have hstd := hbad.1
    rw [wantsStd_fetcherOptions] at hstd
    exact absurd hstd (by decide)
  unfold fetcherHandler Fetcher.fetch
  dsimp only
  rw [isNil_newClient hgood]
  cases hijacked with
  | false => exact ⟨fun _ => rfl, fun f hf => absurd hf List.not_mem_nil⟩
  | true =>
    refine .of_built (fun hbuilt => ?_) (fun hbuilt => ?_)
    · simp [hbuilt]
    · simp [hbuilt]

end

/-! ### The setup of a test -/

/-- The setup of a test: no `Fetch` without a client, neither now nor in the run that follows, and
an error when a client cannot be made for one of the threads. -/
structure SafeSetup (created : Nat → Bool) (n : Nat) (u : Usage SetupEnd) : Prop where
  fetched : ∀ f ∈ u.fetched, f.built = true
  ready : ∀ clients, u.result = .ready clients → ∀ f ∈ clients, f.built = true
  reported : (∃ i < n, created i = false) → ∃ e, u.result = .failed e

variable {created : Nat → Bool} {fs : List Fetcher} {h : HTTPOptions}

theorem SafeSetup.of_failed {n : Nat} {e : HTTPError} (hfs : ∀ f ∈ fs, f.built = true) :
    SafeSetup created n ⟨.failed e, fs⟩ where
  fetched := hfs
  ready := fun clients h => absurd h (by simp)
  reported := fun _ => ⟨e, rfl⟩

/-- A thread with a client before the others. -/
theorem SafeSetup.after {n : Nat} {rest : Usage SetupEnd} {client : Fetcher}
    (hrest : SafeSetup (fun j => created (j + 1)) n rest) (hclient : client.built = true)
    (hcreated : created 0 = true) (hfs : ∀ f ∈ fs, f.built = true) :
    SafeSetup created (n + 1) (.after client fs rest) where
  fetched := fun f hf => (List.mem_append.mp hf).elim (hfs f) (hrest.fetched f)
  ready := by
    intro clients hready
    unfold Usage.after at hready
    cases hresult : rest.result with
    | failed e => rw [hresult] at hready; exact absurd hready (by simp)
    | panicked => rw [hresult] at hready; exact absurd hready (by simp)
    | ready cs =>
      rw [hresult] at hready
      cases hready
      exact List.forall_mem_cons.mpr ⟨hclient, hrest.ready cs hresult⟩
  reported := by
    rintro ⟨i, hi, hfalse⟩
    cases i with
    | zero => rw [hcreated] at hfalse; exact absurd hfalse (by decide)
    | succ i =>
      obtain ⟨e, he⟩ := hrest.reported ⟨i, by omega, hfalse⟩
      exact ⟨e, by rw [Usage.after, he]⟩

theorem setupThreads_safe (o : HTTPRunnerOptions) (worlds : Nat → ClientWorld)
    (answers : Nat → Fetched) (n i : Nat) (hgood : ¬ h.StdUnparsed) :
    SafeSetup (fun j => (newClient (worlds (i + j)) h).1.built) n
      (setupThreads o worlds answers n i h) := by
  induction n generalizing i h with
  | zero =>
    exact ⟨fun f hf => absurd hf List.not_mem_nil,
      fun clients hready => by
        cases hready
        simp,
      fun ⟨j, hj, _⟩ => absurd hj (Nat.not_lt_zero j)⟩
  | succ n ih =>
    have hagree : h.Agrees (newClient (worlds i) h).2 := agrees_newClient
    have hrest := ih (i + 1) (fun hbad => hgood (hagree.stdUnparsed.mp hbad))
    simp only [hagree.built, Nat.add_assoc, Nat.add_comm 1] at hrest
    unfold setupThreads Fetcher.fetch
    dsimp only
    rw [isNil_newClient hgood]
    cases hbuilt : (newClient (worlds i) h).1.built with
    | false => exact .of_failed fun f hf => absurd hf List.not_mem_nil
    | true =>
      have hsingle : ∀ f ∈ [(newClient (worlds i) h).1], f.built = true :=
        List.forall_mem_singleton.mpr hbuilt
      simp only [Bool.not_true, Bool.false_eq_true, if_false, if_true]
      split_ifs
      · exact .of_failed hsingle
      · exact hrest.after hbuilt hbuilt hsingle
      · exact hrest.after hbuilt hbuilt fun f hf => absurd hf List.not_mem_nil

/-! ### The missing client -/

section
variable {w : ClientWorld} {h : HTTPOptions}

/-- `FetchURL` calls `Fetch` on the nil pointer. -/
theorem fetchURL_of_stdUnparsed (hbad : h.StdUnparsed) (answer : Fetched) :
    fetchURL w h answer = ⟨.panicked, [.std none]⟩ := by
  unfold fetchURL
  rw [newClient_of_stdUnparsed hbad]
  rfl

/-- So does `RunHTTPTest`, unless it makes no first fetch. -/
theorem setupClients_of_stdUnparsed (hbad : h.StdUnparsed) {o : HTTPRunnerOptions}
    (hwarm : o.exactly ≤ 0) (worlds : Nat → ClientWorld) (answers : Nat → Fetched) :
    setupClients o h worlds answers = ⟨.panicked, [.std none]⟩ := by
  have hagree : h.Agrees (h.init (worlds 0) h.url) := HTTPOptions.agrees_init
  have hone := Periodic.one_le_normalize_numThreads o.toRunnerOptions
  obtain ⟨n, hn⟩ : ∃ n, o.toRunnerOptions.normalize.numThreads.toNat = n + 1 :=
    ⟨o.toRunnerOptions.normalize.numThreads.toNat - 1, by omega⟩
  unfold setupClients
  dsimp only
  rw [hn, setupThreads]
  dsimp only
  rw [newClient_of_stdUnparsed (hagree.stdUnparsed.mpr hbad), if_pos hwarm]
  rfl

end

/-- A world in which no name resolves. -/
def offlineWorld : ClientWorld where
  resolve := fun _ _ => false
  hostname := Url.host
  port := fun _ => []
  requestURI := Url.path
  requestHost := Url.host
  headerLines := fun _ => []
  userAgent := ascii "istio/fortio"
  bufferSizeKb := 32
  bufferSize_lt := by decide

/-- A client that cannot be made is reported, and not used. For all options, this is so exactly
when they do not ask for a standard client with a URL that does not parse. -/
theorem failure_reported_iff (h : HTTPOptions) :
    ((∀ w, (newClient w h).1.built = false → (newClient w h).1.isNil = true) ∧
      (∀ (o : HTTPRunnerOptions) (worlds : Nat → ClientWorld) (answers : Nat → Fetched),
        SafeSetup (fun i => (newClient (worlds i) h).1.built)
          o.toRunnerOptions.normalize.numThreads.toNat (setupClients o h worlds answers)) ∧
      (∀ w answer, Safe (newClient w h).1.built (fetchURL w h answer)) ∧
      (∀ w hijacked requestURL remoteAddr answer,
        Safe (newClient w (fetcherOptions w requestURL remoteAddr)).1.built
          (fetcherHandler w hijacked requestURL remoteAddr answer)))
      ↔ ¬ (h.wantsStd = true ∧ Url.parse h.checkedURL = none) := by
  refine ⟨fun hsafe hbad => ?_, fun hgood => ⟨fun w hbuilt => ?_, fun o worlds answers => ?_,
    fun w answer => fetchURL_safe hgood,
    fun w hijacked requestURL remoteAddr answer => fetcherHandler_safe _ _ _⟩⟩
  · have hnil := hsafe.1 offlineWorld
    rw [newClient_of_stdUnparsed hbad] at hnil
    exact absurd (hnil rfl) (by decide)
  · rw [isNil_newClient hgood, hbuilt]
    rfl
  · have hagree : h.Agrees (h.init (worlds 0) h.url) := HTTPOptions.agrees_init
    have hsafe := setupThreads_safe o worlds answers
      o.toRunnerOptions.normalize.numThreads.toNat 0
      (fun hbad => hgood (hagree.stdUnparsed.mp hbad))
    simp only [hagree.built, Nat.zero_add] at hsafe
    exact hsafe

/-- The options of a test with the defaults. -/
def sampleTestOptions : HTTPRunnerOptions where
  toRunnerOptions := Periodic.defaultRunnerOptions
  allowInitialErrors := false
  abortOn := 0

/-- `NewClient` returns an interface that is not nil, and `RunHTTPTest` and `FetchURL` call `Fetch`
on the nil pointer in it and panic. -/
structure HTTPOptions.FetchesNil (h : HTTPOptions) : Prop where
  client : (newClient offlineWorld h).1 = .std none
  isNil : (newClient offlineWorld h).1.isNil = false
  setup : setupClients sampleTestOptions h (fun _ => offlineWorld) (fun _ => ⟨200, 0, 0⟩)
    = ⟨.panicked, [.std none]⟩
  fetchURL : fetchURL offlineWorld h ⟨200, 0, 0⟩ = ⟨.panicked, [.std none]⟩

theorem fetchesNil_of_stdUnparsed (hbad : h.StdUnparsed) : h.FetchesNil where
  client := newClient_of_stdUnparsed hbad
  isNil := by
    rw [newClient_of_stdUnparsed hbad]
    rfl
  setup := setupClients_of_stdUnparsed hbad (by decide) _ _
  fetchURL := fetchURL_of_stdUnparsed hbad _

/-- The URL `https://%`, and the URL `http://%` with the flag for the standard client. -/
theorem nil_client_fetched :
    { HTTPOptions.zero with url := ascii "https://%" }.FetchesNil ∧
      { HTTPOptions.zero with url := ascii "http://%", disableFastClient := true }.FetchesNil :=
  ⟨fetchesNil_of_stdUnparsed ⟨by decide, by decide +kernel⟩,
    fetchesNil_of_stdUnparsed ⟨by decide, by decide +kernel⟩⟩

end IstioVendor.Fhttp
