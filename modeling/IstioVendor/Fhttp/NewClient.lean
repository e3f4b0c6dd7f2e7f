import IstioVendor.Fhttp.HttpClient
import IstioVendor.Fhttp.HttpRunner
import IstioVendor.Lib.Url

/-!
# `IstioVendor.Fhttp.NewClient`: how the clients are made

`newClient` is `NewClient` of `fhttp/http_client.go`. It makes a standard or a fast client from the
options. `urlSchemeCheck` completes the URL before, and an `https` URL switches to the standard
client. The options are passed by reference in the source, and returned here.

A `Fetcher` is an interface of Go. It is `nil`, or it has a type and a value of this type. The value
of the type `*Client` can itself be nil, and then the interface is not. `isNil` is the
comparison of an interface with `nil`, and `fetch` panics when there is no client.

Three functions make a client and look at the result: `RunHTTPTest` (`setupClients`), `FetchURL`
of `bincommon` and `FetcherHandler`. A `Usage` says what they came to, and on which values they
called `Fetch`.

`ClientWorld` has the functions of the Go library and the name server. Left out: the fields
of the fast client that `HttpClient` leaves out, the log, and the connection of the handler.
-/

set_option autoImplicit false

namespace IstioVendor.Fhttp

open Lib

/-! ### The options -/

/-- `http.Header`, by the pairs that were added to it. -/
abbrev Header := List (Bytes × Bytes)

/-- `HTTPOptions`. The header can be a nil map. -/
structure HTTPOptions where
  url : Bytes
  numConnections : Int
  compression : Bool
  disableFastClient : Bool
  http10 : Bool
  disableKeepAlive : Bool
  allowHalfClose : Bool
  insecure : Bool
  followRedirects : Bool
  initDone : Bool
  https : Bool
  extraHeaders : Option Header
  hostOverride : Bytes
  httpReqTimeOut : Int

/-- `resolve` says whether `fnet.Resolve` finds an address for a host and a port. `hostname`, `port`
and `requestURI` are methods of a URL, `requestHost` is the host of a new request, and `headerLines`
what `Write` of a header writes. `bufferSizeKb` and `userAgent` are variables of the package. -/
structure ClientWorld where
  resolve : Bytes → Bytes → Bool
  hostname : Url → Bytes
  port : Url → Bytes
  requestURI : Url → Bytes
  requestHost : Url → Bytes
  headerLines : Header → Bytes
  userAgent : Bytes
  bufferSizeKb : Nat
  bufferSize_lt : bufferSizeKb * 1024 < 2 ^ 63

/-- The part of the URL that is compared with the schemes, in lower case when the URL is longer. -/
def lcURL (url : Bytes) : Bytes := if 8 < url.length then (url.take 8).map toLower else url

def isHTTPS (url : Bytes) : Bool := (ascii "https://").isPrefixOf (lcURL url)

/-- `HTTPReqTimeOutDefaultValue`. -/
def httpReqTimeOutDefaultValue : Int := 15 * 10 ^ 9

namespace HTTPOptions

/-- `URLSchemeCheck`. -/
def urlSchemeCheck (h : HTTPOptions) : HTTPOptions :=
  if h.url.length = 0 then h
  else if isHTTPS h.url then { h with https := true, disableFastClient := true }
  else if !(ascii "http://").isPrefixOf (lcURL h.url) then
    { h with url := ascii "http://" ++ h.url }
  else h

/-- `InitHeaders`. -/
def initHeaders (w : ClientWorld) (h : HTTPOptions) : HTTPOptions :=
  { h with extraHeaders := some [(ascii "User-Agent", w.userAgent)], hostOverride := [] }

/-- `Init`. -/
def init (w : ClientWorld) (h : HTTPOptions) (url : Bytes) : HTTPOptions :=
  if h.initDone then h
  else
    let h := { h with
      initDone := true
      url := url
      numConnections := 1
      httpReqTimeOut :=
        if h.httpReqTimeOut ≤ 0 then httpReqTimeOutDefaultValue else h.httpReqTimeOut }
    let h := if h.extraHeaders.isNone then h.initHeaders w else h
    h.urlSchemeCheck

/-- The zero value of the type. -/
def zero : HTTPOptions where
  url := []
  numConnections := 0
  compression := false
  disableFastClient := false
  http10 := false
  disableKeepAlive := false
  allowHalfClose := false
  insecure := false
  followRedirects := false
  initDone := false
  https := false
  extraHeaders := none
  hostOverride := []
  httpReqTimeOut := 0

end HTTPOptions

/-- `NewHTTPOptions`. -/
def newHTTPOptions (w : ClientWorld) (url : Bytes) : HTTPOptions := HTTPOptions.zero.init w url

/-! ### The standard client -/

/-- The request that the standard client sends. -/
structure Request where
  url : Url
  header : Option Header
  host : Bytes

/-- `Client`, with the settings of its transport. -/
structure StdClient where
  url : Bytes
  req : Request
  timeout : Int
  maxIdleConns : Int
  disableCompression : Bool
  disableKeepAlives : Bool
  insecureSkipVerify : Bool
  followRedirects : Bool

/-- `newHTTPRequest`. `http.NewRequest` fails for a URL that does not parse. -/
def newHTTPRequest (w : ClientWorld) (o : HTTPOptions) : Option Request :=
  (Url.parse o.url).map fun url => {
    url := url
    header := o.extraHeaders
    host := if o.hostOverride ≠ [] then o.hostOverride else w.requestHost url }

/-- `NewStdClient`. The result is a pointer. -/
def newStdClient (w : ClientWorld) (o : HTTPOptions) : Option StdClient × HTTPOptions :=
  let o := o.init w o.url
  match newHTTPRequest w o with
  | none => (none, o)
  | some req =>
    let o := { o with numConnections := if o.numConnections < 1 then 1 else o.numConnections }
    (some {
      url := o.url
      req := req
      timeout := o.httpReqTimeOut
      maxIdleConns := o.numConnections
      disableCompression := !o.compression
      disableKeepAlives := o.disableKeepAlive
      insecureSkipVerify := o.insecure && o.https
      followRedirects := o.followRedirects }, o)

/-! ### Interfaces -/

/-- `Fetcher`. -/
inductive Fetcher where
  | nil
  | std (c : Option StdClient)
  | fast (c : FastClient)

namespace Fetcher

/-- The comparison with `nil`. -/
def isNil : Fetcher → Bool
  | .nil => true
  | _ => false

/-- There is a client behind the interface. -/
def built : Fetcher → Bool
  | .nil => false
  | .std c => c.isSome
  | .fast _ => true

/-- `Fetch`, when a client answers `answer`. `none` is the panic without a client. -/
def fetch (answer : Fetched) (f : Fetcher) : Option Fetched := if f.built then some answer else none

end Fetcher

/-- The request of a fast client. -/
def fastRequest (w : ClientWorld) (o : HTTPOptions) (url : Url) : Bytes :=
  let proto := if o.http10 then ascii "1.0" else ascii "1.1"
  let host := if o.hostOverride ≠ [] then o.hostOverride else url.host
  ascii "GET " ++ w.requestURI url ++ ascii " HTTP/" ++ proto ++ crlf
    ++ (if o.http10 then []
        else ascii "Host: " ++ host ++ crlf
          ++ if o.disableKeepAlive then ascii "Connection: close" ++ crlf else [])
    ++ w.headerLines (o.extraHeaders.getD []) ++ crlf

/-- `NewFastClient`. The result is an interface. -/
def newFastClient (w : ClientWorld) (o : HTTPOptions) : Fetcher × HTTPOptions :=
  let o := o.init w o.url
  match Url.parse o.url with
  | none => (.nil, o)
  | some url =>
    if url.scheme ≠ ascii "http" then (.nil, o)
    else
      let port := if w.port url = [] then url.scheme else w.port url
      if !w.resolve (w.hostname url) port then (.nil, o)
      else
        let bc : FastClient := {
          buffer := List.replicate (w.bufferSizeKb * 1024) 0
          req := fastRequest w o url
          socket := none
          socketCount := 0
          size := 0
          code := 0
          errorCount := 0
          headerLen := 0
          keepAlive := !o.http10 && !o.disableKeepAlive
          parseHeaders := !o.http10
          halfClose := o.allowHalfClose
          size_le := Nat.zero_le _
          length_lt :=
            Nat.lt_of_le_of_lt (Nat.le_of_eq List.length_replicate) w.bufferSize_lt }
        (.fast bc, { o with
          httpReqTimeOut :=
            if o.httpReqTimeOut ≤ 0 then httpReqTimeOutDefaultValue else o.httpReqTimeOut })

/-- `NewClient`. The pointer of `NewStdClient` becomes an interface with the type `*Client`. -/
def newClient (w : ClientWorld) (o : HTTPOptions) : Fetcher × HTTPOptions :=
  let o := (o.init w o.url).urlSchemeCheck
  if o.disableFastClient then
    let (c, o) := newStdClient w o
    (.std c, o)
  else newFastClient w o

/-! ### The callers -/

/-- What a caller came to, and the values on which it called `Fetch`. -/
structure Usage (α : Type) where
  result : α
  fetched : List Fetcher

/-- How a caller ends. -/
inductive CallerEnd where
  | returned
  | exited
  | panicked
deriving DecidableEq

/-- `FetchURL` of `bincommon/commonflags.go`. -/
def fetchURL (w : ClientWorld) (o : HTTPOptions) (answer : Fetched) : Usage CallerEnd :=
  let client := (newClient w o).1
  if client.isNil then ⟨.returned, []⟩
  else
    match client.fetch answer with
    | none => ⟨.panicked, [client]⟩
    | some fetched => ⟨if fetched.code ≠ 200 then .exited else .returned, [client]⟩

/-- `OnBehalfOf`. The added text always has a key, which is not `host`. -/
def HTTPOptions.onBehalfOf (w : ClientWorld) (o : HTTPOptions) (remoteAddr : Bytes) : HTTPOptions :=
  let o := if o.extraHeaders.isNone then o.initHeaders w else o
  { o with
    extraHeaders := o.extraHeaders.map (· ++ [(ascii "X-On-Behalf-Of", trimSpace remoteAddr)]) }

/-- The options that `FetcherHandler` makes for the URL of a request. -/
def fetcherOptions (w : ClientWorld) (requestURL remoteAddr : Bytes) : HTTPOptions :=
  let url := if (ascii "./").isPrefixOf requestURL then requestURL.drop 2 else requestURL
  let opts := newHTTPOptions w (ascii "http://" ++ url)
  { opts with httpReqTimeOut := 5 * 60 * 10 ^ 9 }.onBehalfOf w remoteAddr

/-- `FetcherHandler`, after the connection of the request was taken over when `hijacked` is set. -/
def fetcherHandler (w : ClientWorld) (hijacked : Bool) (requestURL remoteAddr : Bytes)
    (answer : Fetched) : Usage CallerEnd :=
  if !hijacked then ⟨.returned, []⟩
  else
    let client := (newClient w (fetcherOptions w requestURL remoteAddr)).1
    if client.isNil then ⟨.returned, []⟩
    else
      match client.fetch answer with
      | none => ⟨.panicked, [client]⟩
      | some _ => ⟨.returned, [client]⟩

/-- How the first loop of `RunHTTPTest` ends. The clients are used by the run that follows. -/
inductive SetupEnd where
  | failed (e : HTTPError)
  | panicked
  | ready (clients : List Fetcher)

/-- The rest of the loop, behind a thread that is set up. -/
def Usage.after (client : Fetcher) (fetched : List Fetcher) (rest : Usage SetupEnd) :
    Usage SetupEnd where
  result :=
    match rest.result with
    | .ready clients => .ready (client :: clients)
    | other => other
  fetched := fetched ++ rest.fetched

/-- The loop of `RunHTTPTest` over `n` threads from the thread `i` on. -/
def setupThreads (o : HTTPRunnerOptions) (worlds : Nat → ClientWorld) (answers : Nat → Fetched) :
    Nat → Nat → HTTPOptions → Usage SetupEnd
  | 0, _, _ => ⟨.ready [], []⟩
  | n + 1, i, h =>
    let (client, h) := newClient (worlds i) h
    if client.isNil then ⟨.failed (.unableToCreateClient i), []⟩
    else if o.exactly ≤ 0 then
      match client.fetch (answers i) with
      | none => ⟨.panicked, [client]⟩
      | some fetched =>
        if !o.allowInitialErrors && fetched.code != 200 then
          ⟨.failed (.initial fetched.code), [client]⟩
        else .after client [client] (setupThreads o worlds answers n (i + 1) h)
    else .after client [] (setupThreads o worlds answers n (i + 1) h)

/-- The clients of `RunHTTPTest`. -/
def setupClients (o : HTTPRunnerOptions) (h : HTTPOptions) (worlds : Nat → ClientWorld)
    (answers : Nat → Fetched) : Usage SetupEnd :=
  let r := o.toRunnerOptions.normalize
  setupThreads o worlds answers r.numThreads.toNat 0 (h.init (worlds 0) h.url)

end IstioVendor.Fhttp
