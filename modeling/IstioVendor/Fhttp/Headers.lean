import Mathlib.Data.List.Sort
import IstioVendor.Fhttp.NewClient

/-!
# `IstioVendor.Fhttp.Headers`: the headers in the options

The options have a header for the requests. `AddAndValidateExtraHeader` takes a text of the form
`Key: Value`. The key `host` is not put into the header: its value is kept apart, in `hostOverride`.
`GetHeaders` returns the header with this value in it. An `http.Header` is a map, and the copy that
`GetHeaders` makes of it is the same map. So the value is added to the header of the options.

`Header.add` and `Header.write` are the methods of `http.Header` of Go 1.10. A key is stored in its
canonical form if it is a token, and as it is if not. `Write` makes a line of each value, in the
order of the keys. It puts blanks for the line bytes of a value. It does not look at the keys.
-/

set_option autoImplicit false

namespace IstioVendor.Fhttp

open Lib

/-! ### `http.Header` -/

/-- `validHeaderFieldByte`: the byte of a token. -/
def isTokenByte (b : UInt8) : Bool := isAlnum b || (ascii "!#$%&'*+-.^_`|~").contains b

/-- The loop of `canonicalMIMEHeaderKey`. `upper` is set at the start and behind a dash. -/
def canonicalBytes : Bool → Bytes → Bytes
  | _, [] => []
  | upper, b :: rest =>
    let c := if upper then toUpper b else toLower b
    c :: canonicalBytes (c == 45) rest

/-- `CanonicalMIMEHeaderKey`. -/
def canonicalKey (key : Bytes) : Bytes :=
  if key.all isTokenByte then canonicalBytes true key else key

namespace Header

/-- `Add`. -/
def add (h : Header) (key value : Bytes) : Header := h ++ [(canonicalKey key, value)]

/-- What the map has for a key. -/
def values (h : Header) (key : Bytes) : List Bytes := (h.filter (·.1 = key)).map (·.2)

/-- `headerNewlineToSpace`. -/
def newlineToSpace (b : UInt8) : UInt8 := if b = 10 ∨ b = 13 then 32 else b

/-- `TrimString` of `net/textproto`. -/
def trimString (s : Bytes) : Bytes :=
  let isSpace := fun b : UInt8 => b = 32 || b = 9 || b = 10 || b = 13
  ((s.dropWhile isSpace).reverse.dropWhile isSpace).reverse

/-- A value as it is written. -/
def cleanValue (value : Bytes) : Bytes := trimString (value.map newlineToSpace)

/-- The line of a value, without its end. -/
def line (kv : Bytes × Bytes) : Bytes := kv.1 ++ ascii ": " ++ cleanValue kv.2

/-- The pairs in the order in which `Write` writes them: by the keys, then as they were added. -/
def sorted (h : Header) : Header := h.insertionSort fun a b => a.1 ≤ b.1

/-- `Write`. -/
def write (h : Header) : Bytes := joinLines ((sorted h).map line)

end Header

/-- The world with `Write` of `http.Header`. -/
def ClientWorld.withWrite (w : ClientWorld) : ClientWorld := { w with headerLines := Header.write }

/-! ### The methods of the options -/

/-- `strings.EqualFold(key, "host")`. The letter `ſ` folds to `s`. -/
def isHostKey (key : Bytes) : Bool :=
  match key with
  | [h, o, s, t] => [h, o, s, t].map toLower = ascii "host"
  | [h, o, s₁, s₂, t] =>
    decide ([h, o].map toLower = ascii "ho") && (s₁ == 0xC5) && (s₂ == 0xBF) && toLower t == 116
  | _ => false

/-- The key and the value of a text, `none` if there is no colon in it. -/
def splitHeader (hdr : Bytes) : Option (Bytes × Bytes) :=
  if colon ∈ hdr then some (trimSpace (cut colon hdr).1, trimSpace (cut colon hdr).2) else none

namespace HTTPOptions

/-- `ResetHeaders`. -/
def resetHeaders (h : HTTPOptions) : HTTPOptions :=
  { h with extraHeaders := some [], hostOverride := [] }

/-- `GetHeaders`: the header that is returned, and the options. -/
def getHeaders (h : HTTPOptions) : Option Header × HTTPOptions :=
  if h.hostOverride = [] then (h.extraHeaders, h)
  else
    let cp := h.extraHeaders.map fun header => Header.add header (ascii "Host") h.hostOverride
    (cp, { h with extraHeaders := cp })

/-- `AddAndValidateExtraHeader`: the error, and the options. -/
def addAndValidateExtraHeader (w : ClientWorld) (h : HTTPOptions) (hdr : Bytes) :
    Option Bytes × HTTPOptions :=
  let h := if h.extraHeaders.isNone then h.initHeaders w else h
  match splitHeader hdr with
  | none => (some (ascii "invalid extra header '" ++ hdr ++ ascii "', expecting Key: Value"), h)
  | some (key, value) =>
    if isHostKey key then (none, { h with hostOverride := value })
    else
      (none, { h with
        extraHeaders := h.extraHeaders.map fun header => Header.add header key value })

end HTTPOptions

/-- A call of a method of the options that is about the headers. -/
inductive HeaderCall where
  | add (hdr : Bytes)
  | init
  | reset
  | get
deriving DecidableEq

/-- One call: what `GetHeaders` returns, and the options. -/
def HeaderCall.run (w : ClientWorld) (h : HTTPOptions) : HeaderCall →
    List (Option Header) × HTTPOptions
  | .add hdr => ([], (h.addAndValidateExtraHeader w hdr).2)
  | .init => ([], h.initHeaders w)
  | .reset => ([], h.resetHeaders)
  | .get => ([h.getHeaders.1], h.getHeaders.2)

/-- A sequence of calls: what the calls of `GetHeaders` return, and the options. -/
def runCalls (w : ClientWorld) : HTTPOptions → List HeaderCall → List (Option Header) × HTTPOptions
  | h, [] => ([], h)
  | h, call :: calls =>
    let (out, h') := call.run w h
    let (outs, h'') := runCalls w h' calls
    (out ++ outs, h'')

/-- The bytes of the request of a fast client. -/
def Fetcher.request : Fetcher → Option Bytes
  | .fast c => some c.req
  | _ => none

end IstioVendor.Fhttp
