import IstioVendor.Fhttp.NewClient
import IstioVendor.Ui.DataDir

/-!
# `IstioVendor.Ui.Sync`: the sync of `ui/uihandler.go`

`syncHandler` fetches an index and downloads the results that it lists into the data directory.
The index is the TSV of another server (`processTSV`), or the listing of a bucket in XML, which can
have more pages (`processXML`). `downloadOne` fetches one result, unless its file is there.

`World` is everything around the sync: what the servers answer to each fetch, what `os.Stat` and the
writes do, and the functions of the standard library for XML and for the text of a URL, which can
be any functions. A fetch is recorded with what it was for.

`SyncState` has the files, the fetches, and what the handler has written to the response, with the
status codes. A nil URL that is dereferenced is a panic (`SyncEnd.panicked`).

The URL of the client is the one that `URLSchemeCheck` and `ChangeURL` of `fhttp/http_client.go`
give it. A request with a URL that does not parse fails with the code 400, as in `Fetch`.

Left out: the page template, the headers of the requests, the flushes, and the log.
-/

set_option autoImplicit false

namespace IstioVendor.Ui

open Lib

/-! ### The world around a sync -/

/-- `ListBucketResult`. -/
structure ListBucketResult where
  nextMarker : Bytes
  names : List Bytes

/-- The servers, the local file system and the libraries. `respond` is the answer to a fetch, by the
number of fetches before it, and `writing` how the write after so many fetches ends. `urlString` is
`String` of a URL that was parsed from the first text and then changed. `getMarker` and `setMarker`
are the parameter `marker` of a query. -/
structure World where
  cwd : FilePath
  respond : Nat → Bytes → Nat × Bytes
  refusal : Bytes → Bytes
  unmarshal : Bytes → Option ListBucketResult
  urlString : Bytes → Url → Bytes
  getMarker : Bytes → Bytes
  setMarker : Bytes → Bytes → Bytes
  denied : FilePath → Bool
  isDir : FilePath → Bool
  writing : Nat → Files.WriteOutcome

/-- The directory that `path.Join` starts at. -/
def World.dirOf (w : World) (dataDir : Option FilePath) : FilePath := dataDir.getD w.cwd

/-- What `os.Stat` says. -/
inductive Stat where
  | found
  | failed
  | missing

def World.stat (w : World) (files : Files) (path : FilePath) : Stat :=
  if w.denied path then .failed
  else if (files.read path).isSome || w.isDir path then .found
  else .missing

/-- What a fetch is for. A listing has the base URL of its entries. -/
inductive Purpose where
  | listing (base : Bytes)
  | entry

/-- A fetch and its answer. -/
structure Fetch where
  purpose : Purpose
  url : Bytes
  code : Nat
  body : Bytes

structure SyncState where
  files : Files
  fetches : List Fetch := []
  out : Bytes := []
  codes : List Nat := []

/-- `Do` with the URL of the client, which is nil when it did not parse. -/
def World.answer (w : World) (n : Nat) (url : Bytes) : Nat × Bytes :=
  match Url.parse url with
  | none => (400, w.refusal url)
  | some _ => w.respond n url

namespace SyncState

/-- `Write` to the response. -/
def write (s : SyncState) (text : Bytes) : SyncState := { s with out := s.out ++ text }

/-- `WriteHeader`. -/
def writeHeader (s : SyncState) (code : Nat) : SyncState := { s with codes := s.codes ++ [code] }

/-- `ChangeURL` and `Fetch` of the client. -/
def fetch (w : World) (s : SyncState) (purpose : Purpose) (url : Bytes) : SyncState × Nat × Bytes :=
  let answer := w.answer s.fetches.length url
  ({ s with fetches := s.fetches ++ [⟨purpose, url, answer.1, answer.2⟩] }, answer)

end SyncState

/-- `template.HTMLEscapeString`. -/
def htmlEscapeString (s : Bytes) : Bytes :=
  s.flatMap fun b =>
    if b = 0 then [0xEF, 0xBF, 0xBD]
    else if b = 34 then ascii "&#34;"
    else if b = 39 then ascii "&#39;"
    else if b = 38 then ascii "&amp;"
    else if b = 60 then ascii "&lt;"
    else if b = 62 then ascii "&gt;"
    else [b]

/-! ### One result -/

/-- What `downloadOne` reports for an entry. -/
inductive Report where
  | notJson
  | alreadyExists
  | accessError
  | httpError (code : Nat)
  | writeError
  | success

def Report.text : Report → Bytes
  | .notJson => ascii "<td>skipped (not json)"
  | .alreadyExists => ascii "<td>skipped (already exists)"
  | .accessError => ascii "<td>skipped (access error)"
  | .httpError code => ascii "<td>Http error, code " ++ decimal code
  | .writeError => ascii "<td>skipped (write error)"
  | .success => ascii "<td class='checkmark'>" ++ [0xE2, 0x9C, 0x93]

/-- The status code of the response that goes with a report. -/
def Report.status : Report → List Nat
  | .httpError _ => [424]
  | .writeError => [500]
  | _ => []

def SyncState.report (s : SyncState) (r : Report) : SyncState × Report :=
  ({ s with out := s.out ++ r.text, codes := s.codes ++ r.status }, r)

/-- `downloadOne`. -/
def downloadOne (w : World) (dir : FilePath) (s : SyncState) (name u : Bytes) :
    SyncState × Report :=
  if !isJson name then s.report .notJson
  else
    let localPath := dir.join name
    match w.stat s.files localPath with
    | .found => s.report .alreadyExists
    | .failed => s.report .accessError
    | .missing =>
      let (s, code1, data1) := s.fetch w .entry u
      if code1 ≠ 200 then s.report (.httpError code1)
      else
        let (files, ok) := s.files.writeFile (w.writing s.fetches.length) localPath data1
        if ok then { s with files := files }.report .success
        else { s with files := files }.report .writeError

/-! ### TSV -/

/-- A line of an index: its URL, and the name of the file when the URL is valid. -/
def tsvEntry (l : Bytes) : Bytes × Option Bytes :=
  let u := (l.splitOn tab).headD []
  (u, (Url.parse u).map fun ur => lastPart slash ur.path)

/-- The lines of an index behind its first one. -/
def tsvEntries (sdata : Bytes) : List (Bytes × Option Bytes) :=
  (sdata.splitOn newline).tail.map tsvEntry

/-- The names and URLs that `processTSV` calls `downloadOne` with, in order. -/
def tsvCalls (sdata : Bytes) : List (Bytes × Bytes) :=
  (tsvEntries sdata).filterMap fun entry => entry.2.map fun name => (name, entry.1)

/-- One pass of the loop of `processTSV`. -/
def processEntry (w : World) (dir : FilePath) (s : SyncState)
    (item : (Bytes × Option Bytes) × Nat) : SyncState :=
  let s := (s.write (ascii "<tr><td>")).write (htmlEscapeString item.1.1)
  let s :=
    match item.1.2 with
    | none => s.write (ascii "<td>skipped (not a valid url)")
    | some name => (downloadOne w dir s name item.1.1).1
  s.write (ascii "</tr><script>setPB(" ++ decimal (item.2 + 2) ++ ascii ")</script>\n")

/-- `processTSV`. -/
def processTSV (w : World) (dir : FilePath) (s : SyncState) (sdata : Bytes) : SyncState :=
  let n := (sdata.splitOn newline).length
  let s := s.write (ascii "success tsv fetch! Now fetching " ++ decimal (n - 1)
    ++ ascii " referenced URLs:<script>setPB(1," ++ decimal n ++ ascii ")</script>\n")
  (tsvEntries sdata).zipIdx.foldl (processEntry w dir) (s.write (ascii "<table>"))

/-! ### XML -/

/-- How `processXML` ends: with a table, with an error, or with a panic. -/
inductive SyncEnd where
  | table
  | failed
  | panicked
deriving DecidableEq

/-- The URL of an object of the bucket. -/
def objectURL (w : World) (baseURL : Bytes) (bu : Url) (el : Bytes) : Bytes :=
  w.urlString baseURL { bu with path := bu.path ++ [slash] ++ el }

/-- One pass of the loop of `processXML`. -/
def processObject (w : World) (dir : FilePath) (baseURL : Bytes) (bu : Url) (s : SyncState)
    (item : Bytes × Nat) : SyncState :=
  let s := (s.write (ascii "<tr><td>")).write (htmlEscapeString item.1)
  let s := (downloadOne w dir s (lastPart slash item.1) (objectURL w baseURL bu item.1)).1
  s.write (ascii "</tr><script>setPB(" ++ decimal (item.2 + 2) ++ ascii ")</script>\n")

/-- The texts before the loop of `processXML`. -/
def xmlStart (s : SyncState) (level n : Nat) : SyncState :=
  let s := s.write (ascii "success xml fetch #" ++ decimal (level + 1) ++ ascii "! Now fetching "
    ++ decimal n ++ ascii " referenced objects:<script>setPB(1," ++ decimal (n + 1)
    ++ ascii ")</script>\n")
  if level = 0 then s.write (ascii "<table>") else s

/-- The part of `processXML` behind these texts when the base URL did not parse. The nil URL is used
first in the loop, or for the next page. -/
def processNilURL (s : SyncState) (level : Nat) (l : ListBucketResult) : SyncState × SyncEnd :=
  match l.names with
  | el :: _ => ((s.write (ascii "<tr><td>")).write (htmlEscapeString el), .panicked)
  | [] =>
    if l.nextMarker.length = 0 then (s, .table)
    else if 100 < level then (s.writeHeader 509, .table)
    else (s, .panicked)

/-- `processXML`. -/
def processXML (w : World) (dir : FilePath) (data baseURL : Bytes) (level : Nat) (s : SyncState) :
    SyncState × SyncEnd :=
  match w.unmarshal data with
  | none =>
    ((s.write (ascii "xml parsing error, check logs<script>setPB(1,1)</script></body></html>\n"))
      |>.writeHeader 500, .failed)
  | some l =>
    let s := xmlStart s level l.names.length
    match Url.parse baseURL with
    | none => processNilURL s level l
    | some bu =>
      let s := l.names.zipIdx.foldl (processObject w dir baseURL bu) s
      if l.nextMarker.length = 0 then (s, .table)
      else if _h : 100 < level then (s.writeHeader 509, .table)
      else if w.getMarker bu.rawQuery = l.nextMarker then (s.writeHeader 508, .table)
      else
        let newBaseURL :=
          w.urlString baseURL { bu with rawQuery := w.setMarker bu.rawQuery l.nextMarker }
        let s := ((s.write (ascii "<tr><td>")).write (htmlEscapeString newBaseURL)).write
          (ascii "<td>")
        let (s, ncode, ndata) := s.fetch w (.listing newBaseURL) newBaseURL
        if ncode ≠ 200 then
          ((s.write (ascii "http error, code " ++ decimal ncode
              ++ ascii "<script>setPB(1,1)</script></table></body></html>\n"))
            |>.writeHeader 424, .failed)
        else processXML w dir ndata newBaseURL (level + 1) s
termination_by 101 - level
decreasing_by omega

/-! ### The handler -/

/-- The URL in the options for `url`, behind their `URLSchemeCheck`. -/
def urlSchemeCheck (url : Bytes) : Bytes :=
  ({ Fhttp.HTTPOptions.zero with url := url }).urlSchemeCheck.url

/-- `SyncHandler`, for the form value `url`. -/
def syncHandler (w : World) (dataDir : Option FilePath) (files : Files) (url : Bytes) : SyncState :=
  let uStr := trimSpace url
  let s : SyncState := { files := files }
  let s := s.write (ascii "Fetch of index/bucket url ... ")
  match Url.parse (urlSchemeCheck uStr) with
  | none =>
    (s.write (ascii "invalid url!<script>setPB(1,1)</script></body></html>\n")).writeHeader 422
  | some _ =>
    let (s, code, data) := s.fetch w (.listing uStr) (urlSchemeCheck uStr)
    if code ≠ 200 then
      (s.write (ascii "http error, code " ++ decimal code
        ++ ascii "<script>setPB(1,1)</script></body></html>\n")).writeHeader 424
    else
      let sdata := trimSpace data
      let (s, finish) :=
        if tsvHeader.isPrefixOf sdata then
          (processTSV w (w.dirOf dataDir) s sdata, SyncEnd.table)
        else processXML w (w.dirOf dataDir) data uStr 0 s
      match finish with
      | .table => (s.write (ascii "</table>")).write (ascii "\n</body></html>\n")
      | _ => s

end IstioVendor.Ui
