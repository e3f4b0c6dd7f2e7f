import IstioVendor.Lib.Files

/-!
# `IstioVendor.Ui.DataDir`: the data directory of `ui/uihandler.go`

Results are files with the extension `.json` in the data directory. `saveJSON` writes one,
`dataList` lists them, `dataHandler` serves them and their two indexes.

The index in TSV is cached. `sendTSVDataIndex` makes it again when the modification time of the
directory is not the one it was made at.

`Machine` is the directory with the actions that change it: `SaveJSON`, the creation of a file by
a sync, and a request for the index. A creation changes the modification time of the directory,
to write to a file that is there does not.

The data directory is `none` when `dataDir` is the empty string. The paths of the system start at
its root, and it has no links. MD5 is any function to digests of 16 bytes.

Left out: the headers of the responses other than the time in `ETag` and `Last-Modified`, and the
log.
-/

set_option autoImplicit false

namespace IstioVendor.Ui

open Lib

/-! ### Results -/

def jsonExt : Bytes := ascii ".json"

/-- `strings.HasSuffix` of the extension. -/
def isJson (name : Bytes) : Bool := jsonExt.isSuffixOf name

/-- `SaveJSON`: the files after it, and the relative path from the UI, which is empty when the
result is not saved. -/
def saveJSON (dataDir : Option FilePath) (files : Files) (outcome : Files.WriteOutcome)
    (name json : Bytes) : Files × Bytes :=
  match dataDir with
  | none => (files, [])
  | some dir =>
    let fname := name ++ jsonExt
    match files.writeFile outcome (dir.join fname) json with
    | (files', true) => (files', ascii "data/" ++ fname)
    | (files', false) => (files', [])

/-- `DataList`: the names of the results without the extension, the last one in the order of the
names first. -/
def dataList (dataDir : Option FilePath) (files : Files) : List Bytes :=
  match dataDir with
  | none => []
  | some dir =>
    (files.names dir).reverse.filterMap fun name =>
      if isJson name.bytes then some (name.bytes.take (name.bytes.length - jsonExt.length))
      else none

/-! ### The index -/

/-- The result of `md5.Sum`. -/
structure Digest where
  bytes : Bytes
  size : bytes.length = 16
deriving DecidableEq

/-- `sendHTMLDataIndex`. -/
def sendHTMLDataIndex (dataDir : Option FilePath) (files : Files) : Bytes :=
  ascii "<html><body><ul>\n"
    ++ (dataList dataDir files).flatMap (fun e =>
      ascii "<li><a href=\"" ++ e ++ ascii ".json\">" ++ e ++ ascii "</a>\n")
    ++ ascii "</ul></body></html>"

def tsvHeader : Bytes := ascii "TsvHttpData-1.0"

/-- One line of the index. -/
def tsvLine (md5 : Bytes → Digest) (urlPrefix fname content : Bytes) : Bytes :=
  urlPrefix ++ fname ++ [tab] ++ decimal content.length ++ [tab] ++ base64 (md5 content).bytes
    ++ [newline]

/-- The text of the index: the loop over `DataList` in `sendTSVDataIndex`. -/
def tsvIndex (md5 : Bytes → Digest) (dir : FilePath) (files : Files) (urlPrefix : Bytes) : Bytes :=
  tsvHeader ++ [newline] ++ (dataList (some dir) files).flatMap fun e =>
    -- A file that cannot be opened has no line.
    match files.read (dir.join (e ++ jsonExt)) with
    | none => []
    | some content => tsvLine md5 urlPrefix (e ++ jsonExt) content

/-- `tsvCache`. -/
structure TsvCache where
  cachedDirTime : Nat := 0
  cachedResult : Bytes := []

/-- A response with the index. -/
structure TsvReply where
  lastModified : Nat
  body : Bytes

/-- The cached index is of the time of the directory. -/
def TsvCache.isCurrent (cache : TsvCache) (dirTime : Nat) : Bool :=
  decide (dirTime = cache.cachedDirTime) && decide (0 < cache.cachedResult.length)

/-- `sendTSVDataIndex`. `dirTime` is what `os.Stat` says, and there is no index without it. -/
def sendTSVDataIndex (md5 : Bytes → Digest) (dataDir : Option FilePath) (dirTime : Option Nat)
    (files : Files) (cache : TsvCache) (urlPrefix : Bytes) : TsvCache × Option TsvReply :=
  match dataDir, dirTime with
  | some dir, some time =>
    let cache' :=
      if cache.isCurrent time then cache
      else { cachedDirTime := time, cachedResult := tsvIndex md5 dir files urlPrefix }
    (cache', some { lastModified := cache'.cachedDirTime, body := cache'.cachedResult })
  | _, _ => (cache, none)

/-! ### Requests -/

/-- A request below `data/`, and the base URL and the path that the UI was started with. -/
structure DataRequest where
  baseURL : Bytes
  uiPath : Bytes
  forwardedProto : Bytes
  host : Bytes
  path : Bytes

/-- The URL of the directory that the index puts before the names. -/
def DataRequest.urlPrefix (r : DataRequest) : Bytes :=
  if r.baseURL.length = 0 then
    let proto := if r.forwardedProto.length = 0 then ascii "http" else r.forwardedProto
    proto ++ ascii "://" ++ r.host ++ r.path.take (r.path.length - (ascii "/index.tsv").length + 1)
  else r.baseURL ++ r.uiPath ++ ascii "data/"

/-- The responses of the data handler. -/
inductive DataReply where
  | html (text : Bytes)
  | tsv (reply : Option TsvReply)
  | filtered
  | file (content : Option Bytes)

/-- The file server reads below the directory, whatever the path is. -/
def serveFile (dir : FilePath) (files : Files) (path : Bytes) : Option Bytes :=
  files.read (dir ++ FilePath.join [] path)

/-- `LogAndFilterDataRequest`, with the file server behind it. -/
def dataHandler (md5 : Bytes → Digest) (dir : FilePath) (dirTime : Option Nat) (files : Files)
    (cache : TsvCache) (r : DataRequest) : TsvCache × DataReply :=
  if (ascii "/").isSuffixOf r.path || (ascii "/index.html").isSuffixOf r.path then
    (cache, .html (sendHTMLDataIndex (some dir) files))
  else if (ascii "/index.tsv").isSuffixOf r.path then
    let (cache', reply) := sendTSVDataIndex md5 (some dir) dirTime files cache r.urlPrefix
    (cache', .tsv reply)
  else if !isJson r.path then (cache, .filtered)
  else (cache, .file (serveFile dir files (r.path.drop (r.uiPath ++ ascii "data").length)))

/-! ### The directory over time -/

/-- The data directory, its modification time, the cache, and the index that was served last. -/
structure Machine where
  files : Files
  dirTime : Nat
  cache : TsvCache
  served : Option TsvReply

namespace Machine

/-- What happens to the data directory. `elapsed` is the time that goes by. -/
inductive Action where
  | save (name json : Bytes) (elapsed : Nat)
  | create (name : FileName) (content : Bytes) (elapsed : Nat)
  | request (urlPrefix : Bytes)

/-- A new entry changes the time of its directory. -/
def touch (dir : FilePath) (m : Machine) (path : FilePath) (elapsed : Nat) : Nat :=
  if (m.files.read path).isNone ∧ path.dropLast = dir then m.dirTime + elapsed + 1 else m.dirTime

/-- One action, with all writes succeeding. -/
def step (md5 : Bytes → Digest) (dir : FilePath) (m : Machine) : Action → Machine
  | .save name json elapsed =>
    { m with
      files := (saveJSON (some dir) m.files .done name json).1
      dirTime := m.touch dir (dir.join (name ++ jsonExt)) elapsed
      served := none }
  | .create name content elapsed =>
    -- A sync skips what is not a result and what is there.
    if isJson name.bytes ∧ (m.files.read (dir ++ [name])).isNone then
      { m with
        files := m.files.write (dir ++ [name]) content
        dirTime := m.touch dir (dir ++ [name]) elapsed
        served := none }
    else { m with served := none }
  | .request urlPrefix =>
    let (cache, reply) :=
      sendTSVDataIndex md5 (some dir) (some m.dirTime) m.files m.cache urlPrefix
    { m with cache := cache, served := reply }

end Machine

end IstioVendor.Ui
