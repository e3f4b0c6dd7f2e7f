import IstioVendor.Fhttp.HttpUtils

/-!
# `IstioVendor.Fhttp.HttpClient`: the fast client of `fhttp/http_client.go`

`FastClient.readResponse` is one loop. A pass of the loop reads once from the connection
(`readMore`), looks for the end of the headers (`parseHeaders`, with `scanHeaders` and
`frameBody`), and compares the number of bytes with the number it waits for (`checkMax`).
`pass` is the three in sequence. `continue`, `break`, `return` and a run-time panic of the
source are the values of `Exit`, which the three steps throw.

Every slice expression of the source is a call of `slice`, which panics outside
`0 ≤ low ≤ high ≤ len`. A slice that is only an argument of a log call is evaluated where
Go evaluates it: always, or under the test of the log level around it.

The connection is the peer seen from `Read`. `pending` is what the peer sends, cut into the
pieces in which the network delivers them. A `Read` hands out the next piece, or as much of
it as fits into the slice. When the pieces are used up, `ending` says what a `Read` does.
`delivered` is the record of the reads, for the statements about them.

Left out: the address fields of the client, which only `connect` passes on, and the texts of
the log lines.
-/

set_option autoImplicit false

namespace IstioVendor.Fhttp

open Lib (int64 Pass Bytes ascii)

/-! ### The connection -/

/-- The error of a failed `Read`. -/
inductive ReadErr where
  | eof
  | other
deriving DecidableEq

/-- One TCP connection, from the side of the client. `ending` is the result of every `Read`
after the last piece, and `none` stands for a peer that stays silent when no deadline is
set. -/
structure Conn where
  delivered : List Bytes
  pending : List Bytes
  ending : Option ReadErr
  closed : Bool
  pending_ne : ∀ p ∈ pending, p ≠ []
deriving DecidableEq

/-- The result of a `Read` into a slice of `room` bytes. -/
inductive ReadResult (room : Nat) where
  | bytes (p : Bytes) (fits : p.length ≤ room)
  | failed (e : ReadErr)
  | silent

namespace Conn

/-- `Read` into a slice of `room` bytes. An empty slice is filled at once. -/
def read (conn : Conn) (room : Nat) : ReadResult room × Conn :=
  if room = 0 then (.bytes [] (Nat.zero_le _), conn)
  else
    match h : conn.pending with
    | [] =>
      match conn.ending with
      | some e => (.failed e, conn)
      | none => (.silent, conn)
    | p :: rest =>
      -- A piece that does not fit is handed out in part, and its rest stays the next piece.
      if hp : p.length ≤ room then
        (.bytes p hp,
          { conn with
              delivered := conn.delivered ++ [p]
              pending := rest
              pending_ne := fun q hq => conn.pending_ne q (by simp [h, hq]) })
      else
        (.bytes (p.take room) (by simp),
          { conn with
              delivered := conn.delivered ++ [p.take room]
              pending := p.drop room :: rest
              pending_ne := fun q hq => by
                rcases List.mem_cons.mp hq with rfl | hq
                · intro hnil
                  have hlen := List.drop_eq_nil_iff.mp hnil
                  omega
                · exact conn.pending_ne q (by simp [h, hq]) })

/-- `Close`. -/
def close (conn : Conn) : Conn := { conn with closed := true }

end Conn

/-! ### The client -/

/-- `FastClient`. The buffer is filled up to `size`, and its length is a Go `int`. -/
structure FastClient where
  buffer : Bytes
  req : Bytes
  socket : Option Conn
  socketCount : Nat
  size : Nat
  code : Int
  errorCount : Nat
  headerLen : Nat
  keepAlive : Bool
  parseHeaders : Bool
  halfClose : Bool
  size_le : size ≤ buffer.length
  length_lt : buffer.length < 2 ^ 63
deriving DecidableEq

namespace FastClient

/-- The free bytes at the end of the buffer, `len(c.buffer[c.size:])`. -/
def room (c : FastClient) : Nat := c.buffer.length - c.size

/-- The filled part of the buffer, `c.buffer[:c.size]`. -/
def data (c : FastClient) : Bytes := c.buffer.take c.size

/-- The client after `p` was read into the free part of its buffer. -/
def append (c : FastClient) (p : Bytes) (fits : p.length ≤ c.room) : FastClient :=
  { c with
      buffer := c.buffer.take c.size ++ p ++ c.buffer.drop (c.size + p.length)
      size := c.size + p.length
      size_le := by
        have := c.size_le
        simp only [List.length_append, List.length_take, List.length_drop]
        omega
      length_lt := by
        have h1 := c.size_le
        have h2 := c.length_lt
        unfold room at fits
        simp only [List.length_append, List.length_take, List.length_drop]
        omega }

end FastClient

/-- The package variables that the client reads: `CheckConnectionClosedHeader` and the two
log levels that decide whether an argument of a log call is evaluated. -/
structure Settings where
  checkConnectionClosedHeader : Bool
  logDebug : Bool
  logVerbose : Bool

/-- `SocketError`. -/
def socketError : Int := -1

/-- `RetryOnce`. -/
def retryOnce : Int := -2

/-- `http.StatusOK`. -/
def statusOK : Int := 200

/-- `len("HTTP/1.X ")`. -/
def retcodeOffset : Nat := 9

def contentLengthHeader : Bytes := ascii "\r\ncontent-length:"

def connectionCloseHeader : Bytes := ascii "\r\nconnection: close"

def chunkedHeader : Bytes := ascii "\r\nTransfer-Encoding: chunked"

/-! ### The reading loop -/

/-- The variables of the loop in `readResponse`. -/
structure Reading where
  c : FastClient
  conn : Conn
  max : Int
  parsedHeaders : Bool
  endofHeadersStart : Nat
  keepAlive : Bool
  chunkedMode : Bool
  skipRead : Bool

/-- The ways out of one pass before its end. `blocked` is a `Read` that never returns. -/
inductive Exit where
  | panic
  | blocked
  | ret (st : Reading)
  | brk (st : Reading)
  | cont (st : Reading)

/-- What `readResponse` comes to, if it comes to an end. -/
inductive Outcome where
  | panic
  | blocked
  | returned (c : FastClient) (conn : Conn)
deriving DecidableEq

/-- The slice expression `b[lo:hi]`. -/
def slice (b : Bytes) (lo hi : Int) : Except Exit Bytes :=
  if 0 ≤ lo ∧ lo ≤ hi ∧ hi ≤ b.length then
    .ok ((b.take hi.toNat).drop lo.toNat)
  else .error .panic

/-- The slice as a log argument, when `cond` says that it is evaluated. -/
def logSlice (cond : Bool) (b : Bytes) (lo hi : Int) : Except Exit Unit :=
  if cond then (slice b lo hi).map fun _ => () else .ok ()

/-- The error branch of the read. A reused socket may be dead once: closed by the server
while it was idle. -/
def readFailed (reusedSocket : Bool) (e : ReadErr) (st : Reading) : Exit :=
  if reusedSocket ∧ st.c.size = 0 then
    .ret { st with
      c := { st.c with errorCount := st.c.errorCount + 1, code := retryOnce }
      conn := st.conn.close }
  -- The end of the stream after some bytes may be a normal end. The code stays as it is.
  else if e = .eof ∧ st.c.size ≠ 0 then .brk st
  else .brk { st with c := { st.c with code := socketError } }

/-- The read at the top of the loop, unless `skipRead` is set. -/
def readMore (g : Settings) (reusedSocket : Bool) (st : Reading) : Except Exit Reading :=
  -- The next chunk is in the buffer already, which happens when a read brings several.
  if st.skipRead then .ok { st with skipRead := false }
  else do
    let _ ← slice st.c.buffer st.c.size st.c.buffer.length
    match st.conn.read st.c.room with
    | (.silent, _) => .error .blocked
    | (.failed e, conn) => .error (readFailed reusedSocket e { st with conn := conn })
    | (.bytes p fits, conn) => do
        let st' := { st with c := st.c.append p fits, conn := conn }
        logSlice g.logDebug st'.c.buffer (st'.c.size - p.length) st'.c.size
        .ok st'

/-- The inner loop of the header scan, from the position `idx` with the last line end found
at `headerLen`. It returns whether the end of the headers was found, the last line end, and
the position it stopped at. -/
def scanHeaders (buffer : Bytes) (size : Nat) : Nat → Nat → Nat → Bool × Nat × Nat
  | 0, idx, headerLen => (false, headerLen, idx)
  | fuel + 1, idx, headerLen =>
    if idx + 1 < size then
      if buffer.getD idx 0 = 13 ∧ buffer.getD (idx + 1) 0 = 10 then
        -- Two line ends in a row. `headerLen` is the position of the first one.
        if headerLen + 2 = idx then (true, headerLen, idx)
        else scanHeaders buffer size fuel (idx + 2) idx
      -- The last byte is never looked at alone. When it is the first half of a line end, the next
      -- scan starts behind it and does not see that line end.
      else scanHeaders buffer size fuel (idx + 1) headerLen
    else (false, headerLen, idx)

/-- The end of the content-length section: clamp `max` to the buffer, and give up the
connection when the server closes it and the client looks for that. -/
def limitMax (g : Settings) (st : Reading) : Except Exit Reading :=
  -- Only the upper end is clamped. A `max` that wrapped below zero passes here.
  let st' := if (st.c.buffer.length : Int) < st.max
    then { st with max := st.c.buffer.length } else st
  if g.checkConnectionClosedHeader then do
    let headers ← slice st'.c.buffer 0 st'.c.headerLen
    if (foldFind headers connectionCloseHeader).isSome then
      .ok { st' with keepAlive := false, max := st'.c.buffer.length }
    else .ok st'
  else .ok st'

/-- The content-length section: find the content length or the first chunk, and set
`max`. -/
def frameBody (g : Settings) (st : Reading) : Except Exit Reading := do
  let headers ← slice st.c.buffer 0 st.c.headerLen
  match foldFind headers contentLengthHeader with
  | some offset =>
    let number ← slice st.c.buffer (offset + contentLengthHeader.length) st.c.headerLen
    let contentLength := parseDecimal number
    -- The source leaves the loop here with the code 200 that it has parsed.
    if contentLength < 0 then
      logSlice true st.c.buffer (offset + 2) (offset + contentLengthHeader.length + 4)
      .error (.brk { st with keepAlive := false })
    else limitMax g { st with max := int64 (st.c.headerLen + contentLength) }
  | none =>
    if (foldFind headers chunkedHeader).isSome then
      let body ← slice st.c.buffer st.c.headerLen st.c.size
      let dataStart := (parseChunkSize body).1
      let contentLength := (parseChunkSize body).2
      if contentLength = -1 then
        -- The chunk length is not available yet.
        .error (.cont { st with chunkedMode := true, max := st.c.headerLen })
      else
        -- The two bytes behind the data of a chunk are its line end.
        logSlice true st.c.buffer st.c.headerLen (st.c.headerLen + dataStart - 2)
        limitMax g { st with
          chunkedMode := true
          max := int64 (st.c.headerLen + dataStart + contentLength + 2) }
    else
      logSlice g.logVerbose st.c.buffer 0 st.c.headerLen
      .error (.brk { st with keepAlive := false })

/-- The header part of a pass: the status code, the scan for the end of the headers, and the
content-length section once the end is found. -/
def parseHeaders (g : Settings) (st : Reading) : Except Exit Reading :=
  if !st.parsedHeaders && st.c.parseHeaders && decide (retcodeOffset + 3 ≤ st.c.size) then do
    -- The code is parsed again in every pass until the headers are complete.
    let digits ← slice st.c.buffer retcodeOffset (retcodeOffset + 3)
    let st1 := { st with c := { st.c with code := parseDecimal digits } }
    if st1.c.code ≠ statusOK then
      logSlice true st.c.buffer 0 (retcodeOffset + 3)
      .error (.brk st1)
    else
      let scan := scanHeaders st.c.buffer st.c.size st.c.size st.endofHeadersStart st.c.headerLen
      if scan.1 then
        let st2 := { st1 with
          c := { st1.c with headerLen := scan.2.1 + 4 }
          -- The next scan starts at the end of what is there now, not at the last line end.
          endofHeadersStart := st.c.size
          parsedHeaders := true }
        logSlice g.logDebug st.c.buffer 0 scan.2.2
        if st.keepAlive then frameBody g st2 else .ok st2
      else
        .ok { st1 with
          c := { st1.c with headerLen := scan.2.1 }
          endofHeadersStart := st.c.size }
  else .ok st

/-- The look at the next chunk, with `c.size >= max`. -/
def nextChunk (st : Reading) : Except Exit Reading := do
  let rest ← slice st.c.buffer st.max st.c.size
  let dataStart := (parseChunkSize rest).1
  let nextChunkLen := (parseChunkSize rest).2
  if nextChunkLen = -1 then
    -- Without a complete size line the loop reads on, also when the buffer is full.
    logSlice (decide ((st.c.size : Int) ≠ st.max)) st.c.buffer st.max st.c.size
    .error (.cont st)
  else if nextChunkLen = 0 then
    -- The last chunk. A mismatch at the end is an error in the log, and nothing else.
    let mismatch ←
      if (st.c.size : Int) ≠ int64 (st.max + dataStart + 2) then .ok true
      else (slice st.c.buffer (st.c.size - 2) st.c.size).map fun tail => tail != [13, 10]
    logSlice mismatch st.c.buffer st.max st.c.size
    .error (.brk st)
  else
    let max := int64 (st.max + dataStart + nextChunkLen + 2)
    -- A chunk that does not fit ends the loop, with the connection as it is.
    if (st.c.buffer.length : Int) < max then .error (.brk { st with max := max })
    else .error (.cont { st with max := max, skipRead := decide (max ≤ (st.c.size : Int)) })

/-- The end of a pass: stop, or look for the next chunk, when enough bytes are there. -/
def checkMax (st : Reading) : Except Exit Reading :=
  if st.max ≤ (st.c.size : Int) then
    -- A full buffer before the end of the headers.
    let st' := if !st.parsedHeaders && st.c.parseHeaders
      then { st with keepAlive := false } else st
    if st'.chunkedMode then nextChunk st' else .error (.brk st')
  else .ok st

/-- The code after the loop: keep the socket or close it. -/
def keepOrClose (st : Reading) : Outcome :=
  if st.keepAlive ∧ st.c.code = statusOK then
    .returned { st.c with socket := some st.conn } st.conn
  else .returned st.c st.conn.close

/-- How the steps of a pass end it. -/
def endPass : Except Exit Reading → Pass Reading Outcome
  | .ok st => .again st
  | .error (.cont st) => .again st
  | .error (.brk st) => .leave (keepOrClose st)
  | .error (.ret st) => .leave (.returned st.c st.conn)
  | .error .panic => .leave .panic
  | .error .blocked => .leave .blocked

/-- One pass of the loop. -/
def pass (g : Settings) (reusedSocket : Bool) (st : Reading) : Pass Reading Outcome :=
  endPass do checkMax (← parseHeaders g (← readMore g reusedSocket st))

/-- The loop variables at the start of `readResponse`. -/
def startReading (c : FastClient) (conn : Conn) : Reading where
  c := { c with code := statusOK }
  conn := conn
  max := c.buffer.length
  parsedHeaders := false
  endofHeadersStart := retcodeOffset + 3
  keepAlive := c.keepAlive
  chunkedMode := false
  skipRead := false

/-- `readResponse`, for at most `passes` passes of its loop. -/
def FastClient.readResponse (g : Settings) (passes : Nat) (c : FastClient) (conn : Conn)
    (reusedSocket : Bool) : Option Outcome :=
  Lib.Loop.run (pass g reusedSocket) passes (startReading c conn)

/-- `readResponse` ends in `out`. -/
def Responds (g : Settings) (c : FastClient) (conn : Conn) (reusedSocket : Bool)
    (out : Outcome) : Prop :=
  Lib.Loop.Leaves (pass g reusedSocket) (startReading c conn) out

/-! ### `Fetch` -/

/-- What the network does in one call of `Fetch`, the recursive call apart. `arrival` is
what the server answers to the request, in the pieces of its delivery. -/
structure Attempt where
  dialOk : Bool
  deadlineOk : Bool
  writeOk : Bool
  written : Nat
  closeWriteOk : Bool
  arrival : List Bytes
  ending : Option ReadErr
  arrival_ne : ∀ p ∈ arrival, p ≠ []

/-- A connection as `DialTCP` returns it. -/
def Conn.dialed : Conn where
  delivered := []
  pending := []
  ending := none
  closed := false
  pending_ne := by simp

/-- The connection after a request was written on it: the answer is on its way behind what
was left unread. The record of the reads starts anew. -/
def Conn.requested (conn : Conn) (a : Attempt) : Conn where
  delivered := []
  pending := conn.pending ++ a.arrival
  ending := a.ending
  closed := conn.closed
  pending_ne := fun p hp => by
    rcases List.mem_append.mp hp with hp | hp
    · exact conn.pending_ne p hp
    · exact a.arrival_ne p hp

/-- What a call of `Fetch` comes to. `used` are the connections the call had in hand, in the
state in which it left them. -/
inductive FetchOutcome where
  | panic
  | blocked
  | returned (c : FastClient) (used : List Conn)
deriving DecidableEq

namespace FastClient

/-- The client with nothing in its buffer. The bytes of the last use stay behind. -/
def reset (c : FastClient) : FastClient :=
  { c with code := socketError, size := 0, headerLen := 0, size_le := Nat.zero_le _ }

/-- `connect`. -/
def connect (c : FastClient) (a : Attempt) : FastClient × Option Conn :=
  ({ c with socketCount := c.socketCount + 1 }, if a.dialOk then some .dialed else none)

/-- The head of `Fetch`: connect, or reuse the socket of the last call. -/
def acquire (c : FastClient) (a : Attempt) : FastClient × Option Conn :=
  match c.socket with
  | some conn => (c.reset, some conn)
  | none => c.reset.connect a

/-- `Fetch`, with at most `depth` nested calls and at most `passes` passes of the reading
loop in each. The call number `k` meets the network `net k`. -/
def fetch (g : Settings) (net : Nat → Attempt) (passes : Nat) :
    Nat → Nat → FastClient → List Conn → Option FetchOutcome
  | 0, _, _, _ => none
  | depth + 1, k, c, used =>
    let reuse := c.socket.isSome
    match c.acquire (net k) with
    | (c1, none) => some (.returned c1 used)
    | (c1, some conn) =>
      -- The socket is taken out of the client for the time of the call. Only
      -- `readResponse` puts it back.
      let c2 := { c1 with socket := none }
      if !(net k).writeOk || !(net k).deadlineOk then
        -- A reused socket may be dead. The call is made again, and it dials.
        if reuse then
          fetch g net passes depth (k + 1) { c2 with errorCount := c2.errorCount + 1 }
            (used ++ [conn.close])
        else some (.returned c2 (used ++ [conn]))
      else if (net k).written ≠ c2.req.length then some (.returned c2 (used ++ [conn]))
      else if !c2.keepAlive && c2.halfClose && !(net k).closeWriteOk then
        some (.returned c2 (used ++ [conn]))
      else
        match c2.readResponse g passes (conn.requested (net k)) reuse with
        | none => none
        | some .panic => some .panic
        | some .blocked => some .blocked
        | some (.returned c3 conn') =>
          -- `readResponse` found the reused socket dead at its first read.
          if c3.code = retryOnce then
            fetch g net passes depth (k + 1) c3 (used ++ [conn'])
          else some (.returned c3 (used ++ [conn']))

/-- `Close`: the client, and the connection that it closes. The result is the `socketCount`. -/
def close (c : FastClient) : FastClient × List Conn :=
  ({ c with socket := none }, (c.socket.map Conn.close).toList)

end FastClient

/-! ### Calls on one client -/

/-- A client in use. `conns` are all the connections that `connect` has returned, as they are now.
The one in `c.socket` is the last of them. -/
structure Session where
  c : FastClient
  conns : List Conn

/-- A call on the client, with what the network does in a `Fetch`. -/
inductive Call where
  | fetch (net : Nat → Attempt) (passes depth : Nat)
  | close

namespace Session

/-- The connections that are not in the client. -/
def others (s : Session) : List Conn :=
  if s.c.socket.isSome then s.conns.dropLast else s.conns

/-- A call that returns. The connections it had in hand follow the others. -/
def step (g : Settings) (s : Session) : Call → Option Session
  | .fetch net passes depth =>
    match s.c.fetch g net passes depth 0 [] with
    | some (.returned c used) => some ⟨c, s.others ++ used⟩
    | _ => none
  | .close => some ⟨s.c.close.1, s.others ++ s.c.close.2⟩

end Session

end IstioVendor.Fhttp
