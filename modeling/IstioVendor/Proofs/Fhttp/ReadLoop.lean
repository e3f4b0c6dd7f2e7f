import IstioVendor.Proofs.Fhttp.PassSteps

/-!
# `IstioVendor.Proofs.Fhttp.ReadLoop`: what `readResponse` comes to

`Inv` is the invariant of the loop: the bytes received are a part of the stream that ends
where a read ends, and the loop is in one of four phases (`Phase`): it looks for the end of
the headers, it reads on without keep-alive, it waits for a number of bytes, or it walks
along the chunks.

`pass_cases` says once what a pass does from a state with `Inv`. It goes round again with
`Inv`, and then it has read some bytes, or has gone on to the next chunk, or it has done
nothing at all because the buffer is full (`Progress`). Or it leaves the loop, and then the
result is one of those that `Ended` lists.

`responds_ended` is the run lemma: everything that `readResponse` can come to is in `Ended`.
`Ended` speaks of the stream, the ends of the reads and the size of the buffer, and not of
the loop.
-/

set_option autoImplicit false

namespace IstioVendor.Fhttp

open Lib

/-! ### The headers and the framing of a stream -/

/-- The client takes the first `headerLen` bytes for the headers, and it has them after the
read that ends at `read`. The status code is `200`, and `f` is the framing that it reads from
the bytes it has then. -/
structure Headed (g : Settings) (pieces : List Bytes) (len headerLen read : Nat)
    (f : Framing) : Prop where
  headerEnd : HeaderEnd pieces headerLen
  readEnd : ReadEnd pieces len read
  le : headerLen ≤ read
  first : ∀ s, ReadEnd pieces len s → headerLen ≤ s → read ≤ s
  status : statusCode pieces.flatten = statusOK
  framed : framing g len (pieces.flatten.take read) headerLen = f

theorem headed_iff (g : Settings) (pieces : List Bytes) (len headerLen read : Nat)
    (f : Framing) :
    Headed g pieces len headerLen read f ↔
      HeaderEnd pieces headerLen ∧ ReadEnd pieces len read ∧ headerLen ≤ read ∧
      (∀ s < read, headerLen ≤ s → ¬ ReadEnd pieces len s) ∧
      statusCode pieces.flatten = statusOK ∧
      framing g len (pieces.flatten.take read) headerLen = f := by
  constructor
  · rintro ⟨h1, h2, h3, h4, h5, h6⟩
    exact ⟨h1, h2, h3, fun s hlt hle hs => Nat.not_le.mpr hlt (h4 s hs hle), h5, h6⟩
  · rintro ⟨h1, h2, h3, h4, h5, h6⟩
    exact ⟨h1, h2, h3, fun s hs hle => Nat.not_lt.mp fun hlt => h4 s hlt hle hs, h5, h6⟩

instance (g : Settings) (pieces : List Bytes) (len headerLen read : Nat) (f : Framing) :
    Decidable (Headed g pieces len headerLen read f) :=
  decidable_of_iff _ (headed_iff g pieces len headerLen read f).symm

variable {f : Framing} {len r hl : Nat} {pieces : List Bytes} {moved : Reading → Prop}

/-- The headers end in one place, with one framing. -/
theorem Headed.unique {g : Settings} {h h' r' : Nat} {f' : Framing}
    (a : Headed g pieces len h r f) (b : Headed g pieces len h' r' f') :
    h = h' ∧ r = r' ∧ f = f' := by
  obtain rfl := a.headerEnd.unique b.headerEnd
  have hr : r = r' := Nat.le_antisymm (a.first r' b.readEnd b.le) (b.first r a.readEnd a.le)
  subst hr
  exact ⟨rfl, rfl, a.framed.symm.trans b.framed⟩

/-- Whether a framing keeps the connection. -/
def Framing.keep : Framing → Bool
  | .unframed => false
  | .length keep _ => keep
  | .chunks keep _ => keep

/-- The response is complete for the client, as soon as it has received `data`. -/
def Framing.Done (len : Nat) (data : Bytes) : Framing → Prop
  | .unframed => True
  | .length _ max => max ≤ data.length
  | .chunks _ start => ChunkStop data len start

/-- The client waits for more than `data`. -/
def Framing.Waits (len : Nat) (data : Bytes) : Framing → Prop
  | .unframed => False
  | .length _ max => (data.length : Int) < max
  | .chunks _ start => ∃ m, ChunkWalk data len start m ∧ ChunkWaitAt data m

theorem Framing.Waits.not_done {data : Bytes} (h : f.Waits len data) : ¬ f.Done len data := by
  cases f with
  | unframed => exact h.elim
  | length keep max =>
    simp only [Framing.Waits, Framing.Done] at h ⊢
    omega
  | chunks keep start =>
    obtain ⟨m, hw, hwait⟩ := h
    exact hw.not_stop_of_wait hwait

/-- What is complete stays complete when more bytes arrive. -/
theorem Framing.Done.mono {data more : Bytes} (h : f.Done len data) :
    f.Done len (data ++ more) := by
  cases f with
  | unframed => trivial
  | length keep max =>
    simp only [Framing.Done, List.length_append] at h ⊢
    omega
  | chunks keep start => exact ChunkStop.mono h

theorem Framing.Done.mono_take {m n : Nat} {stream : Bytes} (hmn : m ≤ n)
    (h : f.Done len (stream.take m)) : f.Done len (stream.take n) := by
  rw [take_eq_take_append stream hmn]
  exact h.mono

/-! ### The results -/

/-- The client waits for more when it has received the whole stream: in the headers, in a
response without keep-alive, or in the body. `keep` says whether it would keep the
connection. -/
inductive Waiting (g : Settings) (c : FastClient) (pieces : List Bytes) : Bool → Prop where
  -- The end of the headers has not arrived, or the client does not look for it.
  | headers (status : c.parseHeaders = true → retcodeOffset + 3 ≤ pieces.flatten.length →
        statusCode pieces.flatten = statusOK)
      (none : c.parseHeaders = true → ∀ h, ¬ HeaderEnd pieces h) : Waiting g c pieces c.keepAlive
  | close (h : Nat) (parse : c.parseHeaders = true) (keepAlive : c.keepAlive = false)
      (headerEnd : HeaderEnd pieces h) (status : statusCode pieces.flatten = statusOK) :
      Waiting g c pieces false
  | body (h r : Nat) (f : Framing) (parse : c.parseHeaders = true)
      (keepAlive : c.keepAlive = true) (headed : Headed g pieces c.buffer.length h r f)
      (waits : f.Waits c.buffer.length pieces.flatten) : Waiting g c pieces f.keep

/-- Why `readResponse` returns: after the read that ends at `s`, with a code, and with the
decision to keep the connection or not. -/
inductive Reason (g : Settings) (reused : Bool) (c : FastClient) (conn : Conn) :
    Nat → Int → Bool → Prop where
  -- A reused connection that ends before the first byte. `Fetch` then tries a new one.
  | retry (e : ReadErr) (reuse : reused = true) (ending : conn.ending = some e)
      (nothing : conn.pending.flatten = []) : Reason g reused c conn 0 retryOnce false
  | failed (e : ReadErr) (keep : Bool) (ending : conn.ending = some e)
      (bad : e = .other ∨ conn.pending.flatten = [])
      (room : conn.pending.flatten.length < c.buffer.length)
      (waiting : Waiting g c conn.pending keep) :
      Reason g reused c conn conn.pending.flatten.length socketError false
  -- The end of the stream after some bytes ends the loop without an error, wherever it is.
  | eof (keep : Bool) (ending : conn.ending = some .eof) (some : conn.pending.flatten ≠ [])
      (room : conn.pending.flatten.length < c.buffer.length)
      (waiting : Waiting g c conn.pending keep) :
      Reason g reused c conn conn.pending.flatten.length statusOK keep
  | status (s : Nat) (parse : c.parseHeaders = true) (arrived : retcodeOffset + 3 ≤ s)
      (bad : statusCode conn.pending.flatten ≠ statusOK) :
      Reason g reused c conn s (statusCode conn.pending.flatten) false
  -- The buffer is full and the end of the headers is not in it.
  | full (none : c.parseHeaders = true → ∀ h, HeaderEnd conn.pending h → c.buffer.length < h)
      (status : c.parseHeaders = true → retcodeOffset + 3 ≤ c.buffer.length →
        statusCode conn.pending.flatten = statusOK) :
      Reason g reused c conn c.buffer.length statusOK (c.keepAlive && !c.parseHeaders)
  | close (h : Nat) (parse : c.parseHeaders = true) (keepAlive : c.keepAlive = false)
      (headerEnd : HeaderEnd conn.pending h)
      (status : statusCode conn.pending.flatten = statusOK) :
      Reason g reused c conn c.buffer.length statusOK false
  | done (h r s : Nat) (f : Framing) (parse : c.parseHeaders = true)
      (keepAlive : c.keepAlive = true) (headed : Headed g conn.pending c.buffer.length h r f)
      (le : r ≤ s) (now : f.Done c.buffer.length (conn.pending.flatten.take s))
      (before : ∀ s', ReadEnd conn.pending c.buffer.length s' → r ≤ s' → s' < s →
        ¬ f.Done c.buffer.length (conn.pending.flatten.take s')) :
      Reason g reused c conn s statusOK f.keep

/-- Two clients of the same configuration. -/
structure SameSetup (c c' : FastClient) : Prop where
  length : c'.buffer.length = c.buffer.length
  req : c'.req = c.req
  socketCount : c'.socketCount = c.socketCount
  keepAlive : c'.keepAlive = c.keepAlive
  parseHeaders : c'.parseHeaders = c.parseHeaders
  halfClose : c'.halfClose = c.halfClose

theorem SameSetup.of_eq {c c' c'' : FastClient} (h : SameSetup c c')
    (length : c''.buffer.length = c'.buffer.length) (req : c''.req = c'.req)
    (socketCount : c''.socketCount = c'.socketCount) (keepAlive : c''.keepAlive = c'.keepAlive)
    (parseHeaders : c''.parseHeaders = c'.parseHeaders) (halfClose : c''.halfClose = c'.halfClose) :
    SameSetup c c'' where
  length := length.trans h.length
  req := req.trans h.req
  socketCount := socketCount.trans h.socketCount
  keepAlive := keepAlive.trans h.keepAlive
  parseHeaders := parseHeaders.trans h.parseHeaders
  halfClose := halfClose.trans h.halfClose

/-- The client and the connection that `readResponse` returns, when it started from `c₀` and
`conn₀` and the last read ended at `s`. -/
structure Final (c₀ : FastClient) (conn₀ : Conn) (s : Nat) (code : Int) (keep : Bool)
    (c : FastClient) (conn : Conn) : Prop where
  setup : SameSetup c₀ c
  code : c.code = code
  size : c.size = s
  data : c.data = conn₀.pending.flatten.take s
  readEnd : ReadEnd conn₀.pending c₀.buffer.length s
  delivered : conn.delivered.flatten = conn₀.pending.flatten.take s
  pending : conn.pending.flatten = conn₀.pending.flatten.drop s
  headerLen : c₀.parseHeaders = true → statusCode conn₀.pending.flatten = statusOK →
    ∀ h, HeaderEnd conn₀.pending h → h ≤ s → c.headerLen = h
  socket : c.socket = if keep then some conn else c₀.socket
  closed : conn.closed = if keep then conn₀.closed else true

/-- What `readResponse` can come to. -/
inductive Ended (g : Settings) (reused : Bool) (c₀ : FastClient) (conn₀ : Conn) :
    Outcome → Prop where
  | panic (h r : Nat) (keep : Bool) (start m : Int) (parse : c₀.parseHeaders = true)
      (keepAlive : c₀.keepAlive = true)
      (headed : Headed g conn₀.pending c₀.buffer.length h r (.chunks keep start))
      (walk : ChunkWalk (conn₀.pending.flatten.take c₀.buffer.length) c₀.buffer.length start m)
      (neg : m < 0) : Ended g reused c₀ conn₀ .panic
  | blocked (keep : Bool) (ending : conn₀.ending = none)
      (room : conn₀.pending.flatten.length < c₀.buffer.length)
      (waiting : Waiting g c₀ conn₀.pending keep) : Ended g reused c₀ conn₀ .blocked
  | returned (s : Nat) (code : Int) (keep : Bool) (c : FastClient) (conn : Conn)
      (reason : Reason g reused c₀ conn₀ s code keep)
      (final : Final c₀ conn₀ s code keep c conn) :
      Ended g reused c₀ conn₀ (.returned c conn)

/-! ### The invariant -/

/-- What every state of the loop has in common: the configuration, and the bytes received. -/
structure Base (c₀ : FastClient) (conn₀ : Conn) (st : Reading) : Prop where
  setup : SameSetup c₀ st.c
  socket : st.c.socket = c₀.socket
  received : Received conn₀.pending c₀.buffer.length st.conn st.c.data
  ending : st.conn.ending = conn₀.ending
  closed : st.conn.closed = conn₀.closed

/-- The header scan between two passes: it goes on at the end of the data, and not before
the end of the status code. -/
structure Scanning (pieces : List Bytes) (st : Reading) : Prop where
  start : st.endofHeadersStart = max (retcodeOffset + 3) st.c.size
  scanned : Scanned pieces st.endofHeadersStart st.c.headerLen
  status : retcodeOffset + 3 ≤ st.c.size → statusCode pieces.flatten = statusOK

/-- The variables of the loop before the headers are found. -/
structure Unparsed (st : Reading) : Prop where
  parsed : st.parsedHeaders = false
  chunked : st.chunkedMode = false
  skip : st.skipRead = false
  max : st.max = st.c.buffer.length
  keepAlive : st.keepAlive = st.c.keepAlive

/-- The client looks for the end of the headers, or does not look at them at all. -/
structure Looking (pieces : List Bytes) (st : Reading) : Prop extends Unparsed st where
  code : st.c.code = statusOK
  -- A client without a buffer has no room even before the first read.
  room : st.c.size = 0 ∨ st.c.size < st.c.buffer.length
  scanning : st.c.parseHeaders = true → Scanning pieces st

/-- The client has the headers, and it reads the body in the phase that `f` says. -/
structure Body (g : Settings) (pieces : List Bytes) (st : Reading) (r : Nat) (f : Framing) :
    Prop where
  parse : st.c.parseHeaders = true
  client : st.c.keepAlive = true
  parsed : st.parsedHeaders = true
  code : st.c.code = statusOK
  keepAlive : st.keepAlive = f.keep
  headed : Headed g pieces st.c.buffer.length st.c.headerLen r f
  le : r ≤ st.c.size

/-- The client has the headers of a connection that is not kept alive, and reads on. -/
structure Closing (pieces : List Bytes) (st : Reading) : Prop where
  parse : st.c.parseHeaders = true
  client : st.c.keepAlive = false
  parsed : st.parsedHeaders = true
  chunked : st.chunkedMode = false
  skip : st.skipRead = false
  code : st.c.code = statusOK
  max : st.max = st.c.buffer.length
  keepAlive : st.keepAlive = false
  headerEnd : HeaderEnd pieces st.c.headerLen
  status : statusCode pieces.flatten = statusOK

/-- The client walks along the chunks and stands at `max`. Either it looks at that chunk in
the next pass without a read, and no earlier read has ended the response, or it waits. -/
structure Walking (pieces : List Bytes) (st : Reading) (r : Nat) (start : Int) : Prop where
  chunked : st.chunkedMode = true
  walk : ChunkWalk st.c.data st.c.buffer.length start st.max
  before : ∀ s, ReadEnd pieces st.c.buffer.length s → r ≤ s → s < st.c.size →
    ¬ ChunkStop (pieces.flatten.take s) st.c.buffer.length start
  next : st.skipRead = true ∧ st.max ≤ (st.c.size : Int) ∨
    st.skipRead = false ∧ ChunkWaitAt st.c.data st.max

/-- The four phases of the loop. -/
inductive Phase (g : Settings) (pieces : List Bytes) (st : Reading) : Prop where
  | looking (h : Looking pieces st)
  | closing (h : Closing pieces st) (room : st.c.size < st.c.buffer.length)
  | length (r : Nat) (keep : Bool) (max : Int) (h : Body g pieces st r (.length keep max))
      (chunked : st.chunkedMode = false) (skip : st.skipRead = false) (eq : st.max = max)
      (lt : (st.c.size : Int) < max)
  | chunks (r : Nat) (keep : Bool) (start : Int) (h : Body g pieces st r (.chunks keep start))
      (walking : Walking pieces st r start)

/-- The invariant of the loop. -/
structure Inv (g : Settings) (c₀ : FastClient) (conn₀ : Conn) (st : Reading) : Prop where
  base : Base c₀ conn₀ st
  phase : Phase g conn₀.pending st

/-- What a pass that goes round again has done: it has read some bytes, or it has looked at
the next chunk without a read, or it has done nothing, in front of a chunk that the full
buffer does not hold. -/
inductive Progress (st st' : Reading) : Prop where
  | read (h : st'.conn.pending.flatten.length < st.conn.pending.flatten.length)
  | look (conn : st'.conn = st.conn) (skip : st.skipRead = true)
      (step : st'.skipRead = true → ChunkStep st.c.data st.c.buffer.length st.max st'.max)
  | spin (full : st.c.size = st.c.buffer.length) (chunked : st.chunkedMode = true)
      (skip : st.skipRead = false)

section
variable {g : Settings} {reused : Bool} {c₀ : FastClient} {conn₀ : Conn} {st st' : Reading}

section
variable (h : Base c₀ conn₀ st)
include h

theorem Base.length : st.c.buffer.length = c₀.buffer.length :=
  h.setup.length

theorem Base.take : st.c.data = conn₀.pending.flatten.take st.c.size := by
  have := h.received.take
  rwa [st.c.length_data] at this

/-- What the buffer can hold of the stream begins with the data received. -/
theorem Base.extends : ∃ more, conn₀.pending.flatten.take c₀.buffer.length = st.c.data ++ more := by
  have hle : st.c.size ≤ c₀.buffer.length := st.c.size_le.trans_eq h.length
  refine ⟨(conn₀.pending.flatten.take c₀.buffer.length).drop st.c.size, ?_⟩
  rw [h.take]
  exact take_eq_take_append _ hle

theorem Base.readEnd : ReadEnd conn₀.pending c₀.buffer.length st.c.size := by
  have := h.received.readEnd
  rwa [st.c.length_data] at this

theorem Base.pending : st.conn.pending.flatten = conn₀.pending.flatten.drop st.c.size := by
  rw [← h.received.stream, ← st.c.length_data, List.drop_left]

/-- The common part is about the client and the connection only. -/
theorem Base.of_eq (hc : st'.c = st.c) (hconn : st'.conn = st.conn) : Base c₀ conn₀ st' where
  setup := hc ▸ h.setup
  socket := hc ▸ h.socket
  received := hc ▸ hconn ▸ h.received
  ending := hconn ▸ h.ending
  closed := hconn ▸ h.closed

/-- A read keeps the common part of the invariant. -/
theorem Base.grown (hg : Grown conn₀.pending c₀.buffer.length st st') : Base c₀ conn₀ st' := by
  obtain ⟨p, fits, conn, rfl, _⟩ := hg.eq
  exact {
    setup := h.setup.of_eq (st.c.length_append p fits) rfl rfl rfl rfl rfl
    socket := h.socket
    received := hg.received
    ending := hg.ending.trans h.ending
    closed := hg.closed.trans h.closed }

/-- The end of the loop: the connection is kept when the loop kept it and the code is
`200`. -/
theorem Base.final (hl : c₀.parseHeaders = true → statusCode conn₀.pending.flatten = statusOK →
      ∀ hl, HeaderEnd conn₀.pending hl → hl ≤ st.c.size → st.c.headerLen = hl) :
    ∃ c conn, keepOrClose st = .returned c conn ∧
      Final c₀ conn₀ st.c.size st.c.code (st.keepAlive && decide (st.c.code = statusOK))
        c conn := by
  have hdel := h.received.delivered
  unfold keepOrClose
  -- The test behind the loop, `keepAlive && c.code == http.StatusOK`.
  by_cases hk : st.keepAlive = true ∧ st.c.code = statusOK
  · rw [if_pos hk]
    refine ⟨_, _, rfl, ?_⟩
    rw [hk.1, decide_eq_true hk.2]
    exact ⟨h.setup.of_eq rfl rfl rfl rfl rfl rfl, rfl, rfl, h.take, h.readEnd,
      hdel.trans h.take, h.pending, hl, rfl, h.closed⟩
  · rw [if_neg hk]
    refine ⟨_, _, rfl, ?_⟩
    have hkeep : (st.keepAlive && decide (st.c.code = statusOK)) = false := by
      rw [Bool.and_eq_false_iff, decide_eq_false_iff_not, ← Bool.not_eq_true]
      exact not_and_or.mp hk
    rw [hkeep]
    exact ⟨h.setup, rfl, rfl, h.take, h.readEnd, hdel.trans h.take, h.pending, hl, h.socket, rfl⟩

theorem Ended.of_brk (hl : c₀.parseHeaders = true → statusCode conn₀.pending.flatten = statusOK →
      ∀ hl, HeaderEnd conn₀.pending hl → hl ≤ st.c.size → st.c.headerLen = hl)
    (hr : Reason g reused c₀ conn₀ st.c.size st.c.code
      (st.keepAlive && decide (st.c.code = statusOK))) :
    Ended g reused c₀ conn₀ (keepOrClose st) := by
  obtain ⟨c, conn, heq, hf⟩ := h.final hl
  rw [heq]
  exact .returned _ _ _ c conn hr hf

end

/-- While the client looks for the end of the headers, it has not received it. -/
theorem Looking.lt_headerEnd (h : Looking pieces st) (hparse : st.c.parseHeaders = true)
    (hend : HeaderEnd pieces hl) : st.c.size < hl := by
  have hs := h.scanning hparse
  refine hs.scanned.not_headerEnd ?_ hend
  rw [hs.start]
  omega

theorem Phase.code (h : Phase g pieces st) : st.c.code = statusOK := by
  cases h with
  | looking h => exact h.code
  | closing h => exact h.code
  | length _ _ _ h => exact h.code
  | chunks _ _ _ h => exact h.code

theorem Phase.headerLen (h : Phase g pieces st) (hparse : st.c.parseHeaders = true)
    (hend : HeaderEnd pieces hl) (hle : hl ≤ st.c.size) : st.c.headerLen = hl := by
  cases h with
  | looking h =>
    have := h.lt_headerEnd hparse hend
    omega
  | closing h => exact h.headerEnd.unique hend
  | length _ _ _ h => exact h.headed.headerEnd.unique hend
  | chunks _ _ _ h => exact h.headed.headerEnd.unique hend

theorem HeaderEnd.le_length (h : HeaderEnd pieces hl) : hl ≤ pieces.flatten.length := by
  obtain ⟨p, rfl, _, hcr⟩ := h.crlf
  have := hcr.lt
  omega

/-- At the end of the stream, a client that does not skip its next read waits. -/
theorem Inv.waiting (h : Inv g c₀ conn₀ st) (hskip : st.skipRead = false)
    (hnil : st.conn.pending = []) : Waiting g c₀ conn₀.pending st.keepAlive := by
  have hall : st.c.data = conn₀.pending.flatten := h.base.received.all hnil
  have hsize : st.c.size = conn₀.pending.flatten.length := by rw [← hall, st.c.length_data]
  have hset := h.base.setup
  cases h.phase with
  | looking hl =>
    rw [hl.keepAlive, hset.keepAlive]
    refine .headers (fun hparse h12 => ?_) (fun hparse hh hend => ?_)
    · rw [← hset.parseHeaders] at hparse
      exact (hl.scanning hparse).status (by omega)
    · rw [← hset.parseHeaders] at hparse
      have h1 := hl.lt_headerEnd hparse hend
      have h2 := hend.le_length
      omega
  | closing hc =>
    rw [hc.keepAlive]
    exact .close _ (hset.parseHeaders ▸ hc.parse) (hset.keepAlive ▸ hc.client) hc.headerEnd
      hc.status
  | length r keep max hb _ _ _ hlt =>
    rw [hb.keepAlive]
    refine .body _ r _ (hset.parseHeaders ▸ hb.parse) (hset.keepAlive ▸ hb.client)
      (hset.length ▸ hb.headed) ?_
    simpa only [Framing.Waits, ← hsize] using hlt
  | chunks r keep start hb hw =>
    rw [hb.keepAlive]
    refine .body _ r _ (hset.parseHeaders ▸ hb.parse) (hset.keepAlive ▸ hb.client)
      (hset.length ▸ hb.headed) ⟨st.max, ?_, ?_⟩
    · rw [← hall, ← hset.length]
      exact hw.walk
    -- A client that is about to look at a chunk would skip the read.
    · rcases hw.next with ⟨hs, _⟩ | ⟨_, hwait⟩
      · exact absurd (hs.symm.trans hskip) (by decide)
      · rwa [← hall]

/-- A failed read ends the loop. -/
theorem Inv.readFailed (reused : Bool) (h : Inv g c₀ conn₀ st)
    (hskip : st.skipRead = false) {e : ReadErr} (hlt : st.c.size < st.c.buffer.length)
    (hnil : st.conn.pending = [])
    (hend : st.conn.ending = some e) :
    ∃ out, endPass (.error (readFailed reused e st)) = .leave out ∧
      Ended g reused c₀ conn₀ out := by
  have hall : st.c.data = conn₀.pending.flatten := h.base.received.all hnil
  have hsize : st.c.size = conn₀.pending.flatten.length := by rw [← hall, st.c.length_data]
  have hset := h.base.setup
  have hend₀ : conn₀.ending = some e := h.base.ending.symm.trans hend
  have hhl : c₀.parseHeaders = true → statusCode conn₀.pending.flatten = statusOK →
      ∀ hl, HeaderEnd conn₀.pending hl → hl ≤ st.c.size → st.c.headerLen = hl :=
    fun hparse _ _ hh hle => h.phase.headerLen (hset.parseHeaders.trans hparse) hh hle
  unfold Fhttp.readFailed
  -- The three results of a failed read: try again, the end of the stream, and an error.
  by_cases hre : reused = true ∧ st.c.size = 0
  · rw [if_pos hre]
    have hD : conn₀.pending.flatten = [] := List.length_eq_zero_iff.mp (by omega)
    refine ⟨_, rfl, .returned 0 retryOnce false _ _ (.retry e hre.1 hend₀ hD) ?_⟩
    exact ⟨hset.of_eq rfl rfl rfl rfl rfl rfl, rfl, hre.2, hre.2 ▸ h.base.take,
      hre.2 ▸ h.base.readEnd, hre.2 ▸ h.base.received.delivered.trans h.base.take,
      hre.2 ▸ h.base.pending,
      hre.2 ▸ hhl, h.base.socket, rfl⟩
  · rw [if_neg hre]
    by_cases heof : e = .eof ∧ st.c.size ≠ 0
    · rw [if_pos heof]
      refine ⟨_, rfl, .of_brk h.base hhl ?_⟩
      rw [hsize, h.phase.code, decide_eq_true rfl, Bool.and_true]
      refine .eof _ (heof.1 ▸ hend₀) (fun hD => ?_) (hset.length ▸ hsize ▸ hlt)
        (h.waiting hskip hnil)
      rw [hD] at hsize
      exact heof.2 hsize
    · rw [if_neg heof]
      refine ⟨_, rfl, .of_brk ⟨hset.of_eq rfl rfl rfl rfl rfl rfl, h.base.socket,
        h.base.received, h.base.ending, h.base.closed⟩ hhl ?_⟩
      -- The code is `socketError` now, so the connection is closed whatever `keepAlive` is.
      show Reason g reused c₀ conn₀ st.c.size socketError
        (st.keepAlive && decide (socketError = statusOK))
      rw [hsize, decide_eq_false (by decide), Bool.and_false]
      refine .failed e _ hend₀ ?_ (hset.length ▸ hsize ▸ hlt) (h.waiting hskip hnil)
      cases e with
      | other => exact .inl rfl
      | eof => exact .inr (List.length_eq_zero_iff.mp (by rw [← hsize]; simpa using heof))

/-- What is left of a pass, from a state in which the read of this pass is done. -/
def PassEnds (g : Settings) (reused : Bool) (c₀ : FastClient) (conn₀ : Conn)
    (moved : Reading → Prop) (r : Except Exit Reading) : Prop :=
  (∃ st', endPass r = .again st' ∧ Inv g c₀ conn₀ st' ∧ moved st') ∨
    ∃ out, endPass r = .leave out ∧ Ended g reused c₀ conn₀ out

theorem Body.headerLen (h : Body g pieces st r f) (hend : HeaderEnd pieces hl) :
    st.c.headerLen = hl :=
  h.headed.headerEnd.unique hend

section
variable (hb : Base c₀ conn₀ st)
include hb

/-- The response is complete: the loop ends. -/
theorem Body.done (h : Body g conn₀.pending st r f) (hdone : f.Done st.c.buffer.length st.c.data)
    (hbefore : ∀ s, ReadEnd conn₀.pending st.c.buffer.length s → r ≤ s → s < st.c.size →
      ¬ f.Done st.c.buffer.length (conn₀.pending.flatten.take s)) :
    Ended g reused c₀ conn₀ (keepOrClose st) := by
  refine .of_brk hb (fun _ _ _ hend _ => h.headerLen hend) ?_
  rw [h.code, h.keepAlive, decide_eq_true rfl, Bool.and_true]
  rw [hb.take, hb.length] at hdone
  rw [hb.length] at hbefore
  exact .done _ r _ f (hb.setup.parseHeaders ▸ h.parse) (hb.setup.keepAlive ▸ h.client)
    (hb.length ▸ h.headed) h.le hdone hbefore

/-- The end of a pass that waits for a number of bytes. -/
theorem Body.checkMax_length {keep : Bool} {max : Int}
    (h : Body g conn₀.pending st r (.length keep max)) (hchunked : st.chunkedMode = false)
    (hskip : st.skipRead = false) (hmax : st.max = max) (start : Nat)
    (hstart : (start : Int) < max ∨ start < r)
    (hcut : ∀ s, start < s → s < st.c.size → ¬ ReadEnd conn₀.pending st.c.buffer.length s)
    (hmoved : moved st) : PassEnds g reused c₀ conn₀ moved (checkMax st) := by
  unfold checkMax
  by_cases hle : st.max ≤ (st.c.size : Int)
  · right
    rw [if_pos hle]
    simp only [h.parsed, hchunked, Bool.not_true, Bool.false_and, Bool.false_eq_true, if_false]
    refine ⟨_, rfl, h.done hb ?_ fun s hs hr hlt => ?_⟩
    · simpa only [Framing.Done, st.c.length_data, ← hmax] using hle
    · -- An earlier read ends no later than the read before this one.
      have hs' : s ≤ start := by
        by_contra hgt
        exact hcut s (by omega) hlt hs
      simp only [Framing.Done, List.length_take]
      omega
  · left
    rw [if_neg hle]
    exact ⟨st, rfl, ⟨hb, .length r keep max h hchunked hskip hmax (by omega)⟩, hmoved⟩

/-- The end of a pass that walks along the chunks. -/
theorem Body.checkMax_chunks {keep : Bool} {start : Int}
    (h : Body g conn₀.pending st r (.chunks keep start)) (hchunked : st.chunkedMode = true)
    (hskip : st.skipRead = false) (hwalk : ChunkWalk st.c.data st.c.buffer.length start st.max)
    (hbefore : ∀ s, ReadEnd conn₀.pending st.c.buffer.length s → r ≤ s → s < st.c.size →
      ¬ ChunkStop (conn₀.pending.flatten.take s) st.c.buffer.length start)
    (hwait : ChunkWaitAt st.c.data st.max → moved st)
    (hstep : ∀ st', st'.conn = st.conn → st'.chunkedMode = true →
      ChunkStep st.c.data st.c.buffer.length st.max st'.max → moved st') :
    PassEnds g reused c₀ conn₀ moved (checkMax st) := by
  have hsize : 2 ≤ st.c.size := by
    have h1 := h.headed.headerEnd.ge
    have h2 := h.headed.le
    have h3 := h.le
    omega
  -- The four outcomes of a look at the chunk at `max`: a panic, a wait, the last chunk, a step.
  rcases checkMax_cases st hchunked h.parsed hsize with ⟨hneg, heq⟩ | ⟨hw, heq⟩ |
    ⟨hstop, max, heq⟩ | ⟨m', hm', heq⟩
  · right
    rw [heq]
    refine ⟨_, rfl, .panic _ r keep start st.max (hb.setup.parseHeaders ▸ h.parse)
      (hb.setup.keepAlive ▸ h.client) (hb.length ▸ h.headed) ?_ hneg⟩
    -- The walk was taken in the data received, which is where the rest of the stream goes on.
    obtain ⟨more, hmore⟩ := hb.extends
    rw [hmore, ← hb.length]
    exact hwalk.mono
  · left
    refine ⟨st, by rcases heq with heq | heq <;> rw [heq] <;> rfl, ⟨hb, ?_⟩, hwait hw⟩
    exact .chunks r keep start h ⟨hchunked, hwalk, hbefore, .inr ⟨hskip, hw⟩⟩
  · right
    rw [heq]
    exact ⟨_, rfl, Body.done (f := .chunks keep start) (hb.of_eq rfl rfl)
      ⟨h.parse, h.client, h.parsed, h.code, h.keepAlive, h.headed, h.le⟩
      ⟨st.max, hwalk, hstop⟩ hbefore⟩
  · left
    rw [heq]
    refine ⟨_, rfl, ⟨hb.of_eq rfl rfl, ?_⟩, hstep _ rfl hchunked hm'⟩
    refine .chunks r keep start ⟨h.parse, h.client, h.parsed, h.code, h.keepAlive, h.headed,
      h.le⟩ ⟨hchunked, hwalk.tail hm', hbefore, ?_⟩
    by_cases hle : m' ≤ (st.c.size : Int)
    · exact .inl ⟨decide_eq_true hle, hle⟩
    · exact .inr ⟨decide_eq_false hle, .inl (by show (st.c.data.length : Int) < m'
                                                rw [st.c.length_data]; omega)⟩

/-- The rest of the pass that finds the end of the headers of a kept connection. -/
theorem frameBody_ends (hparse : st.c.parseHeaders = true) (hclient : st.c.keepAlive = true)
    (hparsed : st.parsedHeaders = true) (hskip : st.skipRead = false)
    (hchunked : st.chunkedMode = false) (hkeep : st.keepAlive = true)
    (hcode : st.c.code = statusOK)
    (hheaded : Headed g conn₀.pending st.c.buffer.length st.c.headerLen st.c.size
      (framing g st.c.buffer.length st.c.data st.c.headerLen))
    (hmoved : ∀ st', st'.conn = st.conn → moved st') :
    PassEnds g reused c₀ conn₀ moved (frameBody g st >>= checkMax) := by
  obtain ⟨p, hp, h1, h2⟩ := hheaded.headerEnd.crlf
  have hget : ∀ i < st.c.headerLen, st.c.data[i]? = conn₀.pending.flatten[i]? := by
    intro i hi
    have := hheaded.le
    rw [hb.take, List.getElem?_take, if_pos (by omega)]
  have hcr : ∀ q, q + 1 < st.c.headerLen → CrlfAt conn₀.pending.flatten q → CrlfAt st.c.data q :=
    fun q hq hc => ⟨(hget q (by omega)).trans hc.1, (hget (q + 1) hq).trans hc.2⟩
  -- The framing is decided here, once: from the bytes that the client has at this read.
  rcases frameBody_cases g st hkeep hp hheaded.le (hcr p (by omega) h1)
    (hcr (p + 2) (by omega) h2) with heq | ⟨hf, hwait, heq⟩
  · rw [heq]
    generalize framing g st.c.buffer.length st.c.data st.c.headerLen = f at hheaded
    cases f with
    | unframed =>
      right
      exact ⟨_, rfl, Body.done (f := .unframed) (r := st.c.size)
        (hb.of_eq rfl rfl)
        ⟨hparse, hclient, hparsed, hcode, rfl, hheaded, Nat.le_refl _⟩ trivial
        fun s _ hs hlt => absurd hlt (Nat.not_lt.mpr hs)⟩
    | length keep max =>
      have hpos : 0 < st.c.size := by
        have h2 := hheaded.le
        omega
      have hb' : Base c₀ conn₀ { st with keepAlive := keep, max := max } := hb.of_eq rfl rfl
      exact Body.checkMax_length (r := st.c.size) hb'
        ⟨hparse, hclient, hparsed, hcode, rfl, hheaded, Nat.le_refl _⟩ hchunked hskip rfl
        -- No read before this one had the headers, so none of them can have been the last one.
        (st.c.size - 1) (.inr (by omega))
        (fun s hs (hlt : s < st.c.size) => absurd hlt (by omega)) (hmoved _ rfl)
    | chunks keep start =>
      have hb' : Base c₀ conn₀
          { st with chunkedMode := true, keepAlive := keep, max := start } := hb.of_eq rfl rfl
      exact Body.checkMax_chunks (r := st.c.size) hb'
        ⟨hparse, hclient, hparsed, hcode, rfl, hheaded, Nat.le_refl _⟩ rfl hskip .refl
        (fun s _ hs hlt => absurd hlt (Nat.not_lt.mpr hs)) (fun _ => hmoved _ rfl)
        (fun st' hconn _ _ => hmoved st' hconn)
  -- Chunked, and the first size line has not arrived: the pass goes round with `max` unset.
  · rw [heq]
    rw [hf] at hheaded
    left
    refine ⟨_, rfl, ⟨hb.of_eq rfl rfl, ?_⟩, hmoved _ rfl⟩
    exact .chunks st.c.size true st.c.headerLen
      ⟨hparse, hclient, hparsed, hcode, hkeep, hheaded, Nat.le_refl _⟩
      ⟨rfl, .refl, fun s _ hs hlt => absurd hlt (Nat.not_lt.mpr hs), .inr ⟨hskip, hwait⟩⟩

/-- The end of a pass that has not found the end of the headers. -/
theorem checkMax_looking (h : Unparsed st) (hcode : st.c.code = statusOK)
    (hnone : st.c.parseHeaders = true → ∀ h, HeaderEnd conn₀.pending h → st.c.size < h)
    (hstatus : st.c.parseHeaders = true → retcodeOffset + 3 ≤ st.c.size →
      statusCode conn₀.pending.flatten = statusOK)
    (hnext : st.c.size < st.c.buffer.length → st.c.parseHeaders = true →
      Scanning conn₀.pending st) (hmoved : st.c.size < st.c.buffer.length → moved st) :
    PassEnds g reused c₀ conn₀ moved (checkMax st) := by
  have hle := st.c.size_le
  have hset := hb.setup
  unfold checkMax
  rw [h.max]
  by_cases hfull : (st.c.buffer.length : Int) ≤ (st.c.size : Int)
  · right
    rw [if_pos hfull]
    have hsize : st.c.size = c₀.buffer.length := by rw [← hb.length]; omega
    have hreason : ∀ b, b = (c₀.keepAlive && !c₀.parseHeaders) →
        Reason g reused c₀ conn₀ st.c.size st.c.code (b && decide (st.c.code = statusOK)) := by
      rintro b rfl
      rw [hcode, hsize, decide_eq_true rfl, Bool.and_true]
      refine .full (fun hparse h hend => ?_) (fun hparse h12 => ?_)
      · exact hsize ▸ hnone (hset.parseHeaders.trans hparse) h hend
      · exact hstatus (hset.parseHeaders.trans hparse) (by omega)
    have hhl : c₀.parseHeaders = true → statusCode conn₀.pending.flatten = statusOK →
        ∀ hl, HeaderEnd conn₀.pending hl → hl ≤ st.c.size → st.c.headerLen = hl := by
      intro hparse _ hl hend hle
      have := hnone (hset.parseHeaders.trans hparse) hl hend
      omega
    -- A full buffer without the end of the headers gives up the connection. A client that does
    -- not look at the headers keeps it.
    cases hparse : st.c.parseHeaders with
    | true =>
      simp only [h.parsed, Bool.not_false, Bool.and_self, if_true, h.chunked,
        Bool.false_eq_true, if_false]
      refine ⟨_, rfl, .of_brk (hb.of_eq rfl rfl) hhl (hreason false ?_)⟩
      rw [← hset.parseHeaders, hparse]
      simp
    | false =>
      simp only [Bool.and_false, Bool.false_eq_true, if_false, h.chunked]
      refine ⟨_, rfl, .of_brk hb hhl (hreason st.keepAlive ?_)⟩
      rw [← hset.parseHeaders, hparse, h.keepAlive, hset.keepAlive]
      simp
  · left
    have hroom : st.c.size < st.c.buffer.length := by omega
    rw [if_neg hfull]
    exact ⟨st, rfl, ⟨hb, .looking ⟨h, hcode, .inr hroom, hnext hroom⟩⟩, hmoved hroom⟩

end

/-! ### One pass -/

theorem Grown.size_lt (h : Grown pieces len st st') : st.c.size < st'.c.size := by
  obtain ⟨p, fits, conn, rfl, hne⟩ := h.eq
  have : 0 < p.length := List.length_pos_iff.mpr hne
  simp only [FastClient.append]
  omega

theorem Grown.pending_lt (hb : Base c₀ conn₀ st)
    (h : Grown conn₀.pending c₀.buffer.length st st') :
    st'.conn.pending.flatten.length < st.conn.pending.flatten.length := by
  have h1 := (hb.grown h).pending
  have h2 := h.size_lt
  have h3 := (hb.grown h).readEnd.le_length
  rw [h1, hb.pending, List.length_drop, List.length_drop]
  omega

/-- No read ends strictly inside a read. -/
theorem Grown.not_readEnd (hb : Base c₀ conn₀ st)
    (h : Grown conn₀.pending c₀.buffer.length st st') {s : Nat} (hlo : st.c.size < s)
    (hhi : s < st'.c.size) : ¬ ReadEnd conn₀.pending c₀.buffer.length s := by
  intro hs
  have := (hb.grown h).readEnd.le
  exact h.inside s hlo hhi (hs.isCut (by omega))

/-- A pass with a read of some bytes goes on with the header part. -/
theorem pass_of_read {st₁ : Reading} (h : readMore g reused st = .ok st₁) :
    pass g reused st = endPass (parseHeaders g st₁ >>= checkMax) := by
  unfold pass
  rw [h]
  rfl

theorem parseHeaders_parsed (h : st.parsedHeaders = true) : parseHeaders g st = .ok st := by
  unfold parseHeaders
  rw [if_neg (by simp [h])]

/-- What a pass can do from a state with the invariant. -/
def PassStep (g : Settings) (reused : Bool) (c₀ : FastClient) (conn₀ : Conn)
    (st : Reading) : Prop :=
  (∃ st', pass g reused st = .again st' ∧ Inv g c₀ conn₀ st' ∧ Progress st st') ∨
    ∃ out, pass g reused st = .leave out ∧ Ended g reused c₀ conn₀ out

/-- A pass that reads. The three ways in which the read does not deliver are the same in
every phase. What is left to show is what a full buffer and what new bytes do. -/
theorem PassStep.of_read (h : Inv g c₀ conn₀ st) (hskip : st.skipRead = false)
    (full : st.c.size = st.c.buffer.length →
      PassEnds g reused c₀ conn₀ (Progress st) (parseHeaders g st >>= checkMax))
    (grown : ∀ st₁, Grown conn₀.pending c₀.buffer.length st st₁ →
      PassEnds g reused c₀ conn₀ (Progress st) (parseHeaders g st₁ >>= checkMax)) :
    PassStep g reused c₀ conn₀ st := by
  have hr := h.base.received
  rw [← h.base.length] at hr
  unfold PassStep
  rcases readMore_cases g reused st hskip hr with ⟨hfull, heq⟩ | ⟨hlt, hnil, hend, heq⟩ |
    ⟨e, hlt, hnil, hend, heq⟩ | ⟨st₁, hlt, heq, hg⟩
  · rw [pass_of_read heq]
    exact full hfull
  · right
    have hall : st.c.data = conn₀.pending.flatten := h.base.received.all hnil
    refine ⟨.blocked, by unfold pass; rw [heq]; rfl,
      .blocked _ (h.base.ending.symm.trans hend) ?_ (h.waiting hskip hnil)⟩
    rwa [← hall, st.c.length_data, ← h.base.length]
  · right
    obtain ⟨out, hout, hended⟩ := h.readFailed reused hskip hlt hnil hend
    refine ⟨out, ?_, hended⟩
    unfold pass
    rw [heq]
    exact hout
  · rw [pass_of_read heq]
    exact grown st₁ (h.base.length ▸ hg)

section
variable (hb : Base c₀ conn₀ st)
include hb

/-- The end of a pass of a connection that is not kept alive. -/
theorem Closing.checkMax (h : Closing conn₀.pending st) (hmoved : moved st) :
    PassEnds g reused c₀ conn₀ moved (Fhttp.checkMax st) := by
  have hle := st.c.size_le
  unfold Fhttp.checkMax
  rw [h.max]
  by_cases hfull : (st.c.buffer.length : Int) ≤ (st.c.size : Int)
  · right
    rw [if_pos hfull]
    simp only [h.parsed, h.chunked, Bool.not_true, Bool.false_and, Bool.false_eq_true, if_false]
    refine ⟨_, rfl, .of_brk hb (fun _ _ _ hend _ => h.headerEnd.unique hend) ?_⟩
    have hsize : st.c.size = c₀.buffer.length := by rw [← hb.length]; omega
    rw [h.code, h.keepAlive, hsize, Bool.false_and]
    exact .close _ (hb.setup.parseHeaders ▸ h.parse) (hb.setup.keepAlive ▸ h.client) h.headerEnd
      h.status
  · left
    rw [if_neg hfull]
    exact ⟨st, rfl, ⟨hb, .closing h (by omega)⟩, hmoved⟩

/-- The rest of a pass whose header part has reached the end of the data. -/
theorem Unparsed.notFound (h : Unparsed st) (hsize : retcodeOffset + 3 ≤ st.c.size)
    (hstatus : statusCode conn₀.pending.flatten = statusOK) {e : Nat} (he : e ≤ st.c.size)
    (he' : st.c.size ≤ e + 1) (hscan : Scanned conn₀.pending e hl)
    (hmoved : ∀ st', st'.conn = st.conn → moved st') :
    PassEnds g reused c₀ conn₀ moved (checkMax { st with
      c := { st.c with code := statusOK, headerLen := hl }
      endofHeadersStart := st.c.size }) := by
  have hbase : Base c₀ conn₀ { st with
      c := { st.c with code := statusOK, headerLen := hl }
      endofHeadersStart := st.c.size } :=
    ⟨hb.setup.of_eq rfl rfl rfl rfl rfl rfl, hb.socket, hb.received, hb.ending, hb.closed⟩
  refine checkMax_looking hbase ⟨h.parsed, h.chunked, h.skip, h.max, h.keepAlive⟩ rfl
    (fun _ h hend => hscan.not_headerEnd he' hend) (fun _ _ => hstatus) (fun hroom _ => ?_)
    fun _ => hmoved _ rfl
  -- There is room, so the read has ended with a piece, and the next scan starts at a cut.
  have hcut := hb.readEnd.isCut (hb.length ▸ hroom)
  exact ⟨(Nat.max_eq_right hsize).symm, hscan.atCut he he' hcut, fun _ => hstatus⟩

/-- The rest of a pass whose header part has found the end of the headers. -/
theorem Unparsed.found (h : Unparsed st) (hparse : st.c.parseHeaders = true)
    (hstatus : statusCode conn₀.pending.flatten = statusOK) (hend : HeaderEnd conn₀.pending hl)
    (hle : hl ≤ st.c.size)
    (hfirst : ∀ s, ReadEnd conn₀.pending st.c.buffer.length s → hl ≤ s → st.c.size ≤ s)
    {st₂ : Reading} (heq : st₂ = { st with
      c := { st.c with code := statusOK, headerLen := hl }
      endofHeadersStart := st.c.size
      parsedHeaders := true }) (hmoved : ∀ st', st'.conn = st.conn → moved st') :
    PassEnds g reused c₀ conn₀ moved
      ((if st.keepAlive then frameBody g st₂ else .ok st₂) >>= checkMax) := by
  have hbase : Base c₀ conn₀ st₂ := by
    subst heq
    exact ⟨hb.setup.of_eq rfl rfl rfl rfl rfl rfl, hb.socket, hb.received, hb.ending, hb.closed⟩
  -- Only a connection that may be kept needs to know where the response ends.
  cases hka : st.keepAlive with
  | true =>
    subst heq
    refine frameBody_ends hbase hparse (h.keepAlive.symm.trans hka) rfl h.skip h.chunked hka rfl
      ⟨hend, hb.length ▸ hb.readEnd, hle, hfirst, hstatus, ?_⟩ hmoved
    show framing g _ _ _ = framing g _ st.c.data _
    rw [hb.take]
  | false =>
    subst heq
    exact Closing.checkMax hbase ⟨hparse, h.keepAlive.symm.trans hka, rfl, h.chunked, h.skip,
      rfl, h.max, hka, hend, hstatus⟩ (hmoved _ rfl)

/-- A pass with new bytes in the search for the end of the headers. -/
theorem Looking.grown (h : Looking conn₀.pending st)
    (hg : Grown conn₀.pending c₀.buffer.length st st') :
    PassEnds g reused c₀ conn₀ (Progress st) (parseHeaders g st' >>= checkMax) := by
  have hb' := hb.grown hg
  have hlt := hg.size_lt
  have hmoved : ∀ st'', st''.conn = st'.conn → Progress st st'' := fun st'' hconn =>
    .read (hconn ▸ hg.pending_lt hb)
  obtain ⟨hun, hcode, hparse', hstart', hhl'⟩ : Unparsed st' ∧ st'.c.code = statusOK ∧
      st'.c.parseHeaders = st.c.parseHeaders ∧
      st'.endofHeadersStart = st.endofHeadersStart ∧ st'.c.headerLen = st.c.headerLen := by
    obtain ⟨p, fits, conn, rfl, _⟩ := hg.eq
    exact ⟨⟨h.parsed, h.chunked, h.skip, by simpa using h.max, h.keepAlive⟩, h.code, rfl, rfl, rfl⟩
  by_cases happ : st'.c.parseHeaders = true ∧ retcodeOffset + 3 ≤ st'.c.size
  · -- The status code is there, and the header part runs.
    obtain ⟨hparse, h12⟩ := happ
    have hs := h.scanning (hparse'.symm.trans hparse)
    have hstart : st'.endofHeadersStart = Max.max (retcodeOffset + 3) st.c.size :=
      hstart'.trans hs.start
    have hscan : Scanned conn₀.pending st'.endofHeadersStart st'.c.headerLen := by
      rw [hstart', hhl']
      exact hs.scanned
    have hstatus : statusCode st'.c.data = statusCode conn₀.pending.flatten := by
      unfold statusCode
      rw [hb'.take, List.take_take, Nat.min_eq_left h12]
    have hr := hb'.received
    rw [← hb'.length] at hr
    rcases parseHeaders_cases g st' hun.parsed hparse h12 hr (by omega)
      (show st.c.size ≤ st'.endofHeadersStart by omega) (by omega) hg.inside hscan with
      ⟨hbad, heq⟩ | ⟨hok, hl, e, he, he', hsc, heq⟩ | ⟨hok, hl, st₂, hend, hle, heq₂, heq⟩
    · right
      rw [heq]
      refine ⟨_, rfl, .of_brk ⟨hb'.setup.of_eq rfl rfl rfl rfl rfl rfl, hb'.socket, hb'.received,
        hb'.ending, hb'.closed⟩ (fun _ hok => absurd (hstatus.trans hok) hbad) ?_⟩
      rw [decide_eq_false hbad, Bool.and_false, hstatus]
      exact .status _ (hb'.setup.parseHeaders ▸ hparse) h12 (hstatus ▸ hbad)
    · rw [heq]
      exact hun.notFound hb' h12 (hstatus ▸ hok) he he' hsc hmoved
    · rw [heq]
      refine hun.found hb' hparse (hstatus ▸ hok) hend hle (fun s hs hle' => ?_) heq₂ hmoved
      -- A read with the headers that ends before this one would end inside it.
      by_contra hlt'
      have hbefore := h.lt_headerEnd (hparse'.symm.trans hparse) hend
      exact hg.not_readEnd hb (by omega) (by omega) (hb'.length ▸ hs)
  -- Too few bytes for a status code, or no interest in the headers: the pass only reads.
  · have hnot : parseHeaders g st' = .ok st' := by
      unfold parseHeaders
      rw [if_neg (by simpa [hun.parsed] using happ)]
    have hshort : st'.c.parseHeaders = true → st'.c.size < retcodeOffset + 3 := fun hp =>
      Nat.not_le.mp fun hge => happ ⟨hp, hge⟩
    rw [hnot]
    refine checkMax_looking hb' hun hcode (fun hp h hend => ?_)
      (fun hp h12 => absurd h12 (Nat.not_le.mpr (hshort hp))) (fun hroom hp => ?_)
      fun _ => hmoved _ rfl
    · have h1 := hend.ge
      have h2 := hshort hp
      omega
    · have hs := h.scanning (hparse'.symm.trans hp)
      have h2 := hshort hp
      refine ⟨?_, ?_, fun h12 => absurd h12 (Nat.not_le.mpr h2)⟩
      · rw [hstart', hs.start]
        omega
      · rw [hstart', hhl']
        exact hs.scanned

theorem Looking.passStep (h : Looking conn₀.pending st) : PassStep g reused c₀ conn₀ st := by
  refine .of_read ⟨hb, .looking h⟩ h.skip (fun hfull => ?_) fun st₁ hg => h.grown hb hg
  -- The buffer is full before anything is read: it has no bytes at all.
  have hzero : st.c.size = 0 := h.room.resolve_right (by omega)
  have hnot : parseHeaders g st = .ok st := by
    unfold parseHeaders
    rw [if_neg (by simp [hzero, retcodeOffset])]
  rw [hnot]
  exact checkMax_looking hb h.toUnparsed h.code (fun hp hl hend => h.lt_headerEnd hp hend)
    (fun hp => (h.scanning hp).status) (fun hroom => absurd hroom (by omega))
    fun hroom => absurd hroom (by omega)

theorem Closing.passStep (h : Closing conn₀.pending st) (hroom : st.c.size < st.c.buffer.length) :
    PassStep g reused c₀ conn₀ st := by
  refine .of_read ⟨hb, .closing h hroom⟩ h.skip (fun hfull => absurd hfull (by omega))
    fun st₁ hg => ?_
  have hb₁ := hb.grown hg
  have hmoved : Progress st st₁ := .read (hg.pending_lt hb)
  have hc : Closing conn₀.pending st₁ := by
    obtain ⟨p, fits, conn, rfl, _⟩ := hg.eq
    exact ⟨h.parse, h.client, h.parsed, h.chunked, h.skip, h.code, by simpa using h.max,
      h.keepAlive, h.headerEnd, h.status⟩
  rw [parseHeaders_parsed hc.parsed]
  exact hc.checkMax hb₁ hmoved

end

/-- The body phase goes on after a read. -/
theorem Body.grown (h : Body g conn₀.pending st r f)
    (hg : Grown conn₀.pending c₀.buffer.length st st') : Body g conn₀.pending st' r f := by
  have hlt := hg.size_lt
  obtain ⟨p, fits, conn, rfl, _⟩ := hg.eq
  refine ⟨h.parse, h.client, h.parsed, h.code, h.keepAlive, ?_, h.le.trans (Nat.le_of_lt hlt)⟩
  rw [FastClient.length_append]
  exact h.headed

theorem Body.passStep_length (hb : Base c₀ conn₀ st) {keep : Bool} {max : Int}
    (h : Body g conn₀.pending st r (.length keep max)) (hchunked : st.chunkedMode = false)
    (hskip : st.skipRead = false) (hmax : st.max = max) (hlt : (st.c.size : Int) < max) :
    PassStep g reused c₀ conn₀ st := by
  have hinv : Inv g c₀ conn₀ st := ⟨hb, .length r keep max h hchunked hskip hmax hlt⟩
  refine .of_read hinv hskip (fun hfull => ?_) fun st₁ hg => ?_
  -- The length to wait for is at most the buffer, so a full buffer would have ended the loop.
  · have := framing_length_le h.headed.framed
    omega
  · have hb₁ := hb.grown hg
    have h₁ := h.grown hg
    have hcut : ∀ s, st.c.size < s → s < st₁.c.size →
        ¬ ReadEnd conn₀.pending st₁.c.buffer.length s := fun s hlo hhi hs =>
      hg.not_readEnd hb hlo hhi (hb₁.length ▸ hs)
    rw [parseHeaders_parsed h₁.parsed]
    obtain ⟨hchunked₁, hskip₁, hmax₁⟩ :
        st₁.chunkedMode = false ∧ st₁.skipRead = false ∧ st₁.max = max := by
      obtain ⟨p, fits, conn, rfl, _⟩ := hg.eq
      exact ⟨hchunked, hskip, hmax⟩
    exact h₁.checkMax_length hb₁ hchunked₁ hskip₁ hmax₁ st.c.size (.inl hlt) hcut
      (.read (hg.pending_lt hb))

theorem Body.passStep_chunks (hb : Base c₀ conn₀ st) {keep : Bool} {start : Int}
    (h : Body g conn₀.pending st r (.chunks keep start)) (hw : Walking conn₀.pending st r start) :
    PassStep g reused c₀ conn₀ st := by
  rcases hw.next with ⟨hskip, hmax⟩ | ⟨hskip, hwait⟩
  · -- The next chunk is looked at without a read.
    have heq : readMore g reused st = .ok { st with skipRead := false } := by
      rw [readMore, if_pos hskip]
    have hb' : Base c₀ conn₀ { st with skipRead := false } := hb.of_eq rfl rfl
    have h' : Body g conn₀.pending { st with skipRead := false } r (.chunks keep start) :=
      ⟨h.parse, h.client, h.parsed, h.code, h.keepAlive, h.headed, h.le⟩
    unfold PassStep
    rw [pass_of_read heq, parseHeaders_parsed h'.parsed]
    exact h'.checkMax_chunks hb' hw.chunked rfl hw.walk hw.before
      (fun _ => .look rfl hskip fun hs => absurd hs Bool.false_ne_true)
      (fun st' hconn _ hstep => .look hconn hskip fun _ => hstep)
  · refine .of_read ⟨hb, .chunks r keep start h hw⟩ hskip (fun hfull => ?_) fun st₁ hg => ?_
    -- The full buffer takes no more bytes. The pass looks at the same place again and waits.
    · rw [parseHeaders_parsed h.parsed]
      exact h.checkMax_chunks hb hw.chunked hskip hw.walk hw.before
        (fun _ => .spin hfull hw.chunked hskip)
        (fun _ _ _ hstep => absurd hstep hwait.not_step)
    · have hb₁ := hb.grown hg
      have h₁ := h.grown hg
      rw [parseHeaders_parsed h₁.parsed]
      -- The walk goes on in the longer data, and the last read did not end the response.
      have hnow : ¬ ChunkStop (conn₀.pending.flatten.take st.c.size) st.c.buffer.length start := by
        rw [← hb.take]
        exact hw.walk.not_stop_of_wait hwait
      have hbefore : ∀ s, ReadEnd conn₀.pending st₁.c.buffer.length s → r ≤ s →
          s < st₁.c.size →
          ¬ ChunkStop (conn₀.pending.flatten.take s) st₁.c.buffer.length start := by
        intro s hs hr hlt
        rw [hb₁.length, ← hb.length] at hs ⊢
        rcases Nat.lt_trichotomy s st.c.size with hlt' | rfl | hgt
        · exact hw.before s hs hr hlt'
        · exact hnow
        · exact absurd (hb.length ▸ hs) (hg.not_readEnd hb hgt hlt)
      obtain ⟨hchunked₁, hskip₁, hwalk₁⟩ : st₁.chunkedMode = true ∧ st₁.skipRead = false ∧
          ChunkWalk st₁.c.data st₁.c.buffer.length start st₁.max := by
        obtain ⟨p, fits, conn, rfl, _⟩ := hg.eq
        refine ⟨hw.chunked, hskip, ?_⟩
        rw [FastClient.data_append, FastClient.length_append]
        exact hw.walk.mono
      exact h₁.checkMax_chunks hb₁ hchunked₁ hskip₁ hwalk₁ hbefore
        (fun _ => .read (hg.pending_lt hb))
        (fun st' hconn _ _ => .read (hconn ▸ hg.pending_lt hb))

/-- The step lemma: what a pass does from a state with the invariant. -/
theorem pass_cases (reused : Bool) (h : Inv g c₀ conn₀ st) : PassStep g reused c₀ conn₀ st := by
  cases h.phase with
  | looking hl => exact hl.passStep h.base
  | closing hc hroom => exact hc.passStep h.base hroom
  | length r keep max hbody hchunked hskip hmax hlt =>
    exact hbody.passStep_length h.base hchunked hskip hmax hlt
  | chunks r keep start hbody hw => exact hbody.passStep_chunks h.base hw

/-- A client that starts to read an answer: nothing is in its buffer, it holds no socket, and
nothing was read from the connection since the request. -/
structure Starting (c : FastClient) (conn : Conn) : Prop where
  size : c.size = 0
  headerLen : c.headerLen = 0
  socket : c.socket = none
  delivered : conn.delivered = []

/-- A keep-alive client with an empty buffer of `len` bytes. -/
def FastClient.idle (len : Nat) (h : len < 2 ^ 63) : FastClient where
  buffer := List.replicate len 0
  req := []
  socket := none
  socketCount := 0
  size := 0
  code := socketError
  errorCount := 0
  headerLen := 0
  keepAlive := true
  parseHeaders := true
  halfClose := false
  size_le := Nat.zero_le _
  length_lt := by rwa [List.length_replicate]

/-- A connection on which `pieces` arrive. -/
def Conn.arriving (pieces : List Bytes) (ending : Option ReadErr) (h : ∀ p ∈ pieces, p ≠ []) :
    Conn where
  delivered := []
  pending := pieces
  ending := ending
  closed := false
  pending_ne := h

/-- `readResponse` returned, and what it returned passes the test `p`. -/
def Outcome.returns (p : FastClient → Conn → Bool) : Outcome → Bool
  | .returned c conn => p c conn
  | _ => false

theorem exists_of_returns {run : Option Outcome} {p : FastClient → Conn → Bool}
    (h : run.any (Outcome.returns p) = true) :
    ∃ c conn, run = some (.returned c conn) ∧ p c conn = true := by
  rcases run with _ | _ | _ | ⟨c, conn⟩
  · exact nomatch h
  · exact nomatch h
  · exact nomatch h
  · exact ⟨c, conn, rfl, h⟩

theorem starting_idle {h : len < 2 ^ 63} {ending : Option ReadErr} {hne : ∀ p ∈ pieces, p ≠ []} :
    Starting (.idle len h) (.arriving pieces ending hne) :=
  ⟨rfl, rfl, rfl, rfl⟩

/-- The invariant holds at the start. -/
theorem inv_start (h : Starting c₀ conn₀) : Inv g c₀ conn₀ (startReading c₀ conn₀) where
  base := {
    setup := ⟨rfl, rfl, rfl, rfl, rfl, rfl⟩
    socket := rfl
    received := {
      delivered := by simp [startReading, FastClient.data, h.size, h.delivered]
      stream := by simp [startReading, FastClient.data, h.size]
      le := by simp [startReading, FastClient.data, h.size]
      whole := .inl (by simp [startReading, h.delivered]) }
    ending := rfl
    closed := rfl }
  phase := .looking {
    parsed := rfl
    chunked := rfl
    skip := rfl
    max := rfl
    keepAlive := rfl
    code := rfl
    room := .inl h.size
    scanning := fun _ => {
      start := by simp [startReading, h.size]
      scanned := by
        simp only [startReading, h.headerLen]
        exact scanned_start _
      status := fun h12 => by simp [startReading, h.size, retcodeOffset] at h12 } }

/-- The run lemma: everything that `readResponse` comes to is in `Ended`. -/
theorem responds_ended (h : Starting c₀ conn₀) {out : Outcome}
    (hout : Responds g c₀ conn₀ reused out) : Ended g reused c₀ conn₀ out := by
  refine Loop.Leaves.inv (fun st st' (hinv : Inv g c₀ conn₀ st) heq => ?_)
    (fun st out hinv heq => ?_) hout (inv_start h)
  · rcases pass_cases reused hinv with ⟨st'', heq', hinv', _⟩ | ⟨out, heq', _⟩
    · obtain rfl := (Pass.again.injEq _ _).mp (heq'.symm.trans heq)
      exact hinv'
    · exact nomatch heq'.symm.trans heq
  · rcases pass_cases reused hinv with ⟨st'', heq', _⟩ | ⟨out', heq', hended⟩
    · exact nomatch heq'.symm.trans heq
    · obtain rfl := (Pass.leave.injEq _ _).mp (heq'.symm.trans heq)
      exact hended

/-! ### The results of a response with headers -/

/-- What `readResponse` can come to when the end of the headers is inside the buffer: a walk
along the chunks falls below zero, or the stream ends while the client waits for more, or the
response is complete after a first read. -/
inductive Served (g : Settings) (c₀ : FastClient) (conn₀ : Conn) (r : Nat) (f : Framing) :
    Outcome → Prop where
  | panic (keep : Bool) (start m : Int) (chunks : f = .chunks keep start)
      (walk : ChunkWalk (conn₀.pending.flatten.take c₀.buffer.length) c₀.buffer.length start m)
      (neg : m < 0) : Served g c₀ conn₀ r f .panic
  | blocked (room : conn₀.pending.flatten.length < c₀.buffer.length)
      (waits : f.Waits c₀.buffer.length conn₀.pending.flatten) (ending : conn₀.ending = none) :
      Served g c₀ conn₀ r f .blocked
  | failed (c : FastClient) (conn : Conn)
      (room : conn₀.pending.flatten.length < c₀.buffer.length)
      (waits : f.Waits c₀.buffer.length conn₀.pending.flatten)
      (ending : conn₀.ending = some .other)
      (final : Final c₀ conn₀ conn₀.pending.flatten.length socketError false c conn) :
      Served g c₀ conn₀ r f (.returned c conn)
  | eof (c : FastClient) (conn : Conn)
      (room : conn₀.pending.flatten.length < c₀.buffer.length)
      (waits : f.Waits c₀.buffer.length conn₀.pending.flatten)
      (ending : conn₀.ending = some .eof)
      (final : Final c₀ conn₀ conn₀.pending.flatten.length statusOK f.keep c conn) :
      Served g c₀ conn₀ r f (.returned c conn)
  | done (s : Nat) (c : FastClient) (conn : Conn) (le : r ≤ s)
      (now : f.Done c₀.buffer.length (conn₀.pending.flatten.take s))
      (before : ∀ s', ReadEnd conn₀.pending c₀.buffer.length s' → r ≤ s' → s' < s →
        ¬ f.Done c₀.buffer.length (conn₀.pending.flatten.take s'))
      (final : Final c₀ conn₀ s statusOK f.keep c conn) :
      Served g c₀ conn₀ r f (.returned c conn)

/-- A client that has the headers of a kept connection waits in the body. -/
theorem Waiting.of_headed {h : Nat} {keep : Bool} (hparse : c₀.parseHeaders = true)
    (hkeep : c₀.keepAlive = true) (hh : Headed g pieces c₀.buffer.length h r f)
    (hw : Waiting g c₀ pieces keep) : keep = f.keep ∧ f.Waits c₀.buffer.length pieces.flatten := by
  cases hw with
  -- The phase is the one of the body: the headers are there, and the client keeps connections.
  | headers _ none => exact absurd hh.headerEnd (none hparse h)
  | close _ _ keepAlive => exact absurd (keepAlive.symm.trans hkeep) (by decide)
  | body _ _ f' _ _ headed waits =>
    obtain ⟨_, _, rfl⟩ := headed.unique hh
    exact ⟨rfl, waits⟩

theorem Headed.ne_nil {h : Nat} (hh : Headed g pieces len h r f) : pieces.flatten ≠ [] := by
  intro hnil
  have h1 := hh.headerEnd.ge
  have h2 := hh.headerEnd.le_length
  rw [hnil, List.length_nil] at h2
  omega

theorem Ended.served {h : Nat} {out : Outcome} (hparse : c₀.parseHeaders = true)
    (hkeep : c₀.keepAlive = true) (hh : Headed g conn₀.pending c₀.buffer.length h r f)
    (he : Ended g reused c₀ conn₀ out) : Served g c₀ conn₀ r f out := by
  cases he with
  | panic _ _ keep start m _ _ headed walk neg =>
    obtain ⟨_, _, rfl⟩ := headed.unique hh
    exact .panic keep start m rfl walk neg
  | blocked keep ending room waiting =>
    exact .blocked room (waiting.of_headed hparse hkeep hh).2 ending
  | returned s code keep c conn reason final =>
    cases reason with
    | retry _ _ _ nothing => exact absurd nothing hh.ne_nil
    | failed e keep ending bad room waiting =>
      obtain rfl := bad.resolve_right hh.ne_nil
      exact .failed c conn room (waiting.of_headed hparse hkeep hh).2 ending final
    | eof _ ending _ room waiting =>
      obtain ⟨rfl, hw⟩ := waiting.of_headed hparse hkeep hh
      exact .eof c conn room hw ending final
    | status _ _ _ bad => exact absurd hh.status bad
    -- The read with the headers ends inside the buffer.
    | full none =>
      have h1 := none hparse h hh.headerEnd
      have h2 := hh.readEnd.le
      have h3 := hh.le
      omega
    | close _ _ keepAlive => exact absurd (keepAlive.symm.trans hkeep) (by decide)
    | done _ _ _ f' _ _ headed le now before =>
      obtain ⟨_, rfl, rfl⟩ := headed.unique hh
      exact .done s c conn le now before final

end

end IstioVendor.Fhttp
