import IstioVendor.Proofs.Fhttp.WellFormed

/-!
# `IstioVendor.Proofs.Fhttp.Segmentation`: one response, cut into reads in different ways

A complete response that fits into the buffer should be read in the same way however the
network cuts it. `CutsWell R pieces` names the cuts with which it is: no read ends inside one
of the two line ends that close the headers; no read ends between the size line of the last
chunk and the end of the response; and when a chunked body is empty, some read ends before
its only size line is complete, for otherwise the client takes that line for a chunk and
waits for the next one.

`readResponse_of_cutsWell`: with such a cut, the client stops after the last byte of the
response, reports it whole, and keeps the connection. So two such cuts give the same result, with
any trailer (`sameResult_of_cutsWell`). Compared with such a cut, a cut that is none gives another
result (`cutsWell_of_sameResult`). Here an empty chunked body must have no trailer, which the client
could take for a chunk. `segmentation_sameResult` puts the two together.
-/

set_option autoImplicit false

namespace IstioVendor.Fhttp

open Lib
open Lib.Http

/-- The end of the size line of the last chunk. -/
def lastLineEnd (R : Response) (body : ChunkedBody) : Nat :=
  (R.headers ++ body.chunks.flatMap Chunk.bytes ++ body.last.bytes).length

/-- The reads of a response end where the client can make sense of it. -/
structure CutsWell (R : Response) (pieces : List Bytes) : Prop where
  blank₁ : ¬ IsCut pieces (R.headers.length - 3)
  blank₂ : ¬ IsCut pieces (R.headers.length - 1)
  last : ∀ body, R.body = .chunked body → ∀ s, IsCut pieces s → lastLineEnd R body ≤ s →
    s = R.bytes.length
  empty : ∀ body, R.body = .chunked body → body.chunks = [] →
    ∃ s, IsCut pieces s ∧ R.headers.length ≤ s ∧ s < lastLineEnd R body

variable {body : ChunkedBody} {c' : FastClient} {conn' : Conn} {pieces : List Bytes}

theorem bytes_chunked {R : Response} (hbody : R.body = .chunked body) :
    R.bytes = R.headers ++ body.chunks.flatMap Chunk.bytes ++ body.last.bytes ++ body.tail := by
  rw [Response.bytes, hbody, Body.bytes, ChunkedBody.bytes]
  simp

/-- The last size line is followed by at least one line end. -/
theorem lastLineEnd_add_two_le {R : Response} (hbody : R.body = .chunked body) :
    lastLineEnd R body + 2 ≤ R.bytes.length := by
  have htail : 2 ≤ body.tail.length := by simp [ChunkedBody.tail, crlf]
  rw [bytes_chunked hbody, lastLineEnd]
  simp only [List.length_append]
  omega

theorem lt_lastLineEnd (R : Response) (body : ChunkedBody) :
    R.headers.length < lastLineEnd R body := by
  have : 0 < body.last.bytes.length := by simp [SizeLine.bytes, crlf]
  rw [lastLineEnd, List.length_append, List.length_append]
  omega

section
variable {g : Settings} {R : Response} {pieces : List Bytes} {len : Nat}

/-- The read that completes the headers. -/
theorem exists_headed (hP : pieces.flatten = R.bytes) (hfit : R.bytes.length ≤ len)
    (h1 : ¬ IsCut pieces (R.headers.length - 3)) (h2 : ¬ IsCut pieces (R.headers.length - 1)) :
    ∃ r, Headed g pieces len R.headers.length r
      (framing g len (R.bytes.take r) R.headers.length) := by
  have hex : ∃ s, ReadEnd pieces len s ∧ R.headers.length ≤ s := by
    refine ⟨_, readEnd_min pieces len, ?_⟩
    rw [hP, Nat.min_eq_right hfit, Response.bytes, List.length_append]
    omega
  classical
  -- The first read that ends behind the headers.
  refine ⟨Nat.find hex, (headerEnd_iff_not_cut R hP).mpr ⟨h1, h2⟩, (Nat.find_spec hex).1,
    (Nat.find_spec hex).2, fun s hs hle => Nat.find_min' hex ⟨hs, hle⟩, ?_, by rw [hP]⟩
  rw [hP]
  exact statusCode_bytes R

/-- With a content length, the response is complete at its end. -/
theorem done_length_iff {s : Nat} :
    (Framing.length true R.bytes.length).Done len (R.bytes.take s) ↔ R.bytes.length ≤ s := by
  simp only [Framing.Done, List.length_take]
  omega

/-- In a chunked response that is not empty, the client stops at the last size line. The same
holds in an empty one when that line was not read together with the headers. -/
theorem done_chunks_iff (hg : g.checkConnectionClosedHeader = false)
    (hbody : R.body = .chunked body) (hrec : Recognised R) (hfit : R.bytes.length ≤ len)
    (hlen : len < 2 ^ 63) {r s : Nat} (hr : R.headers.length ≤ r)
    (hempty : body.chunks = [] → r < lastLineEnd R body) :
    (framing g len (R.bytes.take r) R.headers.length).keep = true ∧
    ((framing g len (R.bytes.take r) R.headers.length).Done len (R.bytes.take s) ↔
      lastLineEnd R body ≤ s) := by
  have hbytes := bytes_chunked hbody
  have htail := lastLineEnd_add_two_le hbody
  have hfit' : (R.headers ++ body.chunks.flatMap Chunk.bytes ++ body.last.bytes
      ++ body.tail).length ≤ len := hbytes ▸ hfit
  -- The framing reads the first size line together with the headers when it is there. That moves
  -- the start of the walk behind the first chunk, which a body without chunks does not have.
  cases hchunks : body.chunks with
  | nil =>
    have hlast : lastLineEnd R body = R.headers.length + body.last.bytes.length := by
      simp [lastLineEnd, hchunks]
    have hframe := framing_chunks hg R hbody hrec hr body.last body.tail
      (by rw [hbytes, hchunks]; simp) (by omega) hlen
    rw [if_neg (by have := hempty hchunks; omega)] at hframe
    rw [hframe]
    refine ⟨rfl, ?_⟩
    have := chunkStop_iff body.chunks body.last R.headers body.tail hfit' hlen (s := s)
    rw [← hbytes] at this
    exact this
  | cons c cs =>
    have hsize : c.bytes.length = c.line.bytes.length + c.data.length + 2 := by
      simp [Chunk.bytes, crlf, Nat.add_assoc]
    have hfirst : R.headers.length + c.bytes.length ≤ R.bytes.length := by
      rw [hbytes, hchunks]
      simp only [List.flatMap_cons, List.length_append]
      omega
    have hframe := framing_chunks hg R hbody hrec hr c.line
      (c.data ++ crlf ++ cs.flatMap Chunk.bytes ++ body.last.bytes ++ body.tail)
      (by rw [hbytes, hchunks]; simp [Chunk.bytes]) (by omega) hlen
    rw [hframe]
    refine ⟨rfl, ?_⟩
    have htext : R.headers ++ body.chunks.flatMap Chunk.bytes ++ body.last.bytes ++ body.tail
        = (R.headers ++ c.bytes) ++ cs.flatMap Chunk.bytes ++ body.last.bytes ++ body.tail := by
      rw [hchunks]
      simp
    have hpos : lastLineEnd R body
        = ((R.headers ++ c.bytes) ++ cs.flatMap Chunk.bytes ++ body.last.bytes).length := by
      rw [lastLineEnd, hchunks]
      simp
    split
    · -- The walk starts behind the first chunk.
      have := chunkStop_iff cs body.last (R.headers ++ c.bytes) body.tail (s := s)
        (by rw [← htext]; exact hfit') hlen
      rw [← htext, ← hbytes, ← hpos, List.length_append, hsize] at this
      rw [Framing.Done, ← this, show R.headers.length + c.line.bytes.length + c.data.length + 2
        = R.headers.length + (c.line.bytes.length + c.data.length + 2) by omega]
    -- The size line came later, and the walk starts with it.
    · have := chunkStop_iff body.chunks body.last R.headers body.tail hfit' hlen (s := s)
      rw [← hbytes] at this
      exact this

end

/-- What the client should make of a response: the code, the text, the length of the headers,
and a connection to be kept from which exactly the response was read. -/
structure ReadWhole (R : Response) (c : FastClient) (conn : Conn) : Prop where
  code : c.code = statusOK
  data : c.data = R.bytes
  headerLen : c.headerLen = R.headers.length
  kept : c.socket = some conn
  delivered : conn.delivered.flatten = R.bytes

section
variable {g : Settings} {reused : Bool} {c : FastClient} {conn : Conn} {R : Response}

/-- A read that ends inside the buffer ends a piece. -/
theorem ReadEnd.isCut_of_fit {len s : Nat} (hP : pieces.flatten = R.bytes)
    (hfit : R.bytes.length ≤ len) (h : ReadEnd pieces len s) : IsCut pieces s := by
  rcases h with ⟨hcut, _⟩ | ⟨rfl, hle⟩
  · exact hcut
  · rw [hP] at hle
    rw [Nat.le_antisymm hle hfit, ← hP]
    exact isCut_length pieces

/-- With a good cut, the client keeps the connection, and the response is complete for it at
its end and at no earlier read. -/
theorem framing_of_cutsWell {len r : Nat} {f : Framing}
    (hg : g.checkConnectionClosedHeader = false) (hP : pieces.flatten = R.bytes)
    (hrec : Recognised R) (hfit : R.bytes.length ≤ len) (hlen : len < 2 ^ 63)
    (hcuts : CutsWell R pieces) (hh : Headed g pieces len R.headers.length r f) :
    f.keep = true ∧ ∀ s, ReadEnd pieces len s →
      (f.Done len (R.bytes.take s) ↔ R.bytes.length ≤ s) := by
  have hf := hh.framed
  rw [hP] at hf
  cases hbody : R.body with
  | length content =>
    rw [framing_length hg R hbody hrec hh.le hfit hlen] at hf
    rw [← hf]
    exact ⟨rfl, fun s _ => done_length_iff⟩
  | chunked body =>
    have htail := lastLineEnd_add_two_le hbody
    -- The read with the headers is no later than the one that ends before the only size line.
    have hempty : body.chunks = [] → r < lastLineEnd R body := fun hnil => by
      obtain ⟨s, hcut, hle, hlt⟩ := hcuts.empty body hbody hnil
      exact Nat.lt_of_le_of_lt (hh.first s (.inl ⟨hcut, by omega⟩) hle) hlt
    have hiff := fun s => done_chunks_iff hg hbody hrec hfit hlen hh.le hempty (s := s)
    rw [hf] at hiff
    refine ⟨(hiff 0).1, fun s hs => (hiff s).2.trans ⟨fun hle => ?_, fun hle => by omega⟩⟩
    exact Nat.le_of_eq (hcuts.last body hbody s (ReadEnd.isCut_of_fit hP hfit hs) hle).symm

/-- With a good cut, the client reads the response whole. -/
theorem readResponse_of_cutsWell (reused : Bool) (hg : g.checkConnectionClosedHeader = false)
    (hs : Starting c conn) (hparse : c.parseHeaders = true) (hkeep : c.keepAlive = true)
    (hR : conn.pending.flatten = R.bytes) (hrec : Recognised R)
    (hfit : R.bytes.length ≤ c.buffer.length) (hcuts : CutsWell R conn.pending) :
    ∃ c' conn', Responds g c conn reused (.returned c' conn') ∧ ReadWhole R c' conn' := by
  obtain ⟨r, hh⟩ := exists_headed (g := g) hR hfit hcuts.blank₁ hcuts.blank₂
  have hhead : R.headers.length ≤ R.bytes.length := by
    rw [Response.bytes, List.length_append]
    omega
  have hend : ReadEnd conn.pending c.buffer.length R.bytes.length := by
    have := readEnd_min conn.pending c.buffer.length
    rwa [hR, Nat.min_eq_right hfit] at this
  obtain ⟨hk, hdone⟩ := framing_of_cutsWell hg hR hrec hfit c.length_lt hcuts hh
  obtain ⟨s, c', conn', hout, _, hle, hnow, hfinal⟩ := exists_done reused hs hparse hkeep hh hend
    (hh.first _ hend hhead) (by rw [hR]; exact (hdone _ hend).mpr (Nat.le_refl _))
  rw [hR] at hnow
  obtain rfl : s = R.bytes.length := Nat.le_antisymm hle ((hdone s hfinal.readEnd).mp hnow)
  refine ⟨c', conn', hout, hfinal.code, ?_, ?_, ?_, ?_⟩
  · rw [hfinal.data, hR, List.take_length]
  · exact hfinal.headerLen hparse hh.status _ hh.headerEnd hhead
  · rw [hfinal.socket, hk, if_pos rfl]
  · rw [hfinal.delivered, hR, List.take_length]

/-- When the size line of an empty chunked body is read together with the headers, the
client waits for another chunk behind the end of the response. -/
theorem not_done_of_empty (hg : g.checkConnectionClosedHeader = false)
    (hbody : R.body = .chunked body) (hchunks : body.chunks = []) (htrailer : body.trailer = [])
    (hrec : Recognised R) {len r : Nat} (hfit : R.bytes.length ≤ len) (hlen : len < 2 ^ 63)
    (hr : lastLineEnd R body ≤ r) :
    ¬ (framing g len (R.bytes.take r) R.headers.length).Done len
      (R.bytes.take R.bytes.length) := by
  have hbytes : R.bytes = R.headers ++ body.last.bytes ++ body.tail := by
    rw [bytes_chunked hbody, hchunks]
    simp
  have hlast : lastLineEnd R body = R.headers.length + body.last.bytes.length := by
    simp [lastLineEnd, hchunks]
  have hsize : R.bytes.length = R.headers.length + body.last.bytes.length + 2 := by
    rw [hbytes]
    simp [ChunkedBody.tail, htrailer, crlf]
    omega
  rw [framing_chunks hg R hbody hrec (by omega) body.last body.tail hbytes (by omega) hlen,
    if_pos (by omega), List.take_length, Nat.add_zero, ← hsize]
  -- The walk starts at the end of the stream, and there is no size line.
  refine ChunkWalk.not_stop_of_wait .refl (.inr ⟨by omega, ?_⟩)
  rw [Int.toNat_natCast, List.drop_length, parseChunkSize_nil]

/-- A response that was read whole and kept, without another read, was complete for the
client at its last byte, and at no earlier read. -/
theorem ReadWhole.headed (hs : Starting c conn) (hparse : c.parseHeaders = true)
    (hR : conn.pending.flatten = R.bytes) (hsilent : conn.ending = none)
    (hout : Responds g c conn reused (.returned c' conn')) (hwhole : ReadWhole R c' conn') :
    ∃ r f, Headed g conn.pending c.buffer.length R.headers.length r f ∧
      f.Done c.buffer.length (R.bytes.take R.bytes.length) ∧
      ∀ s, ReadEnd conn.pending c.buffer.length s → r ≤ s → s < R.bytes.length →
        ¬ f.Done c.buffer.length (R.bytes.take s) := by
  cases responds_ended hs hout with
  | returned s code keep _ _ reason final =>
    have hk := final.keep_of_socket hs hwhole.kept
    -- Exactly the response was read, so the last read ends with it.
    have hs' : s = R.bytes.length := by
      have hlen := congrArg List.length (final.delivered.symm.trans hwhole.delivered)
      have hle := final.readEnd.le_length
      rw [List.length_take] at hlen
      omega
    rcases reason.keep_cases hparse hk with ⟨_, heof⟩ | ⟨h, r, f, headed, _, le, now, before⟩
    · -- The server is silent, so the client did not see the end of the stream.
      exact nomatch hsilent.symm.trans heof
    · subst hs'
      have hhl := final.headerLen hparse headed.status h headed.headerEnd (headed.le.trans le)
      rw [hwhole.headerLen] at hhl
      rw [hR] at now before
      exact ⟨r, f, hhl ▸ headed, now, before⟩

/-- A client that reads the response whole, without waiting for more, has a good cut. The
trailer of an empty chunked body is excluded: the client takes it for the next chunk. -/
theorem cutsWell_of_readWhole (hg : g.checkConnectionClosedHeader = false) (hs : Starting c conn)
    (hparse : c.parseHeaders = true) (hR : conn.pending.flatten = R.bytes) (hrec : Recognised R)
    (hfit : R.bytes.length ≤ c.buffer.length) (hsilent : conn.ending = none)
    (htrailer : ∀ body, R.body = .chunked body → body.chunks = [] → body.trailer = [])
    (hout : Responds g c conn reused (.returned c' conn')) (hwhole : ReadWhole R c' conn') :
    CutsWell R conn.pending := by
  obtain ⟨r, f, hh, hnow, hbefore⟩ := hwhole.headed hs hparse hR hsilent hout
  obtain ⟨h1, h2⟩ := (headerEnd_iff_not_cut R hR).mp hh.headerEnd
  have hf := hh.framed
  rw [hR] at hf
  -- In an empty body, the headers came without the size line.
  have hempty : ∀ body, R.body = .chunked body → body.chunks = [] → r < lastLineEnd R body := by
    intro body hbody hnil
    by_contra hge
    refine not_done_of_empty hg hbody hnil (htrailer body hbody hnil) hrec hfit c.length_lt
      (Nat.not_lt.mp hge) ?_
    rw [hf]
    exact hnow
  refine ⟨h1, h2, fun body hbody s hcut hle => ?_, fun body hbody hnil => ?_⟩
  -- A cut between the last size line and the end would have been the end for the client.
  · by_contra hne
    have hlt : s < R.bytes.length := Nat.lt_of_le_of_ne (hR ▸ hcut.le) hne
    have hend : ReadEnd conn.pending c.buffer.length s := .inl ⟨hcut, by omega⟩
    have hr : r ≤ s := hh.first s hend (by have := lt_lastLineEnd R body; omega)
    refine hbefore s hend hr hlt ?_
    rw [← hf]
    exact (done_chunks_iff hg hbody hrec hfit c.length_lt hh.le (hempty body hbody)).2.mpr hle
  · exact ⟨r, ReadEnd.isCut_of_fit hR hfit hh.readEnd, hh.le, hempty body hbody hnil⟩

/-- A connection that `readResponse` returns is kept, or the client holds none. -/
theorem Responds.socket_cases (hs : Starting c conn)
    (hout : Responds g c conn reused (.returned c' conn')) :
    c'.socket = some conn' ∨ c'.socket = none := by
  cases responds_ended hs hout with
  | returned s code keep _ _ _ final =>
    have := final.socket
    cases keep with
    | true => exact .inl this
    | false => exact .inr (this.trans hs.socket)

/-- On both connections `readResponse` returns after exactly the response, and it returns the
same code, the same data, the same length of the headers, and the same decision about the
connection. -/
def SameResult (g : Settings) (reused : Bool) (c : FastClient) (R : Response)
    (conn₁ conn₂ : Conn) : Prop :=
  ∃ passes₁ passes₂ c₁ c₂ conn₁' conn₂',
    c.readResponse g passes₁ conn₁ reused = some (.returned c₁ conn₁') ∧
    c.readResponse g passes₂ conn₂ reused = some (.returned c₂ conn₂') ∧
    c₁.code = c₂.code ∧ c₁.data = c₂.data ∧ c₁.headerLen = c₂.headerLen ∧
    c₁.socket.isSome = c₂.socket.isSome ∧
    conn₁'.delivered.flatten = R.bytes ∧ conn₂'.delivered.flatten = R.bytes

end

section
variable {g : Settings} {reused : Bool} {c : FastClient} {conn₁ conn₂ : Conn} {R : Response}

/-- Two good cuts give the same result: both are read whole. The server may send nothing more, or
close the connection, since the client asks for nothing more. -/
theorem sameResult_of_cutsWell (hg : g.checkConnectionClosedHeader = false)
    (hs₁ : Starting c conn₁) (hs₂ : Starting c conn₂) (hparse : c.parseHeaders = true)
    (hkeep : c.keepAlive = true) (hR₁ : conn₁.pending.flatten = R.bytes)
    (hR₂ : conn₂.pending.flatten = R.bytes) (hrec : Recognised R)
    (hfit : R.bytes.length ≤ c.buffer.length) (hcuts₁ : CutsWell R conn₁.pending)
    (hcuts₂ : CutsWell R conn₂.pending) : SameResult g reused c R conn₁ conn₂ := by
  obtain ⟨c₁, conn₁', hout₁, hwhole₁⟩ :=
    readResponse_of_cutsWell reused hg hs₁ hparse hkeep hR₁ hrec hfit hcuts₁
  obtain ⟨c₂, conn₂', hout₂, hwhole₂⟩ :=
    readResponse_of_cutsWell reused hg hs₂ hparse hkeep hR₂ hrec hfit hcuts₂
  obtain ⟨passes₁, heq₁⟩ := readResponse_eq_some_iff.mpr hout₁
  obtain ⟨passes₂, heq₂⟩ := readResponse_eq_some_iff.mpr hout₂
  refine ⟨passes₁, passes₂, c₁, c₂, conn₁', conn₂', heq₁, heq₂,
    hwhole₁.code.trans hwhole₂.code.symm, hwhole₁.data.trans hwhole₂.data.symm,
    hwhole₁.headerLen.trans hwhole₂.headerLen.symm, ?_, hwhole₁.delivered, hwhole₂.delivered⟩
  rw [hwhole₁.kept, hwhole₂.kept]
  rfl

/-- A cut that gives the same result as a good one is good. The result of the good cut is known, so
that the response was read whole from the other cut too. -/
theorem cutsWell_of_sameResult (hg : g.checkConnectionClosedHeader = false)
    (hs₁ : Starting c conn₁) (hs₂ : Starting c conn₂) (hparse : c.parseHeaders = true)
    (hkeep : c.keepAlive = true) (hR₁ : conn₁.pending.flatten = R.bytes)
    (hR₂ : conn₂.pending.flatten = R.bytes) (hrec : Recognised R)
    (hfit : R.bytes.length ≤ c.buffer.length) (hsilent : conn₁.ending = none)
    (htrailer : ∀ body, R.body = .chunked body → body.chunks = [] → body.trailer = [])
    (hcuts₂ : CutsWell R conn₂.pending) (hsame : SameResult g reused c R conn₁ conn₂) :
    CutsWell R conn₁.pending := by
  obtain ⟨c₂, conn₂', hout₂, hwhole₂⟩ :=
    readResponse_of_cutsWell reused hg hs₂ hparse hkeep hR₂ hrec hfit hcuts₂
  obtain ⟨passes₁, passes₂, c₁, c₂', conn₁', conn₂'', heq₁, heq₂, hcode, hdata, hhl, hsock,
    hdel, _⟩ := hsame
  have hout₁ := readResponse_eq_some_iff.mp ⟨passes₁, heq₁⟩
  obtain ⟨rfl, rfl⟩ := (Outcome.returned.injEq ..).mp
    (hout₂.unique (readResponse_eq_some_iff.mp ⟨passes₂, heq₂⟩))
  refine cutsWell_of_readWhole hg hs₁ hparse hR₁ hrec hfit hsilent htrailer hout₁
    ⟨hcode.trans hwhole₂.code, hdata.trans hwhole₂.data, hhl.trans hwhole₂.headerLen, ?_, hdel⟩
  refine (Responds.socket_cases hs₁ hout₁).resolve_right fun hnone => ?_
  rw [hnone, hwhole₂.kept] at hsock
  exact nomatch hsock

end

/-- Two deliveries of one response that fits into the buffer. When its framing field is recognised
and both cuts are good, they give the same result. And from a server that sends nothing more,
compared with a good cut, a cut gives the same result only when it is good, unless a trailer stands
behind an empty chunked body. -/
theorem segmentation_sameResult (g : Settings) (reused : Bool) (c : FastClient)
    (conn₁ conn₂ : Conn) (R : Response) (hg : g.checkConnectionClosedHeader = false)
    (hs₁ : Starting c conn₁) (hs₂ : Starting c conn₂) (hparse : c.parseHeaders = true)
    (hkeep : c.keepAlive = true) (hR₁ : conn₁.pending.flatten = R.bytes)
    (hR₂ : conn₂.pending.flatten = R.bytes) (hfit : R.bytes.length ≤ c.buffer.length) :
    (Recognised R → CutsWell R conn₁.pending → CutsWell R conn₂.pending →
      SameResult g reused c R conn₁ conn₂) ∧
    (Recognised R → CutsWell R conn₂.pending → conn₁.ending = none →
      (∀ body, R.body = .chunked body → body.chunks = [] → body.trailer = []) →
      (SameResult g reused c R conn₁ conn₂ ↔ CutsWell R conn₁.pending)) := by
  have hgood : Recognised R → CutsWell R conn₁.pending → CutsWell R conn₂.pending →
      SameResult g reused c R conn₁ conn₂ := fun hrec hcuts₁ hcuts₂ =>
    sameResult_of_cutsWell hg hs₁ hs₂ hparse hkeep hR₁ hR₂ hrec hfit hcuts₁ hcuts₂
  refine ⟨hgood, fun hrec hcuts₂ hsilent htrailer => ⟨fun hsame => ?_, fun hcuts₁ => ?_⟩⟩
  · exact cutsWell_of_sameResult hg hs₁ hs₂ hparse hkeep hR₁ hR₂ hrec hfit hsilent htrailer
      hcuts₂ hsame
  · exact hgood hrec hcuts₁ hcuts₂

/-- A chunked response without chunks, with a trailer. -/
def trailedResponse : Response :=
  { helloResponse with
    body := .chunked {
      chunks := []
      last := zeroLine
      trailer := [⟨ascii "Expires", ascii " never", by decide, by decide, by decide, by decide⟩] } }

/-- `trailedResponse` in two reads, with a part of the size line in the first one. -/
def trailedInTwo : List Bytes :=
  [ascii "HTTP/1.1 200 OK\r\nTransfer-Encoding: chunked\r\n\r\n0",
    ascii "\r\nExpires: never\r\n\r\n"]

/-- `trailedResponse` in three reads, with the headers in two of them. -/
def trailedInThree : List Bytes :=
  [ascii "HTTP/1.1 200 OK\r\nTransfer", ascii "-Encoding: chunked\r\n\r\n",
    ascii "0\r\nExpires: never\r\n\r\n"]

/-- The good cuts of `trailedResponse`, whose headers have 47 bytes and whose size line ends at 50. -/
theorem cutsWell_trailed (hbytes : pieces.flatten = trailedResponse.bytes)
    (hblank : ¬ IsCut pieces 44 ∧ ¬ IsCut pieces 46) (hlast : ∀ s < 68, 50 ≤ s → ¬ IsCut pieces s)
    (hempty : ∃ s < 50, IsCut pieces s ∧ 47 ≤ s) : CutsWell trailedResponse pieces where
  blank₁ := hblank.1
  blank₂ := hblank.2
  last := by
    intro body hbody s hcut hle
    obtain rfl := (Body.chunked.injEq _ _).mp hbody
    have hlen : pieces.flatten.length = 68 := by
      rw [hbytes]
      decide +kernel
    have hend : s ≤ 68 := hlen ▸ hcut.le
    rw [← hbytes, hlen]
    by_contra hne
    exact hlast s (by omega) hle hcut
  empty := by
    intro body hbody _
    obtain rfl := (Body.chunked.injEq _ _).mp hbody
    obtain ⟨s, hlt, hcut, hge⟩ := hempty
    exact ⟨s, hcut, hge, hlt⟩

theorem segmentation_trailed :
    SameResult quiet false (.idle 200 (by decide)) trailedResponse
      (.arriving trailedInTwo none (by decide)) (.arriving trailedInThree none (by decide)) := by
  refine (segmentation_sameResult quiet false _ _ _ trailedResponse rfl starting_idle starting_idle
    rfl rfl (by decide +kernel) (by decide +kernel) (by decide +kernel)).1 ?_ ?_ ?_
  · exact ⟨chunkedField, List.mem_singleton_self _, by unfold Field.Named; decide, by decide⟩
  · exact cutsWell_trailed (by decide +kernel) (by decide +kernel) (by decide +kernel)
      ⟨48, by decide, by decide +kernel, by decide⟩
  · exact cutsWell_trailed (by decide +kernel) (by decide +kernel) (by decide +kernel)
      ⟨47, by decide, by decide +kernel, by decide⟩

/-- `greeting` with the line end of the blank line in two reads. -/
def greetingSplit : List Bytes :=
  [ascii "HTTP/1.1 200 OK\r\nContent-Length: 2\r\n\r", ascii "\nhi"]

/-- The client does not see the end of the headers, and it waits for more when it has the whole
response. -/
theorem not_sameResult_greetingSplit :
    greeting.flatten = greetingResponse.bytes ∧ greetingSplit.flatten = greetingResponse.bytes ∧
    greetingResponse.bytes.length ≤ 64 ∧
    ¬ SameResult quiet false (.idle 64 (by decide)) greetingResponse
      (.arriving greetingSplit none (by decide)) (.arriving greeting none (by decide)) := by
  refine ⟨by decide +kernel, by decide +kernel, by decide +kernel, ?_⟩
  rintro ⟨passes₁, passes₂, c₁, c₂, conn₁', conn₂', heq₁, _⟩
  have hblocked : (FastClient.idle 64 (by decide)).readResponse quiet 3
      (.arriving greetingSplit none (by decide)) false = some .blocked := by
    decide +kernel
  exact nomatch (readResponse_eq_some_iff.mp ⟨passes₁, heq₁⟩).unique
    (readResponse_eq_some_iff.mp ⟨3, hblocked⟩)

end IstioVendor.Fhttp
