import IstioVendor.Proofs.Fhttp.Framing

/-!
# `IstioVendor.Proofs.Fhttp.PassSteps`: what one pass of `readResponse` reads and finds

One lemma for each of the first two steps of a pass. `readMore_cases` lists what the read at
the top of the loop can do, and `Received` says how far the stream has been read.
`parseHeaders_cases` lists what the header part can do, in terms of the header scan.
Both say that no slice expression in their step is out of bounds.
-/

set_option autoImplicit false

namespace IstioVendor.Fhttp

open Lib

/-! ### One read -/

/-- How far the stream `pieces` has been read from `conn` into a buffer of `len` bytes:
`data` is read, whole pieces at a time unless the buffer is full. -/
structure Received (pieces : List Bytes) (len : Nat) (conn : Conn) (data : Bytes) : Prop where
  delivered : conn.delivered.flatten = data
  stream : data ++ conn.pending.flatten = pieces.flatten
  le : data.length ≤ len
  whole : conn.delivered ++ conn.pending = pieces ∨ data.length = len

variable {conn : Conn} {data : Bytes} {len : Nat} {pieces : List Bytes}

section
variable (h : Received pieces len conn data)
include h

theorem Received.take : data = pieces.flatten.take data.length := by
  rw [← h.stream, List.take_left]

theorem Received.le_length : data.length ≤ pieces.flatten.length := by
  rw [← h.stream, List.length_append]
  omega

theorem Received.readEnd : ReadEnd pieces len data.length := by
  -- As long as the buffer has room, what was delivered are the first pieces, whole.
  rcases h.whole with hw | hfull
  · left
    refine ⟨?_, h.le⟩
    rw [← h.delivered, ← hw]
    exact isCut_append _ _
  · right
    refine ⟨hfull, ?_⟩
    rw [← hfull]
    exact h.le_length

/-- When nothing is pending, the whole stream is read. -/
theorem Received.all (hnil : conn.pending = []) : data = pieces.flatten := by
  have := h.stream
  rwa [hnil, List.flatten_nil, List.append_nil] at this

end

/-- A read into a slice that is not empty: the peer is silent, the read fails, or it returns
the next piece, or as much of it as fits. -/
theorem Conn.read_cases (conn : Conn) (room : Nat) (hroom : 0 < room) :
    (conn.pending = [] ∧ conn.ending = none ∧ conn.read room = (.silent, conn)) ∨
    (∃ e, conn.pending = [] ∧ conn.ending = some e ∧ conn.read room = (.failed e, conn)) ∨
    (∃ p fits conn' q rest, conn.read room = (.bytes p fits, conn') ∧ p ≠ [] ∧
      conn'.ending = conn.ending ∧ conn'.closed = conn.closed ∧
      conn'.delivered = conn.delivered ++ [p] ∧ conn.pending = (p ++ q) :: rest ∧
      conn'.pending.flatten = q ++ rest.flatten ∧
      (q = [] ∧ conn'.pending = rest ∨ p.length = room)) := by
  unfold Conn.read
  rw [if_neg (by omega)]
  split
  · rename_i hnil
    cases he : conn.ending with
    | none => exact .inl ⟨hnil, rfl, rfl⟩
    | some e => exact .inr (.inl ⟨e, hnil, rfl, rfl⟩)
  · rename_i p rest hcons
    right; right
    have hne : p ≠ [] := conn.pending_ne p (by simp [hcons])
    -- The next piece fits, or it fills the slice and its rest `q` stays.
    by_cases hfit : p.length ≤ room
    · rw [dif_pos hfit]
      exact ⟨p, hfit, _, [], rest, rfl, hne, rfl, rfl, rfl, by simpa using hcons, by simp,
        .inl ⟨rfl, rfl⟩⟩
    · rw [dif_neg hfit]
      refine ⟨p.take room, by simp, _, p.drop room, rest, rfl, ?_, rfl, rfl, rfl, ?_, by simp,
        .inr ?_⟩
      · rw [Ne, List.take_eq_nil_iff]
        exact not_or.mpr ⟨by omega, hne⟩
      · rw [List.take_append_drop]
        exact hcons
      · rw [List.length_take]
        omega

/-- A read that returns bytes: `Received` holds of the longer data, and no piece ends
strictly inside what was read. -/
theorem Received.read {conn' : Conn} {p q : Bytes} {rest : List Bytes}
    (h : Received pieces len conn data) (hlt : data.length < len)
    (hp : p.length ≤ len - data.length) (hd : conn'.delivered = conn.delivered ++ [p])
    (hpend : conn.pending = (p ++ q) :: rest) (hpend' : conn'.pending.flatten = q ++ rest.flatten)
    (hend : q = [] ∧ conn'.pending = rest ∨ p.length = len - data.length) :
    Received pieces len conn' (data ++ p) ∧
      ∀ n, data.length < n → n < data.length + p.length → ¬ IsCut pieces n := by
  -- There was room before the read, so the pieces were whole up to here.
  have hw : conn.delivered ++ (p ++ q) :: rest = pieces := by
    rw [← hpend]
    exact h.whole.resolve_right (by omega)
  refine ⟨⟨?_, ?_, ?_, ?_⟩, ?_⟩
  · rw [hd, List.flatten_append, h.delivered]
    simp
  · rw [← h.stream, hpend, hpend']
    simp
  · rw [List.length_append]
    omega
  · rcases hend with ⟨rfl, hrest⟩ | hfull
    · left
      rw [hd, hrest, ← hw]
      simp
    · right
      rw [List.length_append]
      omega
  -- What was read lies inside one piece.
  · intro n hlo hhi
    rw [← hw]
    apply not_isCut_inside
    · rwa [h.delivered]
    · rw [h.delivered, List.length_append]
      omega

@[simp] theorem FastClient.length_append (c : FastClient) (p : Bytes) (fits : p.length ≤ c.room) :
    (c.append p fits).buffer.length = c.buffer.length := by
  unfold FastClient.room at fits
  simp only [FastClient.append, List.length_append, List.length_take, List.length_drop]
  omega

@[simp] theorem FastClient.data_append (c : FastClient) (p : Bytes) (fits : p.length ≤ c.room) :
    (c.append p fits).data = c.data ++ p := by
  have hlen : (c.buffer.take c.size ++ p).length = c.size + p.length := by
    have := c.size_le
    rw [List.length_append, List.length_take]
    omega
  simp only [FastClient.data, FastClient.append]
  rw [← hlen, List.take_left]

/-- The client after a read that returned nothing. -/
@[simp] theorem FastClient.append_nil (c : FastClient) (fits : [].length ≤ c.room) :
    c.append [] fits = c := by
  cases c
  simp [FastClient.append]

/-- `st'` is `st` after a read that returned bytes. -/
structure Grown (pieces : List Bytes) (len : Nat) (st st' : Reading) : Prop where
  eq : ∃ p fits conn, st' = { st with c := st.c.append p fits, conn := conn } ∧ p ≠ []
  ending : st'.conn.ending = st.conn.ending
  closed : st'.conn.closed = st.conn.closed
  received : Received pieces len st'.conn st'.c.data
  inside : ∀ n, st.c.size < n → n < st'.c.size → ¬ IsCut pieces n

/-- The read at the top of a pass: into a full buffer, or blocked, or failed, or with some
bytes. No slice expression in it is out of bounds. -/
theorem readMore_cases (g : Settings) (reused : Bool) (st : Reading) (hskip : st.skipRead = false)
    (hr : Received pieces st.c.buffer.length st.conn st.c.data) :
    (st.c.size = st.c.buffer.length ∧ readMore g reused st = .ok st) ∨
    (st.c.size < st.c.buffer.length ∧ st.conn.pending = [] ∧ st.conn.ending = none ∧
      readMore g reused st = .error .blocked) ∨
    (∃ e, st.c.size < st.c.buffer.length ∧ st.conn.pending = [] ∧ st.conn.ending = some e ∧
      readMore g reused st = .error (readFailed reused e st)) ∨
    (∃ st', st.c.size < st.c.buffer.length ∧ readMore g reused st = .ok st' ∧
      Grown pieces st.c.buffer.length st st') := by
  have hle := st.c.size_le
  have hdata := st.c.length_data
  -- The log argument is what was read, `c.buffer[c.size-n:c.size]`.
  have hlog : ∀ p (fits : p.length ≤ st.c.room), logSlice g.logDebug (st.c.append p fits).buffer
      ((st.c.append p fits).size - p.length) (st.c.append p fits).size = .ok () := by
    intro p fits
    have h := logSlice_nat g.logDebug (st.c.append p fits).buffer st.c.size
      (st.c.append p fits).size (Nat.le_add_right _ _) (st.c.append p fits).size_le
    have hcast : ((st.c.append p fits).size : Int) - p.length = st.c.size := by
      simp [FastClient.append]
    rwa [hcast]
  have hslice := slice_nat st.c.buffer st.c.size st.c.buffer.length hle (Nat.le_refl _)
  rw [readMore, if_neg (by simp [hskip])]
  simp only [hslice, bind, Except.bind]
  by_cases hfull : st.c.size = st.c.buffer.length
  -- A read into an empty slice returns at once, and the state is as before.
  · left
    refine ⟨hfull, ?_⟩
    have hroom : st.c.room = 0 := by unfold FastClient.room; omega
    have hread : st.conn.read st.c.room = (.bytes [] (Nat.zero_le _), st.conn) := by
      unfold Conn.read
      rw [if_pos hroom]
    simp only [hread, hlog]
    simp only [FastClient.append_nil]
  · right
    have hlt : st.c.size < st.c.buffer.length := by omega
    have hroom : 0 < st.c.room := by unfold FastClient.room; omega
    rcases st.conn.read_cases st.c.room hroom with ⟨hnil, he, hread⟩ | ⟨e, hnil, he, hread⟩ |
      ⟨p, fits, conn', q, rest, hread, hne, hending, hclosed, hd, hpend, hpend', hend⟩
    · rw [hread]
      exact .inl ⟨hlt, hnil, he, rfl⟩
    · rw [hread]
      exact .inr (.inl ⟨e, hlt, hnil, he, rfl⟩)
    · simp only [hread, hlog]
      right; right
      refine ⟨_, hlt, rfl, ?_⟩
      have hfits : p.length ≤ st.c.buffer.length - st.c.data.length := by rwa [hdata]
      obtain ⟨hrec, hin⟩ := hr.read (by omega) hfits hd hpend hpend' (by rwa [hdata])
      exact ⟨⟨p, fits, conn', rfl, hne⟩, hending, hclosed, by simpa using hrec,
        by rwa [hdata] at hin⟩

/-! ### The header part of a pass -/

/-- The status code in the first bytes of a response, as the client reads it. -/
def statusCode (data : Bytes) : Int :=
  parseDecimal ((data.take (retcodeOffset + 3)).drop retcodeOffset)

/-- The header part of a pass, once the status code has arrived: a code other than `200`, or
a scan to the end of the data, or the end of the headers. -/
theorem parseHeaders_cases (g : Settings) (st : Reading) {start : Nat}
    (hparsed : st.parsedHeaders = false) (hparse : st.c.parseHeaders = true)
    (hsize : retcodeOffset + 3 ≤ st.c.size)
    (hr : Received pieces st.c.buffer.length st.conn st.c.data)
    (hpos : retcodeOffset + 3 ≤ st.endofHeadersStart) (hstart : start ≤ st.endofHeadersStart)
    (hle : st.endofHeadersStart ≤ st.c.size)
    (hcut : ∀ q, start < q → q < st.c.size → ¬ IsCut pieces q)
    (hscan : Scanned pieces st.endofHeadersStart st.c.headerLen) :
    (statusCode st.c.data ≠ statusOK ∧ parseHeaders g st
      = .error (.brk { st with c := { st.c with code := statusCode st.c.data } })) ∨
    (statusCode st.c.data = statusOK ∧ ∃ headerLen e, e ≤ st.c.size ∧ st.c.size ≤ e + 1 ∧
      Scanned pieces e headerLen ∧ parseHeaders g st = .ok { st with
        c := { st.c with code := statusOK, headerLen := headerLen }
        endofHeadersStart := st.c.size }) ∨
    (statusCode st.c.data = statusOK ∧ ∃ headerLen st', HeaderEnd pieces headerLen ∧
      headerLen ≤ st.c.size ∧
      st' = { st with
        c := { st.c with code := statusOK, headerLen := headerLen }
        endofHeadersStart := st.c.size
        parsedHeaders := true } ∧
      parseHeaders g st = if st.keepAlive then frameBody g st' else .ok st') := by
  have hdigits : slice st.c.buffer retcodeOffset (retcodeOffset + 3)
      = .ok ((st.c.data.take (retcodeOffset + 3)).drop retcodeOffset) :=
    st.c.slice_data retcodeOffset (retcodeOffset + 3) (Nat.le_add_right _ _) hsize
  have hlog12 : logSlice true st.c.buffer 0 (retcodeOffset + 3) = .ok () :=
    logSlice_nat true st.c.buffer 0 (retcodeOffset + 3) (Nat.zero_le _)
      (hsize.trans st.c.size_le)
  have hdata : st.c.buffer.take st.c.size = pieces.flatten.take st.c.size := by
    have := hr.take
    rwa [st.c.length_data] at this
  have hin : st.c.size ≤ pieces.flatten.length := st.c.length_data ▸ hr.le_length
  unfold parseHeaders
  simp only [hparsed, hparse, hsize, Bool.not_false, Bool.and_true, decide_true, if_true,
    hdigits, bind, Except.bind]
  by_cases hcode : statusCode st.c.data = statusOK
  · right
    have hparsed' := hcode
    unfold statusCode at hparsed'
    simp only [hparsed', ne_eq, not_true_eq_false, if_false]
    -- The scan has the new bytes as its window: no piece ends inside them.
    rcases scanHeaders_window hdata hin hcut st.c.size st.endofHeadersStart st.c.headerLen hpos
      hstart hle hscan (by omega) with ⟨hl, e, hres, he, he', hs⟩ | ⟨hl, hres, hend, hend'⟩
    · left
      refine ⟨hcode, hl, e, he, he', hs, ?_⟩
      simp [hres]
    · right
      have hlog := logSlice_nat g.logDebug st.c.buffer 0 (hl + 2) (Nat.zero_le _)
        (by have := st.c.size_le; omega)
      rw [Nat.cast_zero] at hlog
      refine ⟨hcode, hl + 4, _, hend, hend', rfl, ?_⟩
      simp only [hres, if_true, hlog]
  · left
    refine ⟨hcode, ?_⟩
    have hcode' := hcode
    unfold statusCode at hcode'
    simp only [ne_eq, hcode', not_false_eq_true, if_true, hlog12]
    rfl

end IstioVendor.Fhttp
