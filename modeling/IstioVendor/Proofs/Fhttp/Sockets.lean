import IstioVendor.Lib.Transitions
import IstioVendor.Proofs.Fhttp.Fetch

/-!
# `IstioVendor.Proofs.Fhttp.Sockets`: the connections of a fast client

After a call of `Fetch` every connection should be closed, except the one that the client keeps in
`socket`. `readResponse` closes or keeps its connection in every case, and a reused connection
that is dead is closed before the second try. Three exits of `Fetch` do neither: a request that
cannot be written on a new connection, a request of which only a part was written, and a write
side that cannot be closed. The connection is open then, and nothing refers to it any more.

`attempted_of_fetch` lists the exits with what they leave open. `noLeak_iff` says that the
connections are closed as they should in every run of calls in which no call takes one of the
three exits, and that the first call that takes one leaves a connection open.
-/

set_option autoImplicit false

namespace IstioVendor.Fhttp

open Lib

/-! ### The exits of `Fetch` -/

/-- A reused connection ends before the first byte of the answer. -/
def Attempt.dead (a : Attempt) (c : FastClient) : Bool :=
  (c.stream a).isEmpty && a.ending.isSome && decide (0 < c.buffer.length)

/-- The connection of an attempt. -/
inductive InHand (c : FastClient) (a : Attempt) : Conn → Prop where
  | reused {conn : Conn} (socket : c.socket = some conn) : InHand c a conn
  | dialed (socket : c.socket = none) (dial : a.dialOk = true) : InHand c a .dialed

/-- The exits of one call, with the connections it leaves. -/
inductive Attempted (g : Settings) (net : Nat → Attempt) (passes depth k : Nat) (c : FastClient)
    (used : List Conn) (c' : FastClient) (used' : List Conn) : Prop where
  | undialed (socket : c.socket = none) (dial : (net k).dialOk = false) (none : c'.socket = none)
      (used_eq : used' = used)
  -- A new connection on which the request cannot be written, or any connection on which it was
  -- not written in full.
  | left (conn : Conn) (hand : InHand c (net k) conn)
      (unsent : if (net k).writes then (net k).delivers c = false else c.socket = none)
      (none : c'.socket = none) (used_eq : used' = used ++ [conn])
  | answered (conn conn' : Conn) (hand : InHand c (net k) conn) (writes : (net k).writes = true)
      (delivers : (net k).delivers c = true)
      (alive : c.socket.isSome = true → (net k).dead c = false)
      (kept : c'.socket = some conn' ∧ conn'.closed = conn.closed ∨
        c'.socket = none ∧ conn'.closed = true)
      (used_eq : used' = used ++ [conn'])
  | retried (conn conn' : Conn) (c₂ : FastClient) (socket : c.socket = some conn)
      (closed : conn'.closed = true)
      (why : (net k).writes = true → (net k).delivers c = true ∧ (net k).dead c = true)
      (none : c₂.socket = none) (req : c₂.req = c.req) (keepAlive : c₂.keepAlive = c.keepAlive)
      (halfClose : c₂.halfClose = c.halfClose)
      (again : c₂.fetch g net passes depth (k + 1) (used ++ [conn']) = some (.returned c' used'))

section
variable {g : Settings} {c c' : FastClient} {conn conn' : Conn}

/-- The read of the first pass. -/
theorem readMore_start (hs : Starting c conn) (reused : Bool) :
    (c.buffer.length = 0 ∧ readMore g reused (startReading c conn) = .ok (startReading c conn)) ∨
    0 < c.buffer.length ∧ ((conn.ending = none ∨ conn.pending ≠ []) ∨
      ∃ e, readMore g reused (startReading c conn)
        = .error (readFailed reused e (startReading c conn))) := by
  have hreceived := (inv_start (g := g) hs).base.received
  have hsize : (startReading c conn).c.size = 0 := hs.size
  rcases readMore_cases g reused (startReading c conn) rfl hreceived with
    ⟨hfull, hok⟩ | ⟨hlt, -, hending, -⟩ | ⟨e, hlt, -, -, hfailed⟩ | ⟨st', hlt, -, hgrown⟩
  · exact .inl ⟨hfull.symm.trans hsize, hok⟩
  · exact .inr ⟨hsize.symm.trans_lt hlt, .inl (.inl hending)⟩
  · exact .inr ⟨hsize.symm.trans_lt hlt, .inr ⟨e, hfailed⟩⟩
  · refine .inr ⟨hsize.symm.trans_lt hlt, .inl (.inr fun hnil => ?_)⟩
    -- Something was read, so something was pending.
    obtain ⟨p, fits, conn₁, rfl, hne⟩ := hgrown.eq
    have hle := hgrown.received.le_length
    rw [FastClient.data_append, List.length_append, hnil, List.flatten_nil, List.length_nil] at hle
    have hpos := List.length_pos_iff.mpr hne
    omega

/-- A reused connection that ends before the first byte is tried again. -/
theorem code_of_dead (hout : Responds g c conn true (.returned c' conn')) (hs : Starting c conn)
    (hroom : 0 < c.buffer.length) (hpending : conn.pending = []) (hending : conn.ending ≠ none) :
    c'.code = retryOnce := by
  rcases readMore_start (g := g) hs true with ⟨hzero, -⟩ | ⟨-, hother | ⟨e, hfailed⟩⟩
  · omega
  · exact absurd hother (not_or.mpr ⟨hending, not_not_intro hpending⟩)
  · have hsize : (startReading c conn).c.size = 0 := hs.size
    have hpass : pass g true (startReading c conn)
        = endPass (.error (readFailed true e (startReading c conn))) := by
      rw [pass, hfailed]
      rfl
    rw [readFailed, if_pos ⟨rfl, hsize⟩] at hpass
    obtain ⟨rfl, -⟩ := (Outcome.returned.injEq ..).mp (hout.unique (.here hpass))
    rfl

/-- A client without a buffer reads nothing and does not try again. -/
theorem code_of_empty (hs : Starting c conn) (hzero : c.buffer.length = 0) {reused : Bool}
    (hout : Responds g c conn reused (.returned c' conn')) : c'.code = statusOK := by
  rcases readMore_start (g := g) hs reused with ⟨-, hok⟩ | ⟨hpos, -⟩
  swap
  · omega
  have hsize : (startReading c conn).c.size = 0 := hs.size
  have hparse : parseHeaders g (startReading c conn) = .ok (startReading c conn) := by
    rw [parseHeaders, if_neg]
    simp [hsize, retcodeOffset]
  have hmax : (startReading c conn).max ≤ ((startReading c conn).c.size : Int) := by
    rw [hsize]
    exact (congrArg Nat.cast hzero).le
  -- There is no room for a byte, so that the first pass takes the buffer for full.
  obtain ⟨st, hcheck, hcode⟩ : ∃ st, checkMax (startReading c conn) = .error (.brk st) ∧
      st.c.code = statusOK := by
    rw [checkMax, if_pos hmax]
    dsimp only
    split_ifs with hparsed hchunked hchunked
    · exact absurd hchunked (by simp [startReading])
    · exact ⟨_, rfl, rfl⟩
    · exact absurd hchunked (by simp [startReading])
    · exact ⟨_, rfl, rfl⟩
  have hpass : pass g reused (startReading c conn) = .leave (keepOrClose st) := by
    rw [pass, hok]
    change endPass ((parseHeaders g (startReading c conn)).bind checkMax) = _
    rw [hparse]
    change endPass (checkMax (startReading c conn)) = _
    rw [hcheck]
    rfl
  have hreturned := hout.unique (.here hpass)
  unfold keepOrClose at hreturned
  split_ifs at hreturned
  · obtain ⟨rfl, -⟩ := (Outcome.returned.injEq ..).mp hreturned
    exact hcode
  · obtain ⟨rfl, -⟩ := (Outcome.returned.injEq ..).mp hreturned
    exact hcode

end

variable {conn : Conn}

section
variable {g : Settings} {net : Nat → Attempt} {passes depth k : Nat} {c c' : FastClient}
  {used used' : List Conn}

/-- The connection of the attempt, or none because it could not be dialed. -/
theorem hand_of_acquire (c : FastClient) (a : Attempt) :
    match (c.acquire a).2 with
    | some conn => InHand c a conn
    | none => c.socket = none ∧ a.dialOk = false := by
  unfold FastClient.acquire
  cases hsock : c.socket with
  | some conn => exact .reused hsock
  | none =>
    cases hdial : a.dialOk with
    | true => simpa [FastClient.connect, hdial] using InHand.dialed hsock hdial
    | false => simp [FastClient.connect, hdial]

/-- When `readResponse` asks for a retry, the connection was a reused one that is dead, and it is
closed. -/
theorem dead_of_retry {reused : Bool} {conn' : Conn} (hs : Starting c conn)
    (hout : Responds g c conn reused (.returned c' conn')) (hcode : c'.code = retryOnce) :
    reused = true ∧ conn.pending = [] ∧ conn.ending.isSome = true ∧ 0 < c.buffer.length ∧
      conn'.closed = true := by
  have hroom : 0 < c.buffer.length := by
    by_contra hzero
    have hok := code_of_empty hs (by omega) hout
    exact absurd (hok.symm.trans hcode) (by decide)
  rcases responds_ended hs hout with _ | _ | ⟨s, code, keep, _, _, hreason, hfinal⟩
  have hcode' : code = retryOnce := hfinal.code.symm.trans hcode
  cases hreason with
  | retry e reuse ending nothing =>
    have hpending : conn.pending = [] := by
      rw [List.flatten_eq_nil_iff] at nothing
      exact List.eq_nil_iff_forall_not_mem.mpr fun p hp => conn.pending_ne p hp (nothing p hp)
    exact ⟨reuse, hpending, by simp [ending], hroom, hfinal.closed⟩
  | status s parse arrived bad =>
    have hle : -1 ≤ statusCode conn.pending.flatten :=
      neg_one_le_parseDecimal (by simp [retcodeOffset])
    rw [hcode'] at hle
    exact absurd hle (by decide)
  | failed | eof | full | close | done => exact absurd hcode' (by decide)

theorem attempted_of_fetch
    (hret : c.fetch g net passes (depth + 1) k used = some (.returned c' used')) :
    Attempted g net passes depth k c used c' used' := by
  have hhand := hand_of_acquire c (net k)
  cases fetchPath hret with
  | undialed n acquired returned used_eq =>
    rw [acquired] at hhand
    exact .undialed hhand.1 hhand.2 (returned ▸ hhand.1) used_eq
  | unsent n conn acquired fails returned used_eq =>
    rw [acquired] at hhand
    exact .left conn hhand fails (returned ▸ rfl) used_eq
  | unwritable n conn e acquired writes reused again =>
    rw [acquired] at hhand
    -- Only a connection that was kept is given up for a new one.
    cases hhand with
    | dialed socket => exact absurd reused (by simp [socket])
    | reused socket =>
      refine .retried conn conn.close _ socket rfl ?_ ?_ ?_ ?_ ?_ again
      · exact fun h => absurd (writes.symm.trans h) (by decide)
      all_goals rfl
  | read n conn c₃ conn₃ acquired writes delivers starting stream responds next =>
    rw [acquired] at hhand
    rcases next with ⟨hretry, again⟩ | ⟨hretry, rfl, rfl⟩
    · -- The peer had closed the connection before it answered.
      obtain ⟨hreused, hempty, hended, hroom, hclosed⟩ := dead_of_retry starting responds hretry
      obtain ⟨hsetup, hsock⟩ := retry_of_responds starting responds hretry
      have hdead : (net k).dead c = true := by
        rw [Attempt.dead, ← stream, hempty]
        simpa [Conn.requested] using ⟨hended, hroom⟩
      cases hhand with
      | dialed socket => exact absurd hreused (by simp [socket])
      | reused socket =>
        exact .retried conn conn₃ c₃ socket hclosed (fun _ => ⟨delivers, hdead⟩) hsock
          hsetup.req hsetup.keepAlive hsetup.halfClose again
    · refine .answered conn conn₃ hhand writes delivers ?_ ?_ rfl
      · intro hsome
        by_contra hdead
        rw [hsome] at responds
        rw [Bool.not_eq_false, Attempt.dead, ← stream] at hdead
        simp only [Bool.and_eq_true, List.isEmpty_iff, decide_eq_true_eq] at hdead
        exact hretry (code_of_dead responds starting hdead.2 hdead.1.1
          (Option.isSome_iff_ne_none.mp hdead.1.2))
      · rcases responds_ended starting responds with _ | _ | ⟨_, _, keep, _, _, _, hfinal⟩
        cases keep with
        | true => exact .inl ⟨hfinal.socket, hfinal.closed⟩
        | false => exact .inr ⟨hfinal.socket, hfinal.closed⟩

end

/-! ### What a call leaves open -/

/-- The connections that are not closed. -/
def openConns (conns : List Conn) : List Conn := conns.filter fun conn => !conn.closed

theorem openConns_concat (conns : List Conn) (conn : Conn) :
    openConns (conns ++ [conn]) = openConns conns ++ if conn.closed then [] else [conn] := by
  rw [openConns, List.filter_append, openConns]
  cases hclosed : conn.closed <;> simp [hclosed]

/-- A new connection is not left behind: it could not be dialed, or the request was sent. -/
def Attempt.tidy (a : Attempt) (c : FastClient) : Bool :=
  !a.dialOk || a.writes && a.delivers c

theorem Attempt.tidy_congr {a : Attempt} {c c₂ : FastClient} (req : c₂.req = c.req)
    (keepAlive : c₂.keepAlive = c.keepAlive) (halfClose : c₂.halfClose = c.halfClose) :
    a.tidy c₂ = a.tidy c := by
  simp only [Attempt.tidy, Attempt.delivers, req, keepAlive, halfClose]

/-- The condition on a call of `Fetch`. A reused connection on which the request cannot be written
is closed, and so is one that is dead. The second try dials. -/
def FastClient.tidyFetch (c : FastClient) (net : Nat → Attempt) (k : Nat) : Bool :=
  if c.socket.isNone then (net k).tidy c
  else if (net k).writes then
    (net k).delivers c && (!(net k).dead c || (net (k + 1)).tidy c)
  else (net (k + 1)).tidy c

section
variable {g : Settings} {net : Nat → Attempt} {passes depth k : Nat} {c c' : FastClient}
  {used used' : List Conn}

/-- A connection that was kept or closed. -/
theorem openConns_answered {conn' : Conn} (hopen : conn.closed = false)
    (kept : c'.socket = some conn' ∧ conn'.closed = conn.closed ∨
      c'.socket = none ∧ conn'.closed = true) :
    openConns (used ++ [conn']) = openConns used ++ c'.socket.toList := by
  rw [openConns_concat]
  rcases kept with ⟨hsock, hsame⟩ | ⟨hsock, hclosed⟩
  · rw [hsame, hopen, hsock]
    rfl
  · rw [hclosed, hsock]
    rfl

/-- A connection that was left open. -/
theorem openConns_left (hopen : conn.closed = false) (hsock : c'.socket = none) :
    openConns (used ++ [conn]) ≠ openConns used ++ c'.socket.toList := by
  rw [openConns_concat, hopen, hsock]
  simp

/-- A call that has to dial. -/
theorem openConns_of_dial (hsock : c.socket = none)
    (hret : c.fetch g net passes depth k used = some (.returned c' used')) :
    openConns used' = openConns used ++ c'.socket.toList ↔ (net k).tidy c = true := by
  cases depth with
  | zero => exact nomatch hret
  | succ depth =>
    cases attempted_of_fetch hret with
    | undialed _ dial none used_eq =>
      subst used_eq
      simp [none, Attempt.tidy, dial]
    | left conn hand unsent none used_eq =>
      subst used_eq
      cases hand with
      | reused socket => exact absurd (hsock.symm.trans socket) (by simp)
      | dialed _ dial =>
        refine iff_of_false (openConns_left rfl none) ?_
        cases hwrites : (net k).writes with
        | false => simp [Attempt.tidy, dial, hwrites]
        | true =>
          rw [if_pos hwrites] at unsent
          simp [Attempt.tidy, dial, hwrites, unsent]
    | answered conn conn' hand writes delivers _ kept used_eq =>
      subst used_eq
      cases hand with
      | reused socket => exact absurd (hsock.symm.trans socket) (by simp)
      | dialed _ dial =>
        refine iff_of_true (openConns_answered rfl kept) ?_
        simp [Attempt.tidy, writes, delivers]
    | retried conn conn' c₂ socket => exact absurd (hsock.symm.trans socket) (by simp)

/-- Any call, when the connection in the client is open. -/
theorem openConns_of_fetch (hopen : ∀ conn, c.socket = some conn → conn.closed = false)
    (hret : c.fetch g net passes depth k used = some (.returned c' used')) :
    openConns used' = openConns used ++ c'.socket.toList ↔ c.tidyFetch net k = true := by
  cases hsock : c.socket with
  | none => simpa [FastClient.tidyFetch, hsock] using openConns_of_dial hsock hret
  | some conn₀ =>
    cases depth with
    | zero => exact nomatch hret
    | succ depth =>
      have hhand : ∀ conn, InHand c (net k) conn → conn.closed = false := by
        intro conn hand
        cases hand with
        | reused socket => exact hopen conn socket
        | dialed => rfl
      cases attempted_of_fetch hret with
      | undialed socket => exact absurd (socket.symm.trans hsock) (by simp)
      | left conn hand unsent none used_eq =>
        subst used_eq
        refine iff_of_false (openConns_left (hhand conn hand) none) ?_
        cases hwrites : (net k).writes with
        | false =>
          rw [hwrites] at unsent
          exact absurd (unsent.symm.trans hsock) (by simp)
        | true =>
          rw [if_pos hwrites] at unsent
          simp [FastClient.tidyFetch, hsock, hwrites, unsent]
      | answered conn conn' hand writes delivers alive kept used_eq =>
        subst used_eq
        refine iff_of_true (openConns_answered (hhand conn hand) kept) ?_
        simp [FastClient.tidyFetch, hsock, writes, delivers, alive (by simp [hsock])]
      | retried conn conn' c₂ _ closed why none req keepAlive halfClose again =>
        -- The connection that was kept is closed, and the nested call has to dial.
        have hdial := openConns_of_dial none again
        rw [openConns_concat, closed, if_pos rfl, List.append_nil,
          Attempt.tidy_congr req keepAlive halfClose] at hdial
        rw [hdial]
        cases hwrites : (net k).writes with
        | false => simp [FastClient.tidyFetch, hsock, hwrites]
        | true =>
          obtain ⟨hdelivers, hdead⟩ := why hwrites
          simp [FastClient.tidyFetch, hsock, hwrites, hdelivers, hdead]

/-- The connection that a call keeps is the last one it had in hand. -/
theorem getLast_of_fetch (hret : c.fetch g net passes depth k used = some (.returned c' used'))
    (hconn : c'.socket = some conn) : used'.getLast? = some conn := by
  induction depth generalizing k c used with
  | zero => exact nomatch hret
  | succ depth ih =>
    cases attempted_of_fetch hret with
    | undialed _ _ none => exact absurd (none.symm.trans hconn) (by simp)
    | left _ _ _ none => exact absurd (none.symm.trans hconn) (by simp)
    | answered _ conn' _ _ _ _ kept used_eq =>
      rcases kept with ⟨hsock, -⟩ | ⟨hsock, -⟩
      · cases hsock.symm.trans hconn
        rw [used_eq, List.getLast?_concat]
      · exact absurd (hsock.symm.trans hconn) (by simp)
    | retried _ _ _ _ _ _ _ _ _ _ again => exact ih again

end

/-! ### Sequences of calls -/

/-- Every connection is closed, except the one in the client. -/
def Session.NoLeak (s : Session) : Prop := openConns s.conns = s.c.socket.toList

/-- The condition on a call. -/
def tidyCall (s : Session) : Call → Bool
  | .fetch net _ _ => s.c.tidyFetch net 0
  | .close => true

/-- The connection in the client is the last one that was dialed. -/
def Session.Tracked (s : Session) : Prop :=
  ∀ conn, s.c.socket = some conn → s.conns.getLast? = some conn

section
variable {g : Settings} {s s' : Session} {call : Call}

theorem Session.step_cases (hstep : s.step g call = some s') :
    (call = .close ∧ s' = ⟨s.c.close.1, s.others ++ s.c.close.2⟩) ∨
    ∃ net passes depth c used, call = .fetch net passes depth ∧
      s.c.fetch g net passes depth 0 [] = some (.returned c used) ∧
      s' = ⟨c, s.others ++ used⟩ := by
  cases call with
  | close => exact .inl ⟨rfl, (Option.some.inj hstep).symm⟩
  | fetch net passes depth =>
    rw [Session.step] at hstep
    split at hstep
    · rename_i c used hret
      exact .inr ⟨net, passes, depth, c, used, rfl, hret, (Option.some.inj hstep).symm⟩
    · cases hstep

theorem Session.Tracked.step (hstep : s.step g call = some s') : s'.Tracked := by
  intro conn hconn
  rcases Session.step_cases hstep with ⟨-, rfl⟩ | ⟨net, passes, depth, c, used, -, hret, rfl⟩
  · exact absurd hconn (by simp [FastClient.close])
  · have hlast := getLast_of_fetch hret hconn
    rw [List.getLast?_append, hlast]
    rfl

/-- Without a leak, the other connections are closed, and the one in the client is open. -/
theorem Session.NoLeak.others (h : s.NoLeak) (ht : s.Tracked) :
    openConns s.others = [] ∧ ∀ conn, s.c.socket = some conn → conn.closed = false := by
  unfold Session.NoLeak at h
  unfold Session.others
  cases hsock : s.c.socket with
  | none =>
    rw [hsock] at h
    exact ⟨h, nofun⟩
  | some conn =>
    have hsplit : s.conns.dropLast ++ [conn] = s.conns :=
      List.dropLast_append_getLast? conn (ht conn hsock)
    rw [hsock, ← hsplit, openConns_concat] at h
    cases hclosed : conn.closed with
    | false =>
      rw [hclosed] at h
      refine ⟨by simpa using h, fun conn' hconn' => ?_⟩
      cases hconn'
      exact hclosed
    | true =>
      -- The open connections would contain a closed one.
      rw [hclosed, if_pos rfl, List.append_nil] at h
      have hmem : conn ∈ openConns s.conns.dropLast := by simp [h]
      have hnot := (List.mem_filter.mp hmem).2
      simp [hclosed] at hnot

/-- One call. -/
theorem Session.NoLeak.noLeak_step (h : s.NoLeak) (ht : s.Tracked)
    (hstep : s.step g call = some s') :
    s'.NoLeak ↔ tidyCall s call = true := by
  obtain ⟨hothers, hopen⟩ := h.others ht
  have happend : ∀ conns, openConns (s.others ++ conns) = openConns conns := by
    intro conns
    rw [openConns, List.filter_append]
    exact (congrArg (· ++ _) hothers).trans (List.nil_append _)
  rcases Session.step_cases hstep with ⟨rfl, rfl⟩ | ⟨net, passes, depth, c, used, rfl, hret, rfl⟩
  · refine iff_of_true ?_ rfl
    unfold Session.NoLeak
    rw [happend]
    cases hsock : s.c.socket <;> simp [FastClient.close, hsock, openConns, Conn.close]
  · unfold Session.NoLeak
    rw [happend]
    exact openConns_of_fetch hopen hret

/-- After `Close` all connections are closed. -/
theorem Session.NoLeak.closed_of_close (h : s.NoLeak) (ht : s.Tracked)
    (hstep : s.step g .close = some s') : ∀ conn ∈ s'.conns, conn.closed = true := by
  have hleft : openConns s'.conns = s'.c.socket.toList := (h.noLeak_step ht hstep).mpr rfl
  cases hstep
  intro conn hconn
  by_contra hopen
  have hmem : conn ∈ openConns (s.others ++ s.c.close.2) :=
    List.mem_filter.mpr ⟨hconn, by simpa using hopen⟩
  rw [hleft] at hmem
  simp [FastClient.close] at hmem

end

theorem noLeak_of_reachable {g : Settings} {c : FastClient} (hsock : c.socket = none) {s : Session}
    (h : Reachable (Session.step g) tidyCall ⟨c, []⟩ s) : s.NoLeak ∧ s.Tracked := by
  refine h.inv (fun s => s.NoLeak ∧ s.Tracked) ?_ ?_
  · exact ⟨by simp [Session.NoLeak, hsock, openConns], fun conn hconn => by simp [hsock] at hconn⟩
  · intro s call s' hinv hok hstep
    exact ⟨(hinv.1.noLeak_step hinv.2 hstep).mpr hok, .step hstep⟩

/-- In every sequence of calls that meet their condition, each call leaves no connection open but
the one in the client, and `Close` closes this one too. A call that does not meet the condition
leaves another one open. -/
theorem noLeak_iff {g : Settings} {c : FastClient} (hsock : c.socket = none) {s : Session}
    (h : Reachable (Session.step g) tidyCall ⟨c, []⟩ s) :
    s.NoLeak ∧
      (∀ s', s.step g .close = some s' → ∀ conn ∈ s'.conns, conn.closed = true) ∧
      ∀ call s', s.step g call = some s' → (s'.NoLeak ↔ tidyCall s call = true) := by
  obtain ⟨hleak, htracked⟩ := noLeak_of_reachable hsock h
  exact ⟨hleak, fun _ => hleak.closed_of_close htracked, fun _ _ => hleak.noLeak_step htracked⟩

/-- A client that keeps its connection, finds it dead in the next call, and dials again. -/
theorem noLeak_dead_socket :
    ∃ s, Reachable (Session.step quiet) tidyCall ⟨.idle 64 (by decide), []⟩ s ∧
      s.conns.length = 2 ∧ s.NoLeak := by
  obtain ⟨s, hs, hlength⟩ := exists_reachable (Session.step quiet) tidyCall
    ⟨.idle 64 (by decide), []⟩
    [.fetch (fun _ => .answering greeting none (by decide)) 1 1,
      .fetch (fun k => .answering (if k = 0 then [] else greeting) (some .eof) (by
        split <;> decide)) 1 2]
    (p := fun s => s.conns.length == 2) (by decide +kernel)
  exact ⟨s, hs, by simpa using hlength, (noLeak_iff rfl hs).1⟩

/-- An attempt in which the connection is made, and the write on it fails. -/
def Attempt.unwritable : Attempt where
  dialOk := true
  deadlineOk := true
  writeOk := false
  written := 0
  closeWriteOk := true
  arrival := []
  ending := none
  arrival_ne := nofun

/-- The first call of a new client, with a write that fails: the connection is open, the client
does not have it, and `Close` does not close it. -/
theorem leaks_unwritable :
    ∃ s s', Session.step quiet ⟨.idle 64 (by decide), []⟩ (.fetch (fun _ => .unwritable) 1 1)
        = some s ∧ ¬ s.NoLeak ∧ s.step quiet .close = some s' ∧
      ∃ conn ∈ s'.conns, conn.closed = false := by
  refine ⟨⟨_, [.dialed]⟩, ⟨_, [.dialed]⟩, rfl, ?_, rfl, .dialed, List.mem_singleton_self _, rfl⟩
  exact fun h => absurd (congrArg List.length h) (by decide)

end IstioVendor.Fhttp
