import IstioVendor.Proofs.Fhttp.Termination

/-!
# `IstioVendor.Proofs.Fhttp.Fetch`: one call of `Fetch`

`Fetch` connects or reuses the socket of the last call, writes the request, and reads the
answer. A reused socket that turns out to be dead is given up, and `Fetch` calls itself.
`fetchPath` says once what a call can do, and `fetch_cases` where its result comes from. An
induction over the nested calls uses it for the step.
-/

set_option autoImplicit false

namespace IstioVendor.Fhttp

open Lib

/-- The pieces that the next `Fetch` reads: what is left on the socket, and the answer. -/
def FastClient.stream (c : FastClient) (a : Attempt) : List Bytes :=
  ((c.socket.map Conn.pending).getD []) ++ a.arrival

/-- The request can be written. -/
def Attempt.writes (a : Attempt) : Bool := a.writeOk && a.deadlineOk

/-- All of the request was written, and the write side was closed if the client does so. -/
def Attempt.delivers (a : Attempt) (c : FastClient) : Bool :=
  a.written == c.req.length && (c.keepAlive || !c.halfClose || a.closeWriteOk)

theorem Attempt.writes_iff {a : Attempt} :
    a.writes = true ↔ ¬ (!a.writeOk || !a.deadlineOk) = true := by
  simp [Attempt.writes]

theorem Attempt.delivers_iff {a : Attempt} {c : FastClient} :
    a.delivers c = true ↔ a.written = c.req.length ∧
      ¬ (!c.keepAlive && c.halfClose && !a.closeWriteOk) = true := by
  unfold Attempt.delivers
  cases c.keepAlive <;> cases c.halfClose <;> cases a.closeWriteOk <;> simp

/-- The client while a call is under way: the results are cleared, and the socket is taken out. -/
def FastClient.underWay (c : FastClient) (n : Nat) : FastClient :=
  { c.reset with socketCount := n, socket := none }

/-- The ways through one call of `Fetch`. -/
inductive FetchPath (g : Settings) (net : Nat → Attempt) (passes depth k : Nat) (c : FastClient)
    (used : List Conn) (c' : FastClient) (used' : List Conn) : Prop where
  | undialed (n : Nat) (acquired : (c.acquire (net k)).2 = none)
      (returned : c' = { c.reset with socketCount := n }) (used_eq : used' = used)
  -- A new connection on which the request cannot be written, or any connection on which it was
  -- not written in full.
  | unsent (n : Nat) (conn : Conn) (acquired : (c.acquire (net k)).2 = some conn)
      (fails : if (net k).writes then (net k).delivers c = false else c.socket = none)
      (returned : c' = c.underWay n) (used_eq : used' = used ++ [conn])
  | unwritable (n : Nat) (conn : Conn) (e : Nat) (acquired : (c.acquire (net k)).2 = some conn)
      (writes : (net k).writes = false) (reused : c.socket.isSome = true)
      (again : { c.underWay n with errorCount := e }.fetch g net passes depth (k + 1)
        (used ++ [conn.close]) = some (.returned c' used'))
  | read (n : Nat) (conn : Conn) (c₃ : FastClient) (conn₃ : Conn)
      (acquired : (c.acquire (net k)).2 = some conn) (writes : (net k).writes = true)
      (delivers : (net k).delivers c = true)
      (starting : Starting (c.underWay n) (conn.requested (net k)))
      (stream : (conn.requested (net k)).pending = c.stream (net k))
      (responds : Responds g (c.underWay n) (conn.requested (net k)) c.socket.isSome
        (.returned c₃ conn₃))
      (next : c₃.code = retryOnce ∧
          c₃.fetch g net passes depth (k + 1) (used ++ [conn₃]) = some (.returned c' used') ∨
        c₃.code ≠ retryOnce ∧ c' = c₃ ∧ used' = used ++ [conn₃])

/-- Where the result of a `Fetch` comes from. -/
inductive FetchedBy (g : Settings) (net : Nat → Attempt) (passes depth k : Nat) (c : FastClient)
    (c' : FastClient) (used' : List Conn) : Prop where
  | unread (code : c'.code = socketError)
  | answer (c₂ : FastClient) (conn conn' : Conn) (reused : Bool)
      (length : c₂.buffer.length = c.buffer.length) (parse : c₂.parseHeaders = c.parseHeaders)
      (keepAlive : c₂.keepAlive = c.keepAlive) (starting : Starting c₂ conn)
      (pending : conn.pending = c.stream (net k)) (ending : conn.ending = (net k).ending)
      (responds : Responds g c₂ conn reused (.returned c' conn'))
  | retry (c₂ : FastClient) (used : List Conn) (length : c₂.buffer.length = c.buffer.length)
      (parse : c₂.parseHeaders = c.parseHeaders) (keepAlive : c₂.keepAlive = c.keepAlive)
      (socket : c₂.socket = none)
      (again : c₂.fetch g net passes depth (k + 1) used = some (.returned c' used'))

/-- The head of `Fetch` clears the results, and the answer arrives behind what is left on the
socket. -/
theorem acquire_cases (c : FastClient) (a : Attempt) :
    ∃ n, (c.acquire a).1 = { c.reset with socketCount := n } ∧
      ∀ conn ∈ (c.acquire a).2, (conn.requested a).pending = c.stream a := by
  unfold FastClient.acquire FastClient.stream
  cases hsock : c.socket with
  | some conn₀ =>
    refine ⟨c.socketCount, rfl, fun conn hconn => ?_⟩
    cases hconn
    rfl
  | none =>
    refine ⟨c.socketCount + 1, rfl, fun conn hconn => ?_⟩
    simp only [FastClient.connect, Option.mem_def, Option.ite_none_right_eq_some] at hconn
    obtain ⟨_, ⟨⟩⟩ := hconn
    rfl

/-- When `readResponse` asks for a retry, the client holds no socket. -/
theorem retry_of_responds {g : Settings} {reused : Bool} {c c' : FastClient} {conn conn' : Conn}
    (hs : Starting c conn) (hout : Responds g c conn reused (.returned c' conn'))
    (hcode : c'.code = retryOnce) : SameSetup c c' ∧ c'.socket = none := by
  rcases responds_ended hs hout with _ | _ | ⟨s, code, keep, _, _, hreason, hfinal⟩
  refine ⟨hfinal.setup, ?_⟩
  have hcode' : code = retryOnce := hfinal.code.symm.trans hcode
  have hkeep : keep = false := by
    cases hreason with
    | retry _ _ _ _ | failed _ _ _ _ _ _ | status _ _ _ _ => rfl
    | eof _ _ _ _ _ | full _ _ | close _ _ _ _ _ | done _ _ _ _ _ _ _ _ _ _ =>
      exact nomatch hcode'
  rw [hfinal.socket, hkeep]
  exact hs.socket

section
variable {g : Settings} {net : Nat → Attempt} {passes depth k : Nat} {c c' : FastClient}
  {used used' : List Conn}

theorem fetchPath (hret : c.fetch g net passes (depth + 1) k used = some (.returned c' used')) :
    FetchPath g net passes depth k c used c' used' := by
  obtain ⟨n, hc₁, hstream⟩ := acquire_cases c (net k)
  unfold FastClient.fetch at hret
  generalize hacq : c.acquire (net k) = acquired at hret hc₁ hstream
  obtain ⟨c₁, _ | conn⟩ := acquired
  · cases hret
    exact .undialed n (congrArg Prod.snd hacq) hc₁ rfl
  · obtain rfl : c₁ = { c.reset with socketCount := n } := hc₁
    have hconn : (c.acquire (net k)).2 = some conn := congrArg Prod.snd hacq
    dsimp only at hret
    split_ifs at hret with hwrite hreuse hwritten hhalf
    -- A request that cannot be written: a reused socket is tried again, a new one has failed.
    · have hwrites := Bool.eq_false_iff.mpr fun h => Attempt.writes_iff.mp h hwrite
      exact .unwritable n conn _ hconn hwrites hreuse hret
    · have hwrites := Bool.eq_false_iff.mpr fun h => Attempt.writes_iff.mp h hwrite
      cases hret
      refine .unsent n conn hconn ?_ rfl rfl
      rw [hwrites]
      simpa using hreuse
    · cases hret
      refine .unsent n conn hconn ?_ rfl rfl
      rw [if_pos (Attempt.writes_iff.mpr hwrite)]
      exact Bool.eq_false_iff.mpr fun h => hwritten (Attempt.delivers_iff.mp h).1
    -- The write side could not be closed.
    · cases hret
      refine .unsent n conn hconn ?_ rfl rfl
      rw [if_pos (Attempt.writes_iff.mpr hwrite)]
      exact Bool.eq_false_iff.mpr fun h => (Attempt.delivers_iff.mp h).2 hhalf
    · have hwrites := Attempt.writes_iff.mpr hwrite
      have hdelivers : (net k).delivers c = true :=
        Attempt.delivers_iff.mpr ⟨not_not.mp hwritten, hhalf⟩
      generalize hread : FastClient.readResponse g passes _ (conn.requested (net k)) _ = out at hret
      rcases out with _ | _ | _ | ⟨c₃, conn₃⟩
      · exact nomatch hret
      · exact nomatch hret
      · exact nomatch hret
      · have hout := readResponse_eq_some_iff.mp ⟨passes, hread⟩
        refine .read n conn c₃ conn₃ hconn hwrites hdelivers ⟨rfl, rfl, rfl, rfl⟩
          (hstream conn rfl) hout ?_
        dsimp only at hret
        -- `readResponse` asks for a retry by its code.
        split_ifs at hret with hretry
        · exact .inl ⟨hretry, hret⟩
        · cases hret
          exact .inr ⟨hretry, rfl, rfl⟩

/-- A call of `Fetch` fails before it reads, or returns what `readResponse` returns, or tries
again without a socket. -/
theorem fetch_cases
    (hret : c.fetch g net passes (depth + 1) k used = some (.returned c' used')) :
    FetchedBy g net passes depth k c c' used' := by
  cases fetchPath hret with
  | undialed n _ returned => exact .unread (returned ▸ rfl)
  | unsent n _ _ _ returned => exact .unread (returned ▸ rfl)
  | unwritable n conn e _ _ _ again =>
    refine .retry _ _ ?_ ?_ ?_ ?_ again <;> rfl
  | read n conn c₃ conn₃ _ _ _ starting stream responds next =>
    rcases next with ⟨hretry, again⟩ | ⟨-, rfl, -⟩
    · obtain ⟨hsetup, hsock⟩ := retry_of_responds starting responds hretry
      exact .retry c₃ _ hsetup.length hsetup.parseHeaders hsetup.keepAlive hsock again
    · exact .answer (c.underWay n) _ conn₃ _ rfl rfl rfl starting stream rfl responds

end

/-! ### Runs on fixed answers -/

/-- An attempt in which nothing fails but the peer. -/
def Attempt.answering (pieces : List Bytes) (ending : Option ReadErr) (h : ∀ p ∈ pieces, p ≠ []) :
    Attempt where
  dialOk := true
  deadlineOk := true
  writeOk := true
  written := 0
  closeWriteOk := true
  arrival := pieces
  ending := ending
  arrival_ne := h

/-- `Fetch` returned, and what it returned passes the test `p`. -/
def FetchOutcome.returns (p : FastClient → Bool) : FetchOutcome → Bool
  | .returned c _ => p c
  | _ => false

theorem exists_of_fetch_returns {r : Option FetchOutcome} {p : FastClient → Bool}
    (h : r.any (FetchOutcome.returns p) = true) :
    ∃ c used, r = some (.returned c used) ∧ p c = true := by
  rcases r with _ | _ | _ | ⟨c, used⟩
  · exact nomatch h
  · exact nomatch h
  · exact nomatch h
  · exact ⟨c, used, rfl, h⟩

end IstioVendor.Fhttp
