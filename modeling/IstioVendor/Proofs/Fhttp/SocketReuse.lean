import IstioVendor.Lib.HttpMessage
import IstioVendor.Proofs.Fhttp.Termination

/-!
# `IstioVendor.Proofs.Fhttp.SocketReuse`: what is left on a socket that is kept

`readResponse` may keep the connection for the next request. The next answer is read from its
first byte only when nothing of this answer is left unread on the connection.

`kept_clean_iff` says when that is so, for a server that sends one complete response `R` and
nothing more before the next request. The client must not take the response for complete at
a read that ends inside it (`NoEarlyEnd`). It does so in three cases: the buffer is smaller
than the response, and the client stops at the end of the buffer; a chunk does not fit into
the buffer, and the client stops at its size line; the size line of the last chunk has
arrived and the line end behind it has not.
-/

set_option autoImplicit false

namespace IstioVendor.Fhttp

open Lib
open Lib.Http

/-- No read ends inside the stream where the client takes the response for complete and keeps
the connection. -/
def NoEarlyEnd (g : Settings) (len : Nat) (pieces : List Bytes) : Prop :=
  ∀ h r f s, Headed g pieces len h r f → f.keep = true → ReadEnd pieces len s → r ≤ s →
    s < pieces.flatten.length → ¬ f.Done len (pieces.flatten.take s)

/-- Exactly the response was read from the connection, and what the next request meets on it
is its own answer. -/
def Clean (R : Response) (conn : Conn) : Prop :=
  conn.delivered.flatten = R.bytes ∧ ∀ a, (conn.requested a).pending = a.arrival

variable {code : Int} {keep : Bool} {s : Nat}

theorem Final.clean_iff {c₀ c : FastClient} {conn₀ conn : Conn} {R : Response}
    (h : Final c₀ conn₀ s code keep c conn) (hR : conn₀.pending.flatten = R.bytes) :
    Clean R conn ↔ s = conn₀.pending.flatten.length := by
  have hle := h.readEnd.le_length
  unfold Clean
  rw [h.delivered, ← hR]
  constructor
  · rintro ⟨htake, _⟩
    have := congrArg List.length htake
    rw [List.length_take] at this
    omega
  · rintro rfl
    refine ⟨List.take_length, fun a => ?_⟩
    have hpend := h.pending
    rw [List.drop_length] at hpend
    -- A connection holds no empty piece, so no byte left means no piece left.
    have hnil : conn.pending = [] := by
      rw [List.eq_nil_iff_forall_not_mem]
      exact fun p hp => conn.pending_ne p hp (List.flatten_eq_nil_iff.mp hpend p hp)
    simp [Conn.requested, hnil]

/-- A client that started without a socket and holds one has decided to keep it. -/
theorem Final.keep_of_socket {c₀ c : FastClient} {conn₀ conn : Conn}
    (h : Final c₀ conn₀ s code keep c conn) (hs : Starting c₀ conn₀)
    (hsock : c.socket = some conn) : keep = true := by
  have := h.socket
  cases keep with
  | true => rfl
  | false =>
    rw [hsock, hs.socket] at this
    exact nomatch this

/-- A client that parses headers keeps a connection for two reasons: the stream has ended, or
the response is complete after this read and after no earlier one. -/
theorem Reason.keep_cases {g : Settings} {reused : Bool} {c : FastClient} {conn : Conn}
    (hr : Reason g reused c conn s code keep) (hparse : c.parseHeaders = true) (hk : keep = true) :
    s = conn.pending.flatten.length ∧ conn.ending = some .eof ∨
      ∃ h r f, Headed g conn.pending c.buffer.length h r f ∧ f.keep = true ∧ r ≤ s ∧
        f.Done c.buffer.length (conn.pending.flatten.take s) ∧
        ∀ s', ReadEnd conn.pending c.buffer.length s' → r ≤ s' → s' < s →
          ¬ f.Done c.buffer.length (conn.pending.flatten.take s') := by
  cases hr with
  | retry => exact nomatch hk
  | failed => exact nomatch hk
  | eof _ ending => exact .inl ⟨rfl, ending⟩
  | status => exact nomatch hk
  | full =>
    -- The full buffer keeps the connection of a client that does not parse headers only.
    rw [hparse, Bool.not_true, Bool.and_false] at hk
    exact nomatch hk
  | close => exact nomatch hk
  | done h r _ f _ _ headed le now before => exact .inr ⟨h, r, f, headed, hk, le, now, before⟩

/-- A connection is kept with nothing of the response left on it, in every run, exactly when
no read ends inside the response where the client takes it for complete. -/
theorem kept_clean_iff (g : Settings) (reused : Bool) (c : FastClient) (conn : Conn)
    (R : Response) (hs : Starting c conn) (hparse : c.parseHeaders = true)
    (hkeep : c.keepAlive = true) (hR : conn.pending.flatten = R.bytes) :
    (∀ passes c' conn', c.readResponse g passes conn reused = some (.returned c' conn') →
      c'.socket = some conn' → Clean R conn') ↔ NoEarlyEnd g c.buffer.length conn.pending := by
  constructor
  -- Only if: at a read where the response seems complete, the client returns and keeps the
  -- connection, with the rest of the response on it.
  · intro hclean h r f s hh hfk hend hr hlt hdone
    obtain ⟨s', c', conn', hout, _, hle, _, hfinal⟩ :=
      exists_done reused hs hparse hkeep hh hend hr hdone
    obtain ⟨passes, heq⟩ := readResponse_eq_some_iff.mpr hout
    have hsock : c'.socket = some conn' := by rw [hfinal.socket, hfk, if_pos rfl]
    have := (hfinal.clean_iff hR).mp (hclean passes c' conn' heq hsock)
    omega
  -- If: the reasons to return that keep the connection are the end of the stream and a complete
  -- response.
  · intro hno passes c' conn' heq hsock
    cases responds_ended hs (readResponse_eq_some_iff.mp ⟨passes, heq⟩) with
    | returned s code keep _ _ reason final =>
      rw [final.clean_iff hR]
      have hk := final.keep_of_socket hs hsock
      rcases reason.keep_cases hparse hk with ⟨hall, _⟩ | ⟨h, r, f, headed, hfk, le, now, _⟩
      · exact hall
      · have hle := final.readEnd.le_length
        by_contra hne
        exact hno h r f s headed hfk final.readEnd le (by omega) now

/-- The field of a content length of two bytes. -/
def lengthField : Field where
  name := ascii "Content-Length"
  value := ascii " 2"
  name_ne := by decide
  name_line := by decide
  name_colon := by decide
  value_line := by decide

/-- The response in `greeting`. -/
def greetingResponse : Response where
  reason := ascii "OK"
  reason_line := by decide
  fields := [lengthField]
  body := .length (ascii "hi")
  framed := by
    refine ⟨⟨lengthField, by simp, by unfold Field.Named; decide⟩, fun f hf _ => ?_, fun f hf => ?_⟩
    · rw [List.mem_singleton.mp hf]
      exact ⟨ascii "2", by decide, ⟨ascii " ", [], by decide, by decide, by decide⟩, by decide⟩
    · rw [List.mem_singleton.mp hf]
      unfold Field.Named
      decide

/-- The field of a chunked transfer encoding. -/
def chunkedField : Field where
  name := ascii "Transfer-Encoding"
  value := ascii " chunked"
  name_ne := by decide
  name_line := by decide
  name_colon := by decide
  value_line := by decide

/-- The size line of a last chunk. -/
def zeroLine : SizeLine 0 := ⟨ascii "0", [], by decide, by decide, by decide, by decide⟩

/-- A chunked response with one chunk. -/
def helloResponse : Response where
  reason := ascii "OK"
  reason_line := by decide
  fields := [chunkedField]
  body := .chunked {
    chunks := [⟨ascii "hello", by decide,
      ⟨ascii "5", [], by decide, by decide, by decide, by decide⟩⟩]
    last := zeroLine
    trailer := [] }
  framed := by
    refine ⟨⟨chunkedField, by simp, by unfold Field.Named; decide, ascii "chunked",
      ⟨ascii " ", [], by decide, by decide, by decide⟩, by decide⟩, fun f hf => ?_⟩
    rw [List.mem_singleton.mp hf]
    unfold Field.Named
    decide

/-- `helloResponse` in three reads. The first one ends inside the chunk, and the second one behind
it. -/
def helloInThree : List Bytes :=
  [ascii "HTTP/1.1 200 OK\r\nTransfer-Encoding: chunked\r\n\r\n5\r\nhe", ascii "llo\r\n",
    ascii "0\r\n\r\n"]

theorem headed_helloInThree : Headed quiet helloInThree 200 47 52 (.chunks true 57) := by
  decide +kernel

theorem kept_clean_helloInThree :
    ∃ c' conn', (FastClient.idle 200 (by decide)).readResponse quiet 5
      (.arriving helloInThree none (by decide)) false = some (.returned c' conn') ∧
      c'.socket = some conn' ∧ Clean helloResponse conn' := by
  have hrun : ((FastClient.idle 200 (by decide)).readResponse quiet 5
      (.arriving helloInThree none (by decide)) false).any (Outcome.returns fun c' conn' =>
        decide (c'.socket = some conn')) = true := by
    decide +kernel
  obtain ⟨c', conn', heq, hp⟩ := exists_of_returns hrun
  have hsock := of_decide_eq_true hp
  refine ⟨c', conn', heq, hsock, ?_⟩
  refine (kept_clean_iff quiet false _ _ helloResponse starting_idle rfl rfl
    (by decide +kernel)).mpr (fun h r f s hh _ hend hr hlt => ?_) _ c' conn' heq hsock
  -- At the two earlier reads the client waits: in the chunk, and for the next size line.
  obtain ⟨-, rfl, rfl⟩ := hh.unique headed_helloInThree
  have hwait : ∀ s < helloInThree.flatten.length, 52 ≤ s → ReadEnd helloInThree 200 s →
      ((helloInThree.flatten.take s).length : Int) < 57 ∨ (0 : Int) ≤ 57 ∧
        (parseChunkSize ((helloInThree.flatten.take s).drop (57 : Int).toNat)).2 = -1 := by
    decide +kernel
  exact Framing.Waits.not_done ⟨57, .refl, hwait s hlt hr hend⟩

/-- `helloResponse` in two reads, the second one with the final line end. -/
def helloCut : List Bytes :=
  [ascii "HTTP/1.1 200 OK\r\nTransfer-Encoding: chunked\r\n\r\n5\r\nhello\r\n0\r\n", crlf]

/-- The client keeps the connection after the first read, and the final line end is left on
it. -/
theorem kept_unclean_helloCut :
    helloCut.flatten = helloResponse.bytes ∧
    ∃ c' conn', (FastClient.idle 200 (by decide)).readResponse quiet 5
      (.arriving helloCut none (by decide)) false = some (.returned c' conn') ∧
      c'.socket = some conn' ∧ ¬ Clean helloResponse conn' := by
  refine ⟨by decide +kernel, ?_⟩
  have hrun : ((FastClient.idle 200 (by decide)).readResponse quiet 5
      (.arriving helloCut none (by decide)) false).any (Outcome.returns fun c' conn' =>
        decide (c'.socket = some conn' ∧
          conn'.delivered.flatten ≠ helloResponse.bytes)) = true := by
    decide +kernel
  obtain ⟨c', conn', heq, hp⟩ := exists_of_returns hrun
  obtain ⟨hsock, hne⟩ := of_decide_eq_true hp
  exact ⟨c', conn', heq, hsock, fun hclean => hne hclean.1⟩

end IstioVendor.Fhttp
