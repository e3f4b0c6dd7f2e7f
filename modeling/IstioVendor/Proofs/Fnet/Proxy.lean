import Mathlib.Data.List.Infix
import IstioVendor.Fnet.Network

/-!
# `IstioVendor.Proofs.Fnet.Proxy`: what the TCP proxy delivers, and that its sessions end

`Stepped` says what a step of a session can be. `Flow` is the invariant of one direction, as a
relation between the two connections and the copy, and each step is one lemma about it. A step of a
peer is a step of the sender of one direction and of the receiver of the other one, so that
`flow_step` uses two of these lemmas. `Closing` says what is closed in which phase.

`proxy_delivers` and `half_close_independent` are read off the invariant: no byte is lost, repeated
or out of order, and one direction does not end the other. The end of the stream that a peer sees is
the true one only when the connection of the other peer has not failed: the proxy has no other way
to pass a failure on than the end of the stream.

For `session_ends`, `work` counts the steps that are left. A session in which nothing more can
happen (`Stuck`) has ended, since a copy that is not at its end can read, write or wait for a peer
that receives.
-/

set_option autoImplicit false

namespace IstioVendor.Fnet

open Lib

/-- `Close` closes the connection. -/
theorem Conn.closed_close (c : Conn) : c.close.closed = true := by
  unfold Conn.close
  split <;> rfl

/-- `Close` ends the stream to the peer, or resets the connection when data is unread. -/
theorem Conn.finished_or_reset_close (c : Conn) :
    c.close.finished = true ∨ c.close.reset = true := by
  unfold Conn.close
  split
  · exact .inl rfl
  · exact .inr rfl

namespace Session

variable {s s' : Session} {e : End} {c : Conn} {t : Transfer} {window : Nat} {a : Action}

/-! ### One step -/

/-- The connection that was set. -/
@[simp] theorem conn_setConn_self : (s.setConn e c).conn e = c := Function.update_self ..

/-- The connection of the other peer stays. -/
@[simp] theorem conn_setConn_other : (s.setConn e c).conn e.other = s.conn e.other :=
  Function.update_of_ne e.other_ne ..

/-- The connection stays when that of the other peer is set. -/
@[simp] theorem conn_setConn_of_other : (s.setConn e.other c).conn e = s.conn e :=
  Function.update_of_ne e.ne_other ..

/-- A new connection leaves the copies as they are. -/
@[simp] theorem copy_setConn : (s.setConn e c).copy = s.copy := rfl

/-- A new connection leaves the phase as it is. -/
@[simp] theorem phase_setConn : (s.setConn e c).phase = s.phase := rfl

/-- The copy that was set. -/
@[simp] theorem copy_setCopy_self : (s.setCopy e t).copy e = t := Function.update_self ..

/-- The copy of the other direction stays. -/
@[simp] theorem copy_setCopy_other : (s.setCopy e t).copy e.other = s.copy e.other :=
  Function.update_of_ne e.other_ne ..

/-- A new copy leaves the connections as they are. -/
@[simp] theorem conn_setCopy : (s.setCopy e t).conn = s.conn := rfl

/-- A new copy leaves the phase as it is. -/
@[simp] theorem phase_setCopy : (s.setCopy e t).phase = s.phase := rfl

/-- What a step can be, with the conditions that the code puts on it. -/
inductive Stepped (window : Nat) (s : Session) : Action → Session → Prop where
  | send (e : End) (bytes : Bytes) (up : (s.conn e).reset = false) (fin : (s.conn e).fin = false) :
      Stepped window s (.send e bytes) (s.setConn e { s.conn e with
        sent := (s.conn e).sent ++ bytes, inbox := (s.conn e).inbox ++ bytes })
  | shutdown (e : End) : Stepped window s (.shutdown e) (s.setConn e { s.conn e with fin := true })
  | receive (e : End) (n : Nat) (pos : 0 < n) (le : n ≤ (s.conn e).outbox.length) :
      Stepped window s (.receive e n) (s.setConn e { s.conn e with
        received := (s.conn e).received ++ (s.conn e).outbox.take n
        outbox := (s.conn e).outbox.drop n })
  | seeEnd (e : End) (up : (s.conn e).reset = false) (finished : (s.conn e).finished = true)
      (empty : (s.conn e).outbox = []) (unseen : (s.conn e).eof = false) :
      Stepped window s (.seeEnd e) (s.setConn e { s.conn e with eof := true })
  | reset (e : End) : Stepped window s (.reset e) (s.setConn e { s.conn e with reset := true })
  | dialed (phase : s.phase = .dialing) : Stepped window s .dialed { s with phase := .running }
  | refused (phase : s.phase = .dialing) :
      Stepped window s .refused
        { (s.setConn .dest { s.conn .dest with reset := true }).setConn .client
            (s.conn .client).close with phase := .ended }
  | read (e : End) (n : Nat) (running : s.phase = .running) (place : (s.copy e).place = .copying)
      (held : (s.copy e).held = []) (pos : 0 < n) (le : n ≤ (s.conn e).inbox.length) :
      Stepped window s (.read e n)
        ((s.setConn e { s.conn e with inbox := (s.conn e).inbox.drop n }).setCopy e
          { s.copy e with held := (s.conn e).inbox.take n })
  | readEnd (e : End) (running : s.phase = .running) (place : (s.copy e).place = .copying)
      (held : (s.copy e).held = [])
      (ended : (s.conn e).reset = true ∨ (s.conn e).fin = true ∧ (s.conn e).inbox = []) :
      Stepped window s (.readEnd e) (s.setCopy e { s.copy e with place := .closeRead })
  | write (e : End) (n : Nat) (running : s.phase = .running)
      (place : (s.copy e).place = .copying) (up : (s.conn e.other).reset = false) (pos : 0 < n)
      (le : n ≤ (s.copy e).held.length) :
      Stepped window s (.write e n)
        ((s.setConn e.other { s.conn e.other with
            outbox := (s.conn e.other).outbox ++ (s.copy e).held.take n }).setCopy e
          { s.copy e with held := (s.copy e).held.drop n })
  | writeFail (e : End) (running : s.phase = .running) (place : (s.copy e).place = .copying)
      (held : (s.copy e).held ≠ []) (down : (s.conn e.other).reset = true) :
      Stepped window s (.writeFail e) (s.setCopy e { place := .closeRead, held := [] })
  | closeRead (e : End) (running : s.phase = .running) (place : (s.copy e).place = .closeRead) :
      Stepped window s (.closeRead e) (s.setCopy e { s.copy e with place := .closeWrite })
  | closeWrite (e : End) (running : s.phase = .running) (place : (s.copy e).place = .closeWrite) :
      Stepped window s (.closeWrite e)
        ((s.setConn e.other { s.conn e.other with finished := true }).setCopy e
          { s.copy e with place := .done })
  | closeDest (running : s.phase = .running) (done : ∀ e, (s.copy e).place = .done) :
      Stepped window s .closeDest { s.setConn .dest (s.conn .dest).close with phase := .destClosed }
  | closeClient (phase : s.phase = .destClosed) :
      Stepped window s .closeClient
        { s.setConn .client (s.conn .client).close with phase := .ended }

/-- The inversion of `step`. All facts about a step below are case analyses of `Stepped`. -/
theorem stepped_of_step (h : s.step window a = some s') : Stepped window s a s' := by
  cases a with
  | send e bytes =>
    obtain ⟨hc, ⟨⟩⟩ := Option.ite_none_right_eq_some.mp h
    simp only [connected, Bool.and_eq_true, Bool.not_eq_true'] at hc
    exact .send e bytes hc.1.1.1 hc.1.2
  | shutdown e =>
    simp only [step, Option.ite_none_right_eq_some, Option.some.injEq] at h
    obtain ⟨-, rfl⟩ := h
    exact .shutdown e
  | receive e n =>
    obtain ⟨hc, ⟨⟩⟩ := Option.ite_none_right_eq_some.mp h
    simp only [Bool.and_eq_true, decide_eq_true_eq] at hc
    exact .receive e n hc.1.2 hc.2
  | seeEnd e =>
    obtain ⟨hc, ⟨⟩⟩ := Option.ite_none_right_eq_some.mp h
    simp only [connected, Bool.and_eq_true, Bool.not_eq_true', beq_iff_eq] at hc
    exact .seeEnd e hc.1.1.1.1 hc.1.1.2 hc.1.2 hc.2
  | reset e =>
    cases h
    exact .reset e
  | dialed =>
    obtain ⟨hc, ⟨⟩⟩ := Option.ite_none_right_eq_some.mp h
    exact .dialed hc
  | refused =>
    obtain ⟨hc, ⟨⟩⟩ := Option.ite_none_right_eq_some.mp h
    exact .refused hc
  | read e n =>
    obtain ⟨hc, ⟨⟩⟩ := Option.ite_none_right_eq_some.mp h
    simp only [reading, Bool.and_eq_true, decide_eq_true_eq, beq_iff_eq] at hc
    exact .read e n hc.1.1.1.1.1 hc.1.1.1.1.2 hc.1.1.1.2 hc.1.1.2 hc.1.2
  | readEnd e =>
    obtain ⟨hc, ⟨⟩⟩ := Option.ite_none_right_eq_some.mp h
    simp only [reading, Bool.and_eq_true, Bool.or_eq_true, beq_iff_eq] at hc
    exact .readEnd e hc.1.1.1 hc.1.1.2 hc.1.2 hc.2
  | write e n =>
    obtain ⟨hc, ⟨⟩⟩ := Option.ite_none_right_eq_some.mp h
    simp only [writing, Bool.and_eq_true, Bool.not_eq_true', decide_eq_true_eq, beq_iff_eq] at hc
    exact .write e n hc.1.1.1.1.1.1 hc.1.1.1.1.1.2 hc.1.1.1.2 hc.1.1.2 hc.1.2
  | writeFail e =>
    obtain ⟨hc, ⟨⟩⟩ := Option.ite_none_right_eq_some.mp h
    simp only [writing, Bool.and_eq_true, bne_iff_ne, beq_iff_eq] at hc
    exact .writeFail e hc.1.1.1 hc.1.1.2 hc.1.2 hc.2
  | closeRead e =>
    obtain ⟨hc, ⟨⟩⟩ := Option.ite_none_right_eq_some.mp h
    simp only [behind, Bool.and_eq_true, beq_iff_eq] at hc
    exact .closeRead e hc.1 hc.2
  | closeWrite e =>
    obtain ⟨hc, ⟨⟩⟩ := Option.ite_none_right_eq_some.mp h
    simp only [behind, Bool.and_eq_true, beq_iff_eq] at hc
    exact .closeWrite e hc.1 hc.2
  | closeDest =>
    obtain ⟨hc, ⟨⟩⟩ := Option.ite_none_right_eq_some.mp h
    simp only [behind, Bool.and_eq_true, beq_iff_eq] at hc
    refine .closeDest hc.1.1 fun e => ?_
    cases e with
    | client => exact hc.1.2
    | dest => exact hc.2.2
  | closeClient =>
    obtain ⟨hc, ⟨⟩⟩ := Option.ite_none_right_eq_some.mp h
    exact .closeClient hc

end Session

/-! ### One direction -/

/-- The peer has closed its side, and all that it has sent was passed on. -/
def Through (src dst : Conn) : Prop :=
  src.fin = true ∧ src.inbox = [] ∧ src.sent = dst.received ++ dst.outbox

/-- The direction from `src` to `dst` with its copy. As long as the copy goes on, every byte is in
one of four places, in the order in which it was sent. Behind the copy all bytes were passed on, or
a connection has failed. -/
structure Flow (src dst : Conn) (t : Transfer) (phase : Phase) : Prop where
  delivered : dst.received ++ dst.outbox <+: src.sent
  copying : t.place = .copying → src.sent = dst.received ++ dst.outbox ++ t.held ++ src.inbox
  behind : t.place ≠ .copying → t.held = [] ∧
    (Through src dst ∨ src.reset = true ∨ dst.reset = true)
  finished : dst.finished = true → t.place = .done ∨ phase = .ended ∧ src.reset = true
  closes : t.place = .done → dst.finished = true
  seen : dst.eof = true → dst.finished = true ∧ dst.outbox = [] ∧
    (src.fin = true ∧ src.sent = dst.received ∨ src.reset = true)

namespace Flow

variable {src dst : Conn} {t : Transfer} {phase : Phase}

section
variable (h : Flow src dst t phase)
include h

/-- What the sender of the other direction does is no matter here. -/
theorem frameDst {sent inbox : Bytes} {fin : Bool} :
    Flow src { dst with sent := sent, inbox := inbox, fin := fin } t phase :=
  ⟨h.delivered, h.copying, h.behind, h.finished, h.closes, h.seen⟩

/-- What the receiver of the other direction does is no matter here. -/
theorem frameSrc {received outbox : Bytes} {finished eof : Bool} :
    Flow { src with received := received, outbox := outbox, finished := finished, eof := eof } dst t
      phase :=
  ⟨h.delivered, h.copying, h.behind, h.finished, h.closes, h.seen⟩

/-- The bytes that the sender sends are behind all others. -/
theorem send (hreset : src.reset = false) (hfin : src.fin = false) (bytes : Bytes) :
    Flow { src with sent := src.sent ++ bytes, inbox := src.inbox ++ bytes } dst t phase :=
  { h with
    delivered := h.delivered.trans (List.prefix_append ..)
    copying := fun hplace => by
      simp only [h.copying hplace, List.append_assoc]
    behind := fun hplace => by
      obtain ⟨hheld, hthrough | hbroken⟩ := h.behind hplace
      · exact absurd hthrough.1 (by simp [hfin])
      · exact ⟨hheld, .inr hbroken⟩
    seen := fun heof => by
      obtain ⟨_, _, ⟨hfin', _⟩ | hreset'⟩ := h.seen heof
      · simp [hfin] at hfin'
      · simp [hreset] at hreset' }

/-- The sender closes its side. -/
theorem shutdown : Flow { src with fin := true } dst t phase :=
  { h with
    behind := fun hplace => (h.behind hplace).imp_right
      (Or.imp_left fun hthrough => ⟨rfl, hthrough.2⟩)
    seen := fun heof => by
      obtain ⟨hfinished, hempty, hall⟩ := h.seen heof
      exact ⟨hfinished, hempty, hall.imp_left fun hall => ⟨rfl, hall.2⟩⟩ }

/-- The receiver takes bytes from the front of those that were written for it. -/
theorem receive {n : Nat} (hpos : 0 < n) (hn : n ≤ dst.outbox.length) :
    Flow src { dst with
      received := dst.received ++ dst.outbox.take n, outbox := dst.outbox.drop n } t phase :=
  { h with
    delivered := by simpa using h.delivered
    copying := fun hplace => by simpa using h.copying hplace
    behind := fun hplace => (h.behind hplace).imp_right
      (Or.imp_left fun hthrough => ⟨hthrough.1, hthrough.2.1, by simpa using hthrough.2.2⟩)
    seen := fun heof => by
      rw [(h.seen heof).2.1] at hn
      exact absurd hn (by simpa using hpos.ne') }

/-- The receiver sees the end of the stream. The copy is behind its end, or the proxy has given up.
-/
theorem seeEnd (hreset : dst.reset = false) (hfinished : dst.finished = true)
    (hempty : dst.outbox = []) : Flow src { dst with eof := true } t phase := by
  refine { h with seen := fun _ => ⟨hfinished, hempty, ?_⟩ }
  rcases h.finished hfinished with hdone | ⟨-, hsrc⟩
  · rcases (h.behind (by simp [hdone])).2 with hthrough | hsrc | hdst
    · exact .inl ⟨hthrough.1, by simpa [hempty] using hthrough.2.2⟩
    · exact .inr hsrc
    · simp [hreset] at hdst
  · exact .inr hsrc

/-- The connection of the sender fails. -/
theorem resetSrc : Flow { src with reset := true } dst t phase :=
  { h with
    behind := fun hplace => ⟨(h.behind hplace).1, .inr (.inl rfl)⟩
    finished := fun hfinished => (h.finished hfinished).imp_right fun hend => ⟨hend.1, rfl⟩
    seen := fun heof => ⟨(h.seen heof).1, (h.seen heof).2.1, .inr rfl⟩ }

/-- The connection of the receiver fails. -/
theorem resetDst : Flow src { dst with reset := true } t phase :=
  { h with behind := fun hplace => ⟨(h.behind hplace).1, .inr (.inr rfl)⟩ }

/-- The copy reads bytes, which it holds from then on. -/
theorem read (hplace : t.place = .copying) (hheld : t.held = []) (n : Nat) :
    Flow { src with inbox := src.inbox.drop n } dst { t with held := src.inbox.take n } phase :=
  { h with
    copying := fun _ => by simpa [hheld] using h.copying hplace
    behind := fun hplace' => absurd hplace hplace' }

/-- The copy comes to the end of the stream, or to a failure of the sender. -/
theorem readEnd (hplace : t.place = .copying) (hheld : t.held = [])
    (hover : src.reset = true ∨ src.fin = true ∧ src.inbox = []) (hphase : phase = .running) :
    Flow src dst { t with place := .closeRead } phase :=
  { h with
    copying := nofun
    behind := fun _ => by
      refine ⟨hheld, ?_⟩
      rcases hover with hreset | ⟨hfin, hempty⟩
      · exact .inr (.inl hreset)
      · exact .inl ⟨hfin, hempty, by simpa [hheld, hempty] using h.copying hplace⟩
    finished := fun hfinished => by
      simpa [hplace, hphase] using h.finished hfinished
    closes := nofun }

/-- The copy writes a part of what it holds. -/
theorem write (hplace : t.place = .copying) (hphase : phase = .running) (n : Nat) :
    Flow src { dst with outbox := dst.outbox ++ t.held.take n } { t with held := t.held.drop n }
      phase :=
  { h with
    delivered := by
      rw [h.copying hplace]
      conv_rhs => rw [← List.take_append_drop n t.held]
      exact ⟨t.held.drop n ++ src.inbox, by simp only [List.append_assoc]⟩
    copying := fun _ => by
      simpa [List.append_assoc] using h.copying hplace
    behind := fun hplace' => absurd hplace hplace'
    seen := fun heof => by
      have hfinished := h.finished (h.seen heof).1
      simp [hplace, hphase] at hfinished }

/-- The copy drops what it holds when the receiver is gone. -/
theorem writeFail (hplace : t.place = .copying) (hdown : dst.reset = true)
    (hphase : phase = .running) : Flow src dst { place := .closeRead, held := [] } phase :=
  { h with
    copying := nofun
    behind := fun _ => ⟨rfl, .inr (.inr hdown)⟩
    finished := fun hfinished => by
      simpa [hplace, hphase] using h.finished hfinished
    closes := nofun }

/-- Behind the copy, the read side of the sender is closed. -/
theorem closeRead (hplace : t.place = .closeRead) (hphase : phase = .running) :
    Flow src dst { t with place := .closeWrite } phase :=
  { h with
    copying := nofun
    behind := fun _ => h.behind (by simp [hplace])
    finished := fun hfinished => by
      simpa [hplace, hphase] using h.finished hfinished
    closes := nofun }

/-- Then the write side of the receiver is closed, and the direction is done. -/
theorem closeWrite (hplace : t.place = .closeWrite) :
    Flow src { dst with finished := true } { t with place := .done } phase where
  delivered := h.delivered
  copying := nofun
  behind := fun _ => h.behind (by simp [hplace])
  finished := fun _ => .inl rfl
  closes := fun _ => rfl
  seen := fun heof => ⟨rfl, (h.seen heof).2⟩

/-- The phase matters only for a connection that is closed before it was served. -/
theorem enter {phase' : Phase} (hphase : phase ≠ .ended) : Flow src dst t phase' :=
  ⟨h.delivered, h.copying, h.behind,
    fun hfinished => .inl ((h.finished hfinished).resolve_right fun hend => hphase hend.1),
    h.closes, h.seen⟩

/-- The proxy closes the connection of the sender. -/
theorem closeSrc : Flow src.close dst t phase := by
  unfold Conn.close
  split
  · exact ⟨h.delivered, h.copying, h.behind, h.finished, h.closes, h.seen⟩
  · have h' := h.resetSrc
    exact ⟨h'.delivered, h'.copying, h'.behind, h'.finished, h'.closes, h'.seen⟩

/-- The proxy closes the connection of the receiver when nothing is left to copy. -/
theorem closeDst (hend : t.place = .done ∨ phase = .ended ∧ src.reset = true) :
    Flow src dst.close t phase := by
  unfold Conn.close
  split
  · exact ⟨h.delivered, h.copying, h.behind, fun _ => hend, fun _ => rfl,
      fun heof => ⟨rfl, (h.seen heof).2⟩⟩
  · have h' := h.resetDst
    exact ⟨h'.delivered, h'.copying, h'.behind, h'.finished, h'.closes, h'.seen⟩

end

end Flow

/-! ### A session -/

variable {c : Conn} {e : End}

namespace Session

variable {s s' : Session} {window : Nat} {a : Action}

/-- What is closed when. The connections are closed behind both copies, or the destination was not
there. -/
structure Closing (s : Session) : Prop where
  served : s.phase = .destClosed ∨ s.phase = .ended →
    (∀ e, (s.copy e).place = .done) ∧ (s.conn .dest).closed = true ∨
      s.phase = .ended ∧ (s.conn .dest).reset = true
  ended : s.phase = .ended → (s.conn .client).closed = true
  closed : ∀ e, (s.conn e).closed = true → (s.conn e).finished = true ∨ (s.conn e).reset = true
  unclosed : s.phase = .dialing ∨ s.phase = .running → ∀ e, (s.conn e).closed = false

/-- The invariant of a session. -/
structure Inv (s : Session) : Prop extends Closing s where
  flow : ∀ e, Flow (s.conn e) (s.conn e.other) (s.copy e) s.phase

/-- The invariant holds when the proxy has accepted a connection. -/
theorem inv_accepted : Inv accepted where
  flow := fun e => by
    refine ⟨List.prefix_rfl, fun _ => rfl, fun hplace => absurd rfl hplace, ?_, ?_, ?_⟩
    · simp [accepted]
    · simp [accepted]
    · simp [accepted]
  served := by simp [accepted]
  ended := by simp [accepted]
  closed := by simp [accepted]
  unclosed := by simp [accepted]

/-- A step keeps both directions. It is a step of the sender of one, and of the receiver of the
other. -/
theorem flow_step (h : ∀ e, Flow (s.conn e) (s.conn e.other) (s.copy e) s.phase)
    (hdone : s.phase = .destClosed → ∀ e, (s.copy e).place = .done) (hs : Stepped window s a s') :
    ∀ e, Flow (s'.conn e) (s'.conn e.other) (s'.copy e) s'.phase := by
  have hback : ∀ e, Flow (s.conn e.other) (s.conn e) (s.copy e.other) s.phase := fun e => by
    simpa using h e.other
  -- The peer `e` is the source of one direction and the sink of the other one.
  cases hs with
  | send e bytes up fin =>
    refine End.forall_of e ?_ ?_
    · simpa using (h e).send up fin bytes
    · simpa using (hback e).frameDst
  | shutdown e =>
    refine End.forall_of e ?_ ?_
    · simpa using (h e).shutdown
    · simpa using (hback e).frameDst
  | receive e n pos le =>
    refine End.forall_of e ?_ ?_
    · simpa using (h e).frameSrc
    · simpa using (hback e).receive pos le
  | seeEnd e up finished empty unseen =>
    refine End.forall_of e ?_ ?_
    · simpa using (h e).frameSrc
    · simpa using (hback e).seeEnd up finished empty
  | reset e =>
    refine End.forall_of e ?_ ?_
    · simpa using (h e).resetSrc
    · simpa using (hback e).resetDst
  | dialed phase => exact fun e => (h e).enter (by simp [phase])
  | refused phase =>
    have hphase : s.phase ≠ .ended := by simp [phase]
    refine End.forall_of .client ?_ ?_
    · exact (((h .client).closeSrc).resetDst).enter hphase
    · exact (((h .dest).resetSrc).enter hphase).closeDst (.inr ⟨rfl, rfl⟩)
  | read e n running place held pos le =>
    refine End.forall_of e ?_ ?_
    · simpa using (h e).read place held n
    · simpa using (hback e).frameDst
  | readEnd e running place held ended =>
    refine End.forall_of e ?_ ?_
    · simpa using (h e).readEnd place held ended running
    · simpa using hback e
  | write e n running place up pos le =>
    refine End.forall_of e ?_ ?_
    · simpa using (h e).write place running n
    · simpa using (hback e).frameSrc
  | writeFail e running place held down =>
    refine End.forall_of e ?_ ?_
    · simpa using (h e).writeFail place down running
    · simpa using hback e
  | closeRead e running place =>
    refine End.forall_of e ?_ ?_
    · simpa using (h e).closeRead place running
    · simpa using hback e
  | closeWrite e running place =>
    refine End.forall_of e ?_ ?_
    · simpa using (h e).closeWrite place
    · simpa using (hback e).frameSrc
  | closeDest running done =>
    have hphase : s.phase ≠ .ended := by simp [running]
    refine End.forall_of .client ?_ ?_
    · exact ((h .client).enter hphase).closeDst (.inl (done _))
    · exact ((h .dest).enter hphase).closeSrc
  | closeClient phase =>
    have hphase : s.phase ≠ .ended := by simp [phase]
    refine End.forall_of .client ?_ ?_
    · exact ((h .client).enter hphase).closeSrc
    · exact ((h .dest).enter hphase).closeDst (.inl (hdone phase _))

namespace Closing

/-- A step that does not close a connection. -/
theorem setConn (h : Closing s) (hclosed : c.closed = (s.conn e).closed)
    (hfinished : (s.conn e).finished = true → c.finished = true)
    (hreset : (s.conn e).reset = true → c.reset = true) : Closing (s.setConn e c) := by
  have hclosed' : ∀ f, ((s.setConn e c).conn f).closed = (s.conn f).closed :=
    End.forall_of e (by simpa using hclosed) (by simp)
  have hreset' : ∀ f, (s.conn f).reset = true → ((s.setConn e c).conn f).reset = true :=
    End.forall_of e (by simpa using hreset) (by simp)
  have hfinished' : ∀ f, (s.conn f).finished = true → ((s.setConn e c).conn f).finished = true :=
    End.forall_of e (by simpa using hfinished) (by simp)
  refine ⟨fun hphase => ?_, fun hphase => ?_, fun f hf => ?_, fun hphase f => ?_⟩
  · rw [hclosed']
    exact (h.served hphase).imp_right (And.imp_right (hreset' _))
  · rw [hclosed']
    exact h.ended hphase
  · rw [hclosed'] at hf
    exact (h.closed f hf).imp (hfinished' f) (hreset' f)
  · rw [hclosed']
    exact h.unclosed hphase f

/-- While the session is running, a copy closes nothing. -/
theorem setCopy (h : Closing s) (hrunning : s.phase = .running) (e : End) (t : Transfer) :
    Closing (s.setCopy e t) :=
  ⟨by simp [hrunning], by simp [hrunning], h.closed, h.unclosed⟩

end Closing

/-- A step keeps what is closed when. -/
theorem closing_step (h : Closing s) (hs : Stepped window s a s') : Closing s' := by
  cases hs with
  | send | shutdown | receive | seeEnd => exact h.setConn rfl id id
  | reset => exact h.setConn rfl id fun _ => rfl
  | dialed phase => exact ⟨by simp, by simp, h.closed, fun _ => h.unclosed (.inl phase)⟩
  | refused =>
    refine ⟨fun _ => .inr ⟨rfl, rfl⟩, fun _ => Conn.closed_close _, ?_, by simp⟩
    exact End.forall_of .client (fun _ => Conn.finished_or_reset_close _) fun _ => .inr rfl
  | read _ _ running | write _ _ running =>
    refine Closing.setCopy (s := s.setConn _ _) ?_ running ..
    exact h.setConn rfl id id
  | readEnd _ running | writeFail _ running | closeRead _ running => exact h.setCopy running ..
  | closeWrite _ running =>
    refine Closing.setCopy (s := s.setConn _ _) ?_ running ..
    exact h.setConn rfl (fun _ => rfl) id
  | closeDest running done =>
    refine ⟨fun _ => .inl ⟨done, Conn.closed_close _⟩, by simp, ?_, by simp⟩
    exact End.forall_of .dest (fun _ => Conn.finished_or_reset_close _) (h.closed .client)
  | closeClient phase =>
    have hserved := (h.served (.inl phase)).resolve_right (by simp [phase])
    refine ⟨fun _ => .inl hserved, fun _ => Conn.closed_close _, ?_, by simp⟩
    exact End.forall_of .client (fun _ => Conn.finished_or_reset_close _) (h.closed .dest)

/-- The step lemma. -/
theorem inv_step (h : Inv s) (hs : Stepped window s a s') : Inv s' where
  toClosing := closing_step h.toClosing hs
  flow := by
    refine flow_step h.flow (fun hphase => ?_) hs
    exact ((h.served (.inl hphase)).resolve_right (by simp [hphase])).1

/-- The run lemma, for one session. -/
theorem inv_of_reachable (hr : Reachable (step window) (fun _ _ => true) accepted s) : Inv s :=
  hr.inv Inv inv_accepted fun _ _ _ h _ heq => inv_step h (stepped_of_step heq)

end Session

/-! ### What is delivered -/

section
variable {window : Nat} {sessions : List Session}

/-- Every session of a proxy has the invariant, whatever the other sessions do. -/
theorem inv_of_proxy (hr : Reachable (proxyStep window) (fun _ _ => true) [] sessions)
    {s : Session} (hs : s ∈ sessions) : s.Inv :=
  Session.inv_of_reachable (reachable_of_mem_pool hr hs)

/-- In every session that the proxy serves, whatever the peers and the network do and in every
order of the steps: what a peer has received is the start of what the other one has sent; as long as
no connection fails no byte is lost or stands in a wrong place; and a peer that sees the end of the
stream has all bytes of the other one, which has closed its side, unless the connection of the other
one has failed. -/
theorem proxy_delivers (hr : Reachable (proxyStep window) (fun _ _ => true) [] sessions) :
    ∀ s ∈ sessions, ∀ e,
      (s.conn e.other).received <+: (s.conn e).sent ∧
      ((∀ f, (s.conn f).reset = false) → (s.conn e).sent
        = (s.conn e.other).received ++ (s.conn e.other).outbox ++ (s.copy e).held
          ++ (s.conn e).inbox) ∧
      ((s.conn e.other).eof = true → (s.conn e).reset = false →
        (s.conn e).fin = true ∧ (s.conn e.other).received = (s.conn e).sent) := by
  intro s hs e
  have hflow := (inv_of_proxy hr hs).flow e
  refine ⟨(List.prefix_append ..).trans hflow.delivered, fun hup => ?_, fun heof hup => ?_⟩
  · by_cases hplace : (s.copy e).place = .copying
    · exact hflow.copying hplace
    · obtain ⟨hheld, hthrough | hbroken⟩ := hflow.behind hplace
      · simpa [hheld, hthrough.2.1] using hthrough.2.2
      · simp [hup] at hbroken
  · obtain ⟨-, -, ⟨hfin, hall⟩ | hreset⟩ := hflow.seen heof
    · exact ⟨hfin, hall.symm⟩
    · simp [hup] at hreset

/-- A client that sends two bytes and closes its side, up to the end that the destination sees. -/
def twoBytes : List (PoolAction Action) :=
  .start :: [.send .client [104, 105], .dialed, .read .client 2, .shutdown .client,
    .write .client 1, .receive .dest 1, .write .client 1, .receive .dest 1, .readEnd .client,
    .closeRead .client, .closeWrite .client, .seeEnd .dest].map (.act 0)

/-- A session with a window of one byte. The client sends two bytes and closes its side. -/
theorem exists_twoBytes : ∃ sessions, Reachable (proxyStep 1) (fun _ _ => true) [] sessions ∧
    ∃ s ∈ sessions, s.phase = .running ∧ (∀ e, (s.conn e).reset = false) ∧
      (s.conn .client).sent = [104, 105] ∧ (s.conn .dest).eof = true ∧
      (s.conn .dest).fin = false := by
  obtain ⟨sessions, hr, hp⟩ := exists_reachable (proxyStep 1) (fun _ _ => true) [] twoBytes
    (p := fun sessions => sessions.any fun s => s.phase == .running && !(s.conn .client).reset &&
      !(s.conn .dest).reset && (s.conn .client).sent == [104, 105] && (s.conn .dest).eof &&
      !(s.conn .dest).fin) (by decide)
  obtain ⟨s, hs, hp⟩ := List.any_eq_true.mp hp
  simp only [Bool.and_eq_true, Bool.not_eq_true', beq_iff_eq] at hp
  obtain ⟨⟨⟨⟨⟨hrunning, hclient⟩, hdest⟩, hsent⟩, heof⟩, hfin⟩ := hp
  exact ⟨sessions, hr, s, hs, hrunning, End.forall_of .client hclient hdest, hsent, heof, hfin⟩

/-- The two bytes arrive. -/
theorem proxy_delivers_twoBytes :
    ∃ sessions, Reachable (proxyStep 1) (fun _ _ => true) [] sessions ∧
      ∃ s ∈ sessions, (s.conn .dest).received = [104, 105] := by
  obtain ⟨sessions, hr, s, hs, -, hup, hsent, heof, -⟩ := exists_twoBytes
  have hall := ((proxy_delivers hr s hs .client).2.2 heof (hup _)).2
  exact ⟨sessions, hr, s, hs, hall.trans hsent⟩

/-- A peer that closes its side ends its own direction only. As long as no connection fails, the
direction of a peer that has not closed its side goes on: its copy reads, the other peer is not told
the end of the stream, and no connection is closed. -/
theorem half_close_independent (hr : Reachable (proxyStep window) (fun _ _ => true) [] sessions) :
    ∀ s ∈ sessions, s.phase ≠ .dialing → (∀ f, (s.conn f).reset = false) →
      ∀ e, (s.conn e).fin = false →
        s.phase = .running ∧ (s.copy e).place = .copying ∧ (s.conn e.other).finished = false ∧
          ∀ f, (s.conn f).closed = false := by
  intro s hs hdialed hup e hfin
  have h := inv_of_proxy hr hs
  have hflow := h.flow e
  have hplace : (s.copy e).place = .copying := by
    by_contra hplace
    obtain ⟨-, hthrough | hbroken⟩ := hflow.behind hplace
    · simp [hthrough.1] at hfin
    · simp [hup] at hbroken
  have hrunning : s.phase = .running := by
    have hserved : ¬ (s.phase = .destClosed ∨ s.phase = .ended) := fun hphase => by
      rcases h.served hphase with ⟨hdone, -⟩ | ⟨-, hreset⟩
      · simp [hdone e] at hplace
      · simp [hup] at hreset
    cases hphase : s.phase with
    | dialing => exact absurd hphase hdialed
    | running => rfl
    | destClosed => exact absurd (.inl hphase) hserved
    | ended => exact absurd (.inr hphase) hserved
  refine ⟨hrunning, hplace, ?_, h.unclosed (.inr hrunning)⟩
  rw [← Bool.not_eq_true]
  intro hfinished
  simpa [hplace, hrunning] using hflow.finished hfinished

/-- The other direction goes on behind the end of the first. -/
theorem half_close_independent_twoBytes :
    ∃ sessions, Reachable (proxyStep 1) (fun _ _ => true) [] sessions ∧
      ∃ s ∈ sessions, (s.conn .dest).eof = true ∧ (s.copy .dest).place = .copying := by
  obtain ⟨sessions, hr, s, hs, hrunning, hup, -, heof, hfin⟩ := exists_twoBytes
  have hplace := (half_close_independent hr s hs (by simp [hrunning]) hup .dest hfin).2.1
  exact ⟨sessions, hr, s, hs, heof, hplace⟩

end

/-! ### The end of a session -/

/-- `Close` drops nothing of what was not read. -/
@[simp] theorem Conn.inbox_close (c : Conn) : c.close.inbox = c.inbox := by
  unfold Conn.close
  split <;> rfl

/-- `Close` drops nothing of what was written. -/
@[simp] theorem Conn.outbox_close (c : Conn) : c.close.outbox = c.outbox := by
  unfold Conn.close
  split <;> rfl

/-- `Close` is not seen by the peer at once. -/
@[simp] theorem Conn.eof_close (c : Conn) : c.close.eof = c.eof := by
  unfold Conn.close
  split <;> rfl

/-- `Close` does not close the side of the peer. -/
@[simp] theorem Conn.fin_close (c : Conn) : c.close.fin = c.fin := by
  unfold Conn.close
  split <;> rfl

/-- `Close` does not reset a connection without unread data. -/
theorem Conn.reset_close (h : c.inbox = []) : c.close.reset = c.reset := by
  rw [close, if_pos h]

/-- A connection that was reset stays so. -/
theorem Conn.reset_close_of (h : c.reset = true) : c.close.reset = true := by
  unfold Conn.close
  split
  · exact h
  · rfl

/-- The calls that a copy still makes. -/
def Place.rank : Place → Nat
  | .copying => 3
  | .closeRead => 2
  | .closeWrite => 1
  | .done => 0

/-- The phases that are still to come. -/
def Phase.rank : Phase → Nat
  | .dialing => 3
  | .running => 2
  | .destClosed => 1
  | .ended => 0

namespace Session

variable {s s' : Session} {window : Nat} {a : Action}

/-- What is left to do for `e`: a byte is read, written and received. -/
def pending (s : Session) (e : End) : Nat :=
  3 * (s.conn e).inbox.length + 2 * (s.copy e).held.length + (s.conn e).outbox.length
    + (s.copy e).place.rank + (!(s.conn e).eof).toNat

/-- The steps that are left at most. -/
def work (s : Session) : Nat := s.pending .client + s.pending .dest + s.phase.rank

/-- The work, seen from either end. -/
theorem work_eq (s : Session) (e : End) :
    s.work = s.pending e + s.pending e.other + s.phase.rank := by
  cases e with
  | client => rfl
  | dest => rw [work, End.other, Nat.add_comm (s.pending .dest)]

/-- Every step other than those that the peers and the network are free to take brings the session
nearer to its end. -/
theorem work_lt (hs : Stepped window s a s') (hfree : a.free = false) : s'.work < s.work := by
  cases hs with
  | send | shutdown | reset => exact absurd hfree (by simp [Action.free])
  | receive e n pos le =>
    rw [work_eq s e, work_eq _ e]
    simp only [pending, conn_setConn_self, copy_setConn, List.length_drop, conn_setConn_other,
      phase_setConn]
    omega
  | seeEnd e _ _ _ unseen =>
    rw [work_eq s e, work_eq _ e]
    simp [pending, unseen]
  | dialed phase => simp [work, pending, phase, Phase.rank]
  | refused phase =>
    rw [work_eq s .client, work_eq _ .client]
    simp [pending, phase, Phase.rank, End.other, setConn]
  | read e n _ _ held pos le =>
    rw [work_eq s e, work_eq _ e]
    simp only [pending, conn_setCopy, conn_setConn_self, List.length_drop, copy_setCopy_self,
      List.length_take, conn_setConn_other, copy_setCopy_other, copy_setConn, phase_setCopy,
      phase_setConn, held, List.length_nil]
    omega
  | readEnd e _ place =>
    rw [work_eq s e, work_eq _ e]
    simp [pending, place, Place.rank]
  | write e n _ _ _ pos le =>
    rw [work_eq s e, work_eq _ e]
    simp only [pending, conn_setCopy, conn_setConn_of_other, copy_setCopy_self, List.length_drop,
      conn_setConn_self, copy_setCopy_other, copy_setConn, List.length_append, List.length_take,
      phase_setCopy, phase_setConn]
    omega
  | writeFail e _ place =>
    rw [work_eq s e, work_eq _ e]
    simp only [pending, conn_setCopy, copy_setCopy_self, List.length_nil, Place.rank,
      copy_setCopy_other, phase_setCopy, place]
    omega
  | closeRead e _ place =>
    rw [work_eq s e, work_eq _ e]
    simp [pending, place, Place.rank]
  | closeWrite e _ place =>
    rw [work_eq s e, work_eq _ e]
    simp [pending, place, Place.rank]
  | closeDest running =>
    rw [work_eq s .client, work_eq _ .client]
    simp [pending, running, Phase.rank, End.other, setConn]
  | closeClient phase =>
    rw [work_eq s .client, work_eq _ .client]
    simp [pending, phase, Phase.rank, End.other, setConn]

/-- Nothing more happens by itself. -/
def Stuck (window : Nat) (s : Session) : Prop :=
  ∀ a : Action, a.free = false → s.step window a = none

section
variable (hwindow : 0 < window) (hends : ∀ e, (s.conn e).fin = true ∨ (s.conn e).reset = true)
  (hstuck : Stuck window s)

include hstuck in
/-- A peer that is there has received all. -/
theorem Stuck.outbox_eq_nil (hphase : s.phase ≠ .dialing) (hup : (s.conn e).reset = false) :
    (s.conn e).outbox = [] := by
  by_contra hne
  have hreceive := hstuck (.receive e 1) rfl
  have hpos : 1 ≤ (s.conn e).outbox.length := List.length_pos_iff.mpr hne
  simp [step, connected, hup, hphase, hpos] at hreceive

include hwindow hends hstuck in
/-- A copy does not wait when both peers have closed their sides. -/
theorem Stuck.place_eq_done (hrunning : s.phase = .running) (e : End) :
    (s.copy e).place = .done := by
  cases hplace : (s.copy e).place with
  | done => rfl
  | closeRead =>
    have hclose := hstuck (.closeRead e) rfl
    simp [step, behind, hrunning, hplace] at hclose
  | closeWrite =>
    have hclose := hstuck (.closeWrite e) rfl
    simp [step, behind, hrunning, hplace] at hclose
  | copying =>
    by_cases hheld : (s.copy e).held = []
    · by_cases hinbox : (s.conn e).inbox = []
      · have hread := hstuck (.readEnd e) rfl
        have hover := (hends e).symm
        simp [step, reading, hrunning, hplace, hheld, hinbox] at hread
        simp [hread] at hover
      · have hread := hstuck (.read e 1) rfl
        have hpos : 1 ≤ (s.conn e).inbox.length := List.length_pos_iff.mpr hinbox
        simp [step, reading, hrunning, hplace, hheld, hpos, copyBuffer] at hread
    · have hpos : 1 ≤ (s.copy e).held.length := List.length_pos_iff.mpr hheld
      cases hdown : (s.conn e.other).reset with
      | true =>
        have hwrite := hstuck (.writeFail e) rfl
        simp [step, writing, hrunning, hplace, hheld, hdown] at hwrite
      | false =>
        -- The peer has received everything, so that there is room.
        have hempty := hstuck.outbox_eq_nil (by simp [hrunning]) hdown
        have hwrite := hstuck (.write e 1) rfl
        simp [step, writing, hrunning, hplace, hheld, hdown, hpos, hempty,
          Nat.one_le_iff_ne_zero, hwindow.ne'] at hwrite

include hwindow hends hstuck in
/-- A session in which nothing can happen has ended. -/
theorem Stuck.phase_eq_ended : s.phase = .ended := by
  cases hphase : s.phase with
  | ended => rfl
  | dialing =>
    have hdial := hstuck .dialed rfl
    simp [step, hphase] at hdial
  | running =>
    have hclose := hstuck .closeDest rfl
    simp [step, behind, hphase, hstuck.place_eq_done hwindow hends hphase] at hclose
  | destClosed =>
    have hclose := hstuck .closeClient rfl
    simp [step, hphase] at hclose

include hwindow hends hstuck in
/-- Each peer has then seen the end of its stream, or has failed. -/
theorem Stuck.eof_or_reset (h : Inv s) (e : End) :
    (s.conn e).eof = true ∨ (s.conn e).reset = true := by
  have hended := hstuck.phase_eq_ended hwindow hends
  cases hup : (s.conn e).reset with
  | true => exact .inr rfl
  | false =>
    refine .inl ?_
    have hclosed : (s.conn e).closed = true := by
      cases e with
      | client => exact h.ended hended
      | dest =>
        rcases h.served (.inr hended) with ⟨-, hclosed⟩ | ⟨-, hreset⟩
        · exact hclosed
        · simp [hup] at hreset
    have hfinished := (h.closed e hclosed).resolve_right (by simp [hup])
    have hempty := hstuck.outbox_eq_nil (by simp [hended]) hup
    have hsee := hstuck (.seeEnd e) rfl
    simpa [step, connected, hup, hended, hfinished, hempty] using hsee

end

/-- No connection has failed when the new one has not. -/
theorem up_setConn (hup : ∀ e, (s.conn e).reset = false) (hc : c.reset = (s.conn e).reset)
    (f : End) : ((s.setConn e c).conn f).reset = false :=
  End.forall_of (P := fun f => ((s.setConn e c).conn f).reset = false) e
    (by rw [conn_setConn_self, hc, hup]) (by rw [conn_setConn_other, hup]) f

/-- Behind the dial no step makes a connection fail when none has failed before: what was passed on
to the end is not there to be read any more, so that `Close` does not reset. -/
theorem up_step (h : Inv s) (hs : Stepped window s a s') (hfree : a.free = false)
    (hphase : s.phase ≠ .dialing) (hup : ∀ e, (s.conn e).reset = false) :
    s'.phase ≠ .dialing ∧ ∀ e, (s'.conn e).reset = false := by
  have hread : ∀ e, (s.copy e).place = .done → (s.conn e).inbox = [] := fun e hdone => by
    rcases ((h.flow e).behind (by simp [hdone])).2 with hthrough | hbroken
    · exact hthrough.2.1
    · simp [hup] at hbroken
  cases hs with
  | send | shutdown | reset => exact absurd hfree (by simp [Action.free])
  | dialed phase | refused phase => exact absurd phase hphase
  | receive | seeEnd => exact ⟨hphase, up_setConn hup rfl⟩
  | read | write | closeWrite => exact ⟨hphase, up_setConn hup rfl⟩
  | readEnd | writeFail | closeRead => exact ⟨hphase, hup⟩
  | closeDest running done =>
    exact ⟨nofun, up_setConn hup (Conn.reset_close (hread .dest (done _)))⟩
  | closeClient phase =>
    have hserved := (h.served (.inl phase)).resolve_right (by simp [phase])
    exact ⟨nofun, up_setConn hup (Conn.reset_close (hread .client (hserved.1 _)))⟩

/-- Each peer has closed its side or failed, when this is true of the new connection. -/
theorem over_setConn (hends : ∀ e, (s.conn e).fin = true ∨ (s.conn e).reset = true)
    (hfin : c.fin = (s.conn e).fin) (hreset : (s.conn e).reset = true → c.reset = true) (f : End) :
    ((s.setConn e c).conn f).fin = true ∨ ((s.setConn e c).conn f).reset = true := by
  refine End.forall_of (P := fun f => ((s.setConn e c).conn f).fin = true ∨
    ((s.setConn e c).conn f).reset = true) e ?_ ?_ f
  · rw [conn_setConn_self, hfin]
    exact (hends e).imp_right hreset
  · rw [conn_setConn_other]
    exact hends e.other

/-- A peer that has closed its side or lost its connection stays so. -/
theorem over_step (hends : ∀ e, (s.conn e).fin = true ∨ (s.conn e).reset = true)
    (hs : Stepped window s a s') (hfree : a.free = false) :
    ∀ e, (s'.conn e).fin = true ∨ (s'.conn e).reset = true := by
  cases hs with
  | send | shutdown | reset => exact absurd hfree (by simp [Action.free])
  | dialed => exact hends
  | receive | seeEnd | read | write | closeWrite => exact over_setConn hends rfl id
  | readEnd | writeFail | closeRead => exact hends
  | refused =>
    refine End.forall_of .client ?_ (.inr rfl)
    exact over_setConn hends (Conn.fin_close _) Conn.reset_close_of .client
  | closeDest => exact over_setConn hends (Conn.fin_close _) Conn.reset_close_of
  | closeClient => exact over_setConn hends (Conn.fin_close _) Conn.reset_close_of

/-- Every session gets to where nothing more happens by itself. Induction on the work that is
left. -/
theorem exists_stuck (window : Nat) (s : Session) :
    ∃ as s', runAll (step window) (fun _ a => !a.free) s as = some s' ∧ s'.Stuck window := by
  induction hwork : s.work using Nat.strong_induction_on generalizing s with
  | _ n ih =>
    by_cases hstuck : s.Stuck window
    · exact ⟨[], s, rfl, hstuck⟩
    · unfold Stuck at hstuck
      push Not at hstuck
      obtain ⟨a, hfree, hsome⟩ := hstuck
      obtain ⟨s₁, hstep⟩ := Option.ne_none_iff_exists'.mp hsome
      have hless := work_lt (stepped_of_step hstep) hfree
      obtain ⟨as, s', hrun, hstuck'⟩ := ih s₁.work (by omega) s₁ rfl
      refine ⟨a :: as, s', ?_, hstuck'⟩
      simp [runAll, hfree, hstep, hrun]

end Session

/-- A session ends. When both peers have closed their sides or lost their connections, every run of
the proxy and of the peers, as they receive, is bounded. When nothing more is to be done, both
connections are closed or lost, and both peers have seen the end of the stream. When no connection
has failed, each peer then has all that the other one has sent. -/
theorem session_ends {window : Nat} (hwindow : 0 < window) {sessions : List Session}
    (hr : Reachable (proxyStep window) (fun _ _ => true) [] sessions) {s : Session}
    (hs : s ∈ sessions) (hends : ∀ e, (s.conn e).fin = true ∨ (s.conn e).reset = true) :
    ∃ bound, ∀ as s', runAll (Session.step window) (fun _ a => !a.free) s as = some s' →
      as.length ≤ bound ∧
      (s'.Stuck window →
        s'.phase = .ended ∧ (s'.conn .client).closed = true ∧
        ((s'.conn .dest).closed = true ∨ (s'.conn .dest).reset = true) ∧
        (∀ e, (s'.conn e).eof = true ∨ (s'.conn e).reset = true) ∧
        (s.phase ≠ .dialing → (∀ e, (s.conn e).reset = false) →
          ∀ e, (s'.conn e).eof = true ∧ (s'.conn e).received = (s'.conn e.other).sent)) := by
  refine ⟨s.work, fun as s' hrun => ⟨?_, fun hstuck => ?_⟩⟩
  · have hle := length_le_of_runAll Session.work (fun s a s' hok heq =>
      Session.work_lt (Session.stepped_of_step heq) (by simpa using hok)) hrun
    omega
  · have hinv : s'.Inv := runAll_inv hrun Session.Inv (inv_of_proxy hr hs)
      fun s a s' h _ heq => Session.inv_step h (Session.stepped_of_step heq)
    have hends' : ∀ e, (s'.conn e).fin = true ∨ (s'.conn e).reset = true :=
      runAll_inv hrun (fun s => ∀ e, (s.conn e).fin = true ∨ (s.conn e).reset = true) hends
        fun s a s' h hok heq =>
          Session.over_step h (Session.stepped_of_step heq) (by simpa using hok)
    have hended := hstuck.phase_eq_ended hwindow hends'
    refine ⟨hended, hinv.ended hended, ?_, hstuck.eof_or_reset hwindow hends' hinv, ?_⟩
    · exact (hinv.served (.inr hended)).imp And.right And.right
    · intro hphase hup e
      have hup' : s'.phase ≠ .dialing ∧ ∀ e, (s'.conn e).reset = false := by
        refine (runAll_inv hrun (fun s => s.Inv ∧ s.phase ≠ .dialing ∧
          ∀ e, (s.conn e).reset = false) ⟨inv_of_proxy hr hs, hphase, hup⟩ ?_).2
        rintro s a s' ⟨h, hphase, hup⟩ hok heq
        have hstep := Session.stepped_of_step heq
        exact ⟨Session.inv_step h hstep, Session.up_step h hstep (by simpa using hok) hphase hup⟩
      have heof := (hstuck.eof_or_reset hwindow hends' hinv e).resolve_right (by simp [hup'.2])
      have hflow := hinv.flow e.other
      rw [End.other_other] at hflow
      obtain ⟨-, -, ⟨-, hall⟩ | hreset⟩ := hflow.seen heof
      · exact ⟨heof, hall.symm⟩
      · simp [hup'.2] at hreset

/-- The session of `twoBytes`, in which the destination closes its side too, goes on to its end
within a bound. Both peers have then seen the end, and have what the other one sent. -/
theorem session_ends_twoBytes :
    ∃ (s : Session) (bound : Nat) (as : List Action) (s' : Session),
      (∀ e, (s.conn e).fin = true) ∧
      runAll (Session.step 1) (fun _ a => !a.free) s as = some s' ∧ s'.Stuck 1 ∧
      as.length ≤ bound ∧ s'.phase = .ended ∧
      ∀ e, (s'.conn e).eof = true ∧ (s'.conn e).received = (s'.conn e.other).sent := by
  obtain ⟨sessions, hr, hp⟩ := exists_reachable (proxyStep 1) (fun _ _ => true) []
    (twoBytes ++ [.act 0 (.shutdown .dest)])
    (p := fun sessions => sessions.any fun s => s.phase == .running && (s.conn .client).fin &&
      (s.conn .dest).fin && !(s.conn .client).reset && !(s.conn .dest).reset) (by decide)
  obtain ⟨s, hs, hp⟩ := List.any_eq_true.mp hp
  simp only [Bool.and_eq_true, Bool.not_eq_true', beq_iff_eq] at hp
  obtain ⟨⟨⟨⟨hrunning, hclient⟩, hdest⟩, hclientUp⟩, hdestUp⟩ := hp
  have hfin : ∀ e, (s.conn e).fin = true := End.forall_of .client hclient hdest
  have hup : ∀ e, (s.conn e).reset = false := End.forall_of .client hclientUp hdestUp
  obtain ⟨bound, hbound⟩ := session_ends (by decide) hr hs fun e => .inl (hfin e)
  obtain ⟨as, s', hrun, hstuck⟩ := s.exists_stuck 1
  obtain ⟨hle, hend⟩ := hbound as s' hrun
  obtain ⟨hended, -, -, -, hall⟩ := hend hstuck
  have hphase : s.phase ≠ .dialing := by
    rw [hrunning]
    nofun
  exact ⟨s, bound, as, s', hfin, hrun, hstuck, hle, hended, hall hphase hup⟩

end IstioVendor.Fnet
