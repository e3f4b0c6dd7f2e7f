import Mathlib.Logic.Function.Basic
import IstioVendor.Lib.Text
import IstioVendor.Lib.Transitions

/-!
# `IstioVendor.Fnet.Network`: the TCP proxy of `fnet/network.go`

`Proxy` accepts connections and serves each one in a goroutine of its own. `handleProxyRequest`
dials the destination and starts two `transfer`s, one for each direction. A `transfer` is an
`io.Copy`, and then `CloseRead` of the connection it has read from and `CloseWrite` of the other
one. When both have ended the two connections are closed.

A `Session` is one call of `handleProxyRequest`. The client and the destination have the same part
in it, so that the two connections and the two copies are functions of the `End`. The copy from
`e` reads from the connection of `e` and writes to the one of `e.other`.

`Session.step` is the interleaving of the goroutines of a session with the two peers and the
network. A peer can send, close its side for writing, receive, and see the end of the stream. A
connection can fail at any time (`reset`), and then reads and writes of it fail. `io.Copy` reads at
most `copyBuffer` bytes at a time and writes them, as far as the socket has room (`window`), before
it reads again. `Close` of a socket with bytes that were not read resets the connection.

Left out: the log, the addresses of the connections and how they are found (`NormalizePort`,
`Resolve`, `ResolveDestination`), and `Listen`, which is the system call. The errors of `CloseRead`,
`CloseWrite` and `Close` are only logged.
-/

set_option autoImplicit false

namespace IstioVendor.Fnet

open Lib

/-! ### A session of the proxy -/

inductive End where
  | client
  | dest
deriving DecidableEq

def End.other : End → End
  | .client => .dest
  | .dest => .client

@[simp] theorem End.other_other (e : End) : e.other.other = e := by cases e <;> rfl

@[simp] theorem End.other_ne (e : End) : e.other ≠ e := by cases e <;> decide

@[simp] theorem End.ne_other (e : End) : e ≠ e.other := by cases e <;> decide

theorem End.forall_of {P : End → Prop} (e : End) (h : P e) (h' : P e.other) (f : End) : P f := by
  cases e <;> cases f <;> assumption

/-- The connection between the proxy and a peer. `sent` and `received` are all bytes of the peer
so far, and `inbox` and `outbox` the bytes that the proxy has not read and the peer not received.
`fin` says that the peer has closed its side, `finished` that the proxy has closed its own one, and
`eof` that the peer has seen this. -/
structure Conn where
  sent : Bytes := []
  fin : Bool := false
  inbox : Bytes := []
  outbox : Bytes := []
  received : Bytes := []
  finished : Bool := false
  eof : Bool := false
  reset : Bool := false
  closed : Bool := false

/-- Where a `transfer` is: in `io.Copy`, before `CloseRead`, before `CloseWrite`, or behind
`wg.Done`. -/
inductive Place where
  | copying
  | closeRead
  | closeWrite
  | done
deriving DecidableEq

/-- A `transfer`, with the bytes that were read and not written. -/
structure Transfer where
  place : Place := .copying
  held : Bytes := []

/-- Where `handleProxyRequest` is. -/
inductive Phase where
  | dialing
  | running
  | destClosed
  | ended
deriving DecidableEq

structure Session where
  conn : End → Conn
  copy : End → Transfer
  phase : Phase

/-- A connection that was just accepted. -/
def Session.accepted : Session := ⟨fun _ => {}, fun _ => {}, .dialing⟩

inductive Action where
  | send (e : End) (bytes : Bytes)
  | shutdown (e : End)
  | receive (e : End) (n : Nat)
  | seeEnd (e : End)
  | reset (e : End)
  | dialed
  | refused
  | read (e : End) (n : Nat)
  | readEnd (e : End)
  | write (e : End) (n : Nat)
  | writeFail (e : End)
  | closeRead (e : End)
  | closeWrite (e : End)
  | closeDest
  | closeClient

/-- What the peers and the network do by themselves: to send, to close, to fail. -/
def Action.free : Action → Bool
  | .send .. | .shutdown _ | .reset _ => true
  | _ => false

/-- The buffer of `io.Copy`. -/
def copyBuffer : Nat := 32 * 1024

/-- `Close`, as the kernel does it. -/
def Conn.close (c : Conn) : Conn :=
  if c.inbox = [] then { c with finished := true, closed := true }
  else { c with reset := true, closed := true }

namespace Session

def setConn (s : Session) (e : End) (c : Conn) : Session :=
  { s with conn := Function.update s.conn e c }

def setCopy (s : Session) (e : End) (t : Transfer) : Session :=
  { s with copy := Function.update s.copy e t }

/-- The peer takes part as long as its connection is there. Only the client is there before the
destination was dialed. -/
def connected (s : Session) (e : End) : Bool :=
  !(s.conn e).reset && (e == .client || s.phase != .dialing)

/-- The copy from `e` goes on reading. -/
def reading (s : Session) (e : End) : Bool :=
  s.phase == .running && (s.copy e).place == .copying && (s.copy e).held == []

/-- The copy from `e` has bytes to write. -/
def writing (s : Session) (e : End) : Bool :=
  s.phase == .running && (s.copy e).place == .copying && (s.copy e).held != []

/-- The copy from `e` has come to the given place behind `io.Copy`. -/
def behind (s : Session) (e : End) (place : Place) : Bool :=
  s.phase == .running && (s.copy e).place == place

/-- One step, `none` when it is not possible. -/
def step (window : Nat) (s : Session) : Action → Option Session
  | .send e bytes =>
    let c := s.conn e
    if s.connected e && !c.fin && !c.closed then
      some (s.setConn e { c with sent := c.sent ++ bytes, inbox := c.inbox ++ bytes })
    else none
  | .shutdown e =>
    if s.connected e && !(s.conn e).fin then some (s.setConn e { s.conn e with fin := true })
    else none
  | .receive e n =>
    let c := s.conn e
    if s.connected e && 0 < n && n ≤ c.outbox.length then
      some (s.setConn e
        { c with received := c.received ++ c.outbox.take n, outbox := c.outbox.drop n })
    else none
  | .seeEnd e =>
    let c := s.conn e
    if s.connected e && c.finished && c.outbox == [] && !c.eof then
      some (s.setConn e { c with eof := true })
    else none
  | .reset e => some (s.setConn e { s.conn e with reset := true })
  | .dialed => if s.phase = .dialing then some { s with phase := .running } else none
  | .refused =>
    -- `conn.Close`, and there is no destination.
    if s.phase = .dialing then
      let s := s.setConn .dest { s.conn .dest with reset := true }
      some { s.setConn .client (s.conn .client).close with phase := .ended }
    else none
  | .read e n =>
    let c := s.conn e
    if s.reading e && 0 < n && n ≤ c.inbox.length && n ≤ copyBuffer then
      some ((s.setConn e { c with inbox := c.inbox.drop n }).setCopy e
        { s.copy e with held := c.inbox.take n })
    else none
  | .readEnd e =>
    let c := s.conn e
    if s.reading e && (c.reset || c.fin && c.inbox == []) then
      some (s.setCopy e { s.copy e with place := .closeRead })
    else none
  | .write e n =>
    let c := s.conn e.other
    let held := (s.copy e).held
    if s.writing e && !c.reset && 0 < n && n ≤ held.length && c.outbox.length + n ≤ window then
      some ((s.setConn e.other { c with outbox := c.outbox ++ held.take n }).setCopy e
        { s.copy e with held := held.drop n })
    else none
  | .writeFail e =>
    if s.writing e && (s.conn e.other).reset then
      some (s.setCopy e { place := .closeRead, held := [] })
    else none
  | .closeRead e =>
    if s.behind e .closeRead then some (s.setCopy e { s.copy e with place := .closeWrite })
    else none
  | .closeWrite e =>
    if s.behind e .closeWrite then
      some ((s.setConn e.other { s.conn e.other with finished := true }).setCopy e
        { s.copy e with place := .done })
    else none
  | .closeDest =>
    -- `wg.Wait` and `d.Close`
    if s.behind .client .done && s.behind .dest .done then
      some { s.setConn .dest (s.conn .dest).close with phase := .destClosed }
    else none
  | .closeClient =>
    if s.phase = .destClosed then
      some { s.setConn .client (s.conn .client).close with phase := .ended }
    else none

end Session

/-- `Proxy`: the sessions of all connections that were accepted. An error of `Accept` is logged, and
the loop goes on. -/
def proxyStep (window : Nat) : List Session → PoolAction Action → Option (List Session) :=
  poolStep (Session.step window) Session.accepted

end IstioVendor.Fnet
