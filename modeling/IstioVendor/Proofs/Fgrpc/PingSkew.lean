import IstioVendor.Proofs.Fgrpc.PingSrv

/-!
# `IstioVendor.Proofs.Fgrpc.PingSkew`: what the ping client learns of the clock of the server

The ping client and the ping server together. `Served` says that the replies are those of the
server, which reads a clock of its own, and that each call happens between the two times that the
client reads around it. How long a message is on its way is left open, also for each call by itself.

`ping_messages` describes all messages of a run. The client sends the reply of one pass in the next
one, so that its payload and its delay have come back from the server.

The skew that a pass records is not the skew of the clocks. `ping_skew_within` bounds the error by
half of a round trip. `ping_skew_symmetric` says what is recorded when a message takes as long to
the server as back: the server sleeps behind the reading of its clock, and half of that time goes
into the skew.
-/

set_option autoImplicit false

namespace IstioVendor.Fgrpc

open Lib
open Stats

section
variable {ε : Type} {w : PingWorld ε} {n : Int} {s s' : PingState} {payload : Bytes} {delay : Int}
  {skew : Int} {read : Nat → Int}

/-! ### The server -/

/-- The calls for the messages in `sent` were served. The clock of the server is ahead of the one of
the client by `skew`. `read k` is the time, on the clock of the client, at which the server has read
its clock in the call `k`. It is behind the time that the client has read before the call, and the
server has slept before the client reads the time again. -/
structure Served (w : PingWorld ε) (skew : Int) (read : Nat → Int) (sent : List PingMessage) :
    Prop where
  reply : ∀ k msg, sent[k]? = some msg → w.ping k = .ok (pingSrvPing (read k + skew) msg).1
  begins : ∀ k msg, sent[k + 1]? = some msg → w.now (k + k / 2) ≤ read (k + 1)
  ends : ∀ k msg, sent[k + 1]? = some msg →
    read (k + 1) + (pingSrvPing (read (k + 1) + skew) msg).2 ≤ w.now (k + k / 2 + 1)

theorem Served.of_append {sent more : List PingMessage} (h : Served w skew read (sent ++ more)) :
    Served w skew read sent := by
  have hget : ∀ {k : Nat} {msg : PingMessage}, sent[k]? = some msg →
      (sent ++ more)[k]? = some msg := fun hk =>
    List.getElem?_append_left (List.getElem?_eq_some_iff.mp hk).1 ▸ hk
  exact ⟨fun k msg hk => h.reply k msg (hget hk), fun k msg hk => h.begins k msg (hget hk),
    fun k msg hk => h.ends k msg (hget hk)⟩

/-! ### The messages -/

/-- The message of the two calls of a pass. -/
def passMessage (w : PingWorld ε) (payload : Bytes) (delay : Int) (j : Nat) : PingMessage :=
  ⟨int64 (j + 1), w.now (3 * j), payload, delay⟩

/-- The messages of the first passes, with the one before the loop. -/
def pingMessages (w : PingWorld ε) (payload : Bytes) (delay : Int) (j : Nat) : List PingMessage :=
  ⟨0, 0, payload, delay⟩ ::
    (List.range j).flatMap fun i => List.replicate 2 (passMessage w payload delay i)

theorem pingMessages_succ (j : Nat) :
    pingMessages w payload delay (j + 1) = pingMessages w payload delay j ++
      [passMessage w payload delay j, passMessage w payload delay j] := by
  rw [pingMessages, List.range_succ, List.flatMap_append, List.flatMap_singleton, pingMessages]
  rfl

theorem length_pingMessages (j : Nat) : (pingMessages w payload delay j).length = 2 * j + 1 := by
  induction j with
  | zero => rfl
  | succ j ih =>
    rw [pingMessages_succ, List.length_append, ih]
    rfl

theorem getElem?_pingMessages {i j b : Nat} (hi : i < j) (hb : b < 2) :
    (pingMessages w payload delay j)[2 * i + b + 1]? = some (passMessage w payload delay i) := by
  induction j with
  | zero => exact absurd hi (Nat.not_lt_zero i)
  | succ j ih =>
    rw [pingMessages_succ]
    rcases Nat.lt_succ_iff_lt_or_eq.mp hi with hlt | rfl
    · rw [List.getElem?_append_left (by rw [length_pingMessages]; omega)]
      exact ih hlt
    · rw [List.getElem?_append_right (by rw [length_pingMessages]; omega), length_pingMessages]
      have hidx : 2 * i + b + 1 - (2 * i + 1) = b := by omega
      rw [hidx]
      match b with
      | 0 => rfl
      | 1 => rfl

/-- A pass that goes round again: both calls have succeeded, and the values were recorded. -/
theorem pingPass_eq_again (h : pingPass w n s = .again s') :
    ∃ res1 res2 rtt skews,
      w.ping s.sent.length = .ok res1 ∧ w.ping (s.sent.length + 1) = .ok res2 ∧
      s.rttHistogram.recordAll
        [toMicros (int64 (w.now (s.reads + 1) - w.now s.reads)),
          toMicros (int64 (w.now (s.reads + 2) - w.now (s.reads + 1))),
          toMicros (int64 (res2.ts - res1.ts))] = some rtt ∧
      s.skewHistogram.recordOne (toMicros (int64
        (int64 (res1.ts + (int64 (res2.ts - res1.ts)).tdiv 2) - w.now (s.reads + 1))))
        = some skews ∧
      s' = { i := int64 (s.i + 1)
             msg := res2
             sent := s.sent ++ List.replicate 2 { s.msg with seq := s.i, ts := w.now s.reads }
             reads := s.reads + 3
             skewHistogram := skews
             rttHistogram := rtt } := by
  unfold pingPass at h
  by_cases hi : s.i ≤ n
  · rw [if_pos hi] at h
    cases hping1 : w.ping s.sent.length with
    | error err => simp [hping1, replyOf] at h
    | ok res1 =>
      cases hping2 : w.ping (s.sent.length + 1) with
      | error err => simp [hping1, hping2, replyOf] at h
      | ok res2 =>
        simp only [hping1, hping2, replyOf, recordPass] at h
        split at h
        · cases h
        · rename_i rtt hrtt
          split at h
          · cases h
          · rename_i skews hskews
            exact ⟨res1, res2, rtt, skews, rfl, rfl, hrtt, hskews, (Pass.again.inj h).symm⟩
  · rw [if_neg hi] at h
    cases h

/-- The loop behind its first `j` passes, with its messages. -/
structure Pinged (w : PingWorld ε) (payload : Bytes) (delay : Int) (j : Nat) (s : PingState) :
    Prop extends AtPass w j s where
  messages : s.sent = pingMessages w payload delay j
  payload : s.msg.payload = payload
  delay : s.msg.delayNanos = delay

/-- The server sends back the payload and the delay, so that the next pass has them again. -/
theorem Pinged.step {j : Nat} (hs : Pinged w payload delay j s) (h : pingPass w n s = .again s')
    (hserved : Served w skew read s'.sent) : Pinged w payload delay (j + 1) s' := by
  obtain ⟨res1, res2, rtt, skews, hping1, hping2, hrtt, hskews, rfl⟩ := pingPass_eq_again h
  have hmessages : s.sent ++ List.replicate 2 { s.msg with seq := s.i, ts := w.now s.reads }
      = pingMessages w payload delay (j + 1) := by
    rw [pingMessages_succ, hs.messages, passMessage, ← hs.i, hs.reads, ← hs.payload, ← hs.delay]
    rfl
  rw [hs.sent] at hping1 hping2
  -- The reply of the second call is the one of the server to the message of this pass.
  have hreply :
      res2 = (pingSrvPing (read (2 * j + 2) + skew) (passMessage w payload delay j)).1 := by
    have hsent := hserved.reply (2 * j + 1 + 1) _
      (hmessages ▸ getElem?_pingMessages (Nat.lt_succ_self j) Nat.one_lt_two)
    rw [hping2] at hsent
    exact Except.ok.inj hsent
  refine ⟨⟨?_, ?_, ?_, ?_, ?_⟩, hmessages, ?_, ?_⟩
  · show int64 (s.i + 1) = int64 ((j + 1 : Nat) + 1)
    rw [hs.i, int64_add_int64_left, Nat.cast_succ]
  · show (s.sent ++ _).length = 2 * (j + 1) + 1
    rw [hmessages, length_pingMessages]
  · show s.reads + 3 = 3 * (j + 1)
    rw [hs.reads]
    rfl
  · rw [← hs.recordAll_rtt, ← hrtt, hs.reads, ← ts_of_ok hping1, ← ts_of_ok hping2]
    rfl
  · rw [← hs.recordOne_skew, ← hskews, hs.reads, ← ts_of_ok hping1, ← ts_of_ok hping2]
    rfl
  · rw [hreply]
    rfl
  · rw [hreply]
    rfl

theorem pinged_of_reaches (hs : Loop.Reaches (pingPass w n) (pingStart payload delay) s)
    (hserved : Served w skew read s.sent) : ∃ j, Pinged w payload delay j s := by
  induction hs with
  | start => exact ⟨0, .start, rfl, rfl, rfl⟩
  | again _ h ih =>
    obtain ⟨_, _, _, _, -, -, -, -, rfl⟩ := pingPass_eq_again h
    obtain ⟨j, hj⟩ := ih hserved.of_append
    exact ⟨j + 1, hj.step h hserved⟩

/-- Every message that the client sends to a server that answers has the payload and the delay of
the call. Those of the loop come in pairs, with the number of the pass and the time at its start. -/
theorem ping_messages (hs : Loop.Reaches (pingPass w n) (pingStart payload delay) s)
    (hserved : Served w skew read s.sent) :
    ∃ j, s.sent = pingMessages w payload delay j ∧ s.rttHistogram.count = int64 (3 * j) ∧
      s.skewHistogram.count = int64 j := by
  obtain ⟨j, hj⟩ := pinged_of_reaches hs hserved
  refine ⟨j, hj.messages, ?_, ?_⟩
  · have hcount := Histogram.recordAll_count (n := 0) rfl hj.rtt
    rw [List.length_map, length_roundTrips, Nat.zero_add] at hcount
    exact hcount
  · have hcount := Histogram.recordAll_count (n := 0) rfl hj.skew
    rw [List.length_map, skews, List.length_map, List.length_range, Nat.zero_add] at hcount
    exact hcount

/-! ### The skew -/

/-- The clocks are in the range in which the sums of the client do not wrap: up to the year 2116. -/
structure InRange (w : PingWorld ε) (skew : Int) (read : Nat → Int) : Prop where
  now : ∀ i, 0 ≤ w.now i ∧ w.now i < 2 ^ 62
  server : ∀ k, 0 ≤ read k + skew ∧ read k + skew < 2 ^ 62

/-- The times of a pass, in their order. -/
structure PassTimes (w : PingWorld ε) (delay : Int) (read : Nat → Int) (i : Nat) : Prop where
  first : w.now (3 * i) ≤ read (2 * i + 1)
  second : read (2 * i + 1) + sleepTime delay ≤ w.now (3 * i + 1)
  third : w.now (3 * i + 1) ≤ read (2 * i + 2)
  fourth : read (2 * i + 2) + sleepTime delay ≤ w.now (3 * i + 2)

variable {i j : Nat}

section
variable (hs : Pinged w payload delay j s)
include hs

section
variable (hserved : Served w skew read s.sent)
include hserved

theorem Pinged.passTimes (hi : i < j) : PassTimes w delay read i := by
  rw [hs.messages] at hserved
  have hone : (pingMessages w payload delay j)[2 * i + 1]? = _ :=
    getElem?_pingMessages hi zero_lt_two
  have htwo : (pingMessages w payload delay j)[2 * i + 2]? = _ :=
    getElem?_pingMessages hi one_lt_two
  have hfirst := hserved.begins (2 * i) _ hone
  have hsecond := hserved.ends (2 * i) _ hone
  have hthird := hserved.begins (2 * i + 1) _ htwo
  have hfourth := hserved.ends (2 * i + 1) _ htwo
  rw [show 2 * i + 2 * i / 2 = 3 * i by omega] at hfirst hsecond
  rw [show 2 * i + 1 + (2 * i + 1) / 2 = 3 * i + 1 by omega] at hthird hfourth
  exact ⟨hfirst, hsecond, hthird, hfourth⟩

theorem Pinged.ts_eq (hi : i < j) :
    w.ts (2 * i + 1) = read (2 * i + 1) + skew ∧ w.ts (2 * i + 2) = read (2 * i + 2) + skew := by
  rw [hs.messages] at hserved
  exact ⟨ts_of_ok (hserved.reply _ _ (getElem?_pingMessages hi zero_lt_two)),
    ts_of_ok (hserved.reply _ _ (getElem?_pingMessages hi one_lt_two))⟩

/-- The recorded skew of a pass, without the wraps. -/
theorem Pinged.passSkew_eq (hrange : InRange w skew read) (hi : i < j) :
    passSkew w i = skew + (read (2 * i + 1) - w.now (3 * i + 1))
      + (read (2 * i + 2) - read (2 * i + 1)) / 2 := by
  obtain ⟨-, hsecond, hthird, -⟩ := hs.passTimes hserved hi
  have hsleep : 0 ≤ sleepTime delay := by
    unfold sleepTime
    split <;> omega
  have hnow := hrange.now (3 * i + 1)
  have hone := hrange.server (2 * i + 1)
  have htwo := hrange.server (2 * i + 2)
  obtain ⟨hts1, hts2⟩ := hs.ts_eq hserved hi
  have hrtR : int64 (w.ts (2 * i + 2) - w.ts (2 * i + 1))
      = read (2 * i + 2) - read (2 * i + 1) := by
    rw [hts1, hts2, int64_of_range (by omega) (by omega)]
    omega
  have hmidR : int64 (read (2 * i + 1) + skew + (read (2 * i + 2) - read (2 * i + 1)) / 2)
      = read (2 * i + 1) + skew + (read (2 * i + 2) - read (2 * i + 1)) / 2 :=
    int64_of_range (by omega) (by omega)
  rw [passSkew, hrtR, hts1, Int.tdiv_eq_ediv_of_nonneg (by omega), hmidR,
    int64_of_range (by omega) (by omega)]
  omega

/-- The error of a pass: half of the first round trip to the one side, and half of the second one to
the other side, less the sleep of the server. -/
theorem Pinged.passSkew_bounds (hrange : InRange w skew read) (hi : i < j) :
    -(w.now (3 * i + 1) - w.now (3 * i)) - 1 ≤ 2 * (passSkew w i - skew) ∧
      2 * (passSkew w i - skew) ≤ w.now (3 * i + 2) - w.now (3 * i + 1) - 2 * sleepTime delay := by
  obtain ⟨hfirst, hsecond, hthird, hfourth⟩ := hs.passTimes hserved hi
  rw [hs.passSkew_eq hserved hrange hi]
  omega

end

end

/-- The skew of the clocks that the ping client shows: when no round trip of it is longer than
`rtt`, the least and the largest recorded skew, and their average, differ from the true one by half
of `rtt` at most, up to the nanosecond that is lost by the division. A delay of the server takes its
whole length from the bound at the upper side. -/
theorem ping_skew_within (hs : Loop.Reaches (pingPass w n) (pingStart payload delay) s)
    (hserved : Served w skew read s.sent) (hrange : InRange w skew read) {rtt : Int}
    (hrtt : ∀ i < s.reads, i % 3 ≠ 2 → w.now (i + 1) - w.now i ≤ rtt) (hpos : s.reads ≠ 0)
    (hfew : s.reads < 2 ^ 63) :
    let lo := toMicros skew - ((rtt : Rat) + 1) / 2000
    let hi := toMicros skew + (rtt : Rat) / 2000 - toMicros (sleepTime delay)
    (lo ≤ s.skewHistogram.min ∧ s.skewHistogram.max ≤ hi) ∧
      lo ≤ s.skewHistogram.avg ∧ s.skewHistogram.avg ≤ hi := by
  obtain ⟨j, hj⟩ := pinged_of_reaches hs hserved
  rw [hj.reads] at hrtt hpos hfew
  have hlength : ((skews w j).map toMicros).length = j := by simp [skews]
  have hexact := Histogram.exact_of_recordAll (by rw [hlength]; omega) hj.skew
  have hvalue : ∀ v ∈ ((skews w j).map toMicros : Multiset Rat),
      ∃ i < j, v = toMicros (passSkew w i) := by
    intro v hv
    obtain ⟨x, hx, rfl⟩ := List.mem_map.mp (Multiset.mem_coe.mp hv)
    obtain ⟨i, hi, rfl⟩ := List.mem_map.mp hx
    exact ⟨i, List.mem_range.mp hi, rfl⟩
  refine hexact.toHolds.within ?_ ?_ ?_ ?_
  · rw [ne_eq, Multiset.coe_eq_zero, ← List.length_eq_zero_iff, hlength]
    omega
  · rw [Multiset.coe_card, hlength]
    omega
  · intro v hv
    obtain ⟨i, hi, rfl⟩ := hvalue v hv
    have hbound := (hj.passSkew_bounds hserved hrange hi).1
    have htrip := hrtt (3 * i) (by omega) (by omega)
    have hq : (-rtt - 1 : Rat) ≤ 2 * (passSkew w i - skew) := by exact_mod_cast (by omega)
    simp only [toMicros]
    linarith
  · intro v hv
    obtain ⟨i, hi, rfl⟩ := hvalue v hv
    have hbound := (hj.passSkew_bounds hserved hrange hi).2
    have htrip : w.now (3 * i + 2) - w.now (3 * i + 1) ≤ rtt :=
      hrtt (3 * i + 1) (by omega) (by omega)
    have hq : (2 * (passSkew w i - skew) : Rat) ≤ rtt - 2 * sleepTime delay := by
      exact_mod_cast (by omega)
    simp only [toMicros]
    linarith

/-- A message takes as long to the server as the reply takes back, in each pass. Then every skew is
recorded too small, by half of the time that the server sleeps. -/
theorem ping_skew_symmetric (hs : Loop.Reaches (pingPass w n) (pingStart payload delay) s)
    (hserved : Served w skew read s.sent) (hrange : InRange w skew read)
    (hsymm : ∀ i, 3 * i < s.reads → w.now (3 * i + 1) - (read (2 * i + 1) + sleepTime delay)
      = read (2 * i + 2) - w.now (3 * i + 1)) :
    ∃ j, skewBlank.recordAll
      (List.replicate j (toMicros (skew - (sleepTime delay + 1) / 2))) = some s.skewHistogram ∧
      s.reads = 3 * j := by
  obtain ⟨j, hj⟩ := pinged_of_reaches hs hserved
  refine ⟨j, ?_, hj.reads⟩
  rw [← hj.skew]
  congr 1
  symm
  rw [List.eq_replicate_iff]
  refine ⟨by simp [skews], fun v hv => ?_⟩
  obtain ⟨x, hx, rfl⟩ := List.mem_map.mp hv
  obtain ⟨i, hi, rfl⟩ := List.mem_map.mp hx
  have hi' := List.mem_range.mp hi
  rw [hj.passSkew_eq hserved hrange hi']
  have hmid := hsymm i (by rw [hj.reads]; omega)
  congr 1
  omega

end

/-! A pass of 200 ns with a server whose clock is 1000 ns ahead and which sleeps for 10 ns. -/

def skewedRead (k : Nat) : Int := if k ≤ 1 then 70 else 120

def skewedWorld : PingWorld Bytes where
  dial := none
  ping := fun k => .ok ⟨if k = 0 then 0 else 1, skewedRead k + 1000, [104], 10⟩
  now := fun i => if i = 0 then 0 else if i = 1 then 100 else 200

theorem inRange_skewedWorld : InRange skewedWorld 1000 skewedRead where
  now := fun i => by
    simp only [skewedWorld]
    split_ifs <;> omega
  server := fun k => by
    simp only [skewedRead]
    split_ifs <;> omega

theorem exists_skewedWorld :
    ∃ s, Loop.Reaches (pingPass skewedWorld (1 : Nat)) (pingStart [104] 10) s ∧ s.reads = 3 ∧
      Served skewedWorld 1000 skewedRead s.sent := by
  have hstart : AtPass skewedWorld 0 (pingStart [104] 10) := .start
  obtain ⟨s, hpass, hs⟩ := pingPass_again (n := 1) hstart (by decide) (by decide) ⟨_, rfl⟩
    ⟨_, rfl⟩ (by decide)
  refine ⟨s, .again .start hpass, hs.reads, ?_⟩
  obtain ⟨res1, res2, rtt, skews, -, -, -, -, rfl⟩ := pingPass_eq_again hpass
  refine ⟨?_, ?_, ?_⟩
  · intro k msg hk
    match k with
    | 0 | 1 | 2 =>
      cases hk
      rfl
    | k + 3 => cases hk
  · intro k msg hk
    match k with
    | 0 | 1 => decide
    | k + 2 => cases hk
  · intro k msg hk
    match k with
    | 0 | 1 =>
      cases hk
      decide
    | k + 2 => cases hk

theorem ping_messages_skewedWorld :
    ∃ s, Loop.Reaches (pingPass skewedWorld (1 : Nat)) (pingStart [104] 10) s ∧
      ∃ j, s.sent = pingMessages skewedWorld [104] 10 j := by
  obtain ⟨s, hs, -, hserved⟩ := exists_skewedWorld
  obtain ⟨j, hsent, -⟩ := ping_messages hs hserved
  exact ⟨s, hs, j, hsent⟩

theorem ping_skew_within_skewedWorld :
    ∃ s, Loop.Reaches (pingPass skewedWorld (1 : Nat)) (pingStart [104] 10) s ∧
      toMicros 1000 - ((100 : Int) + 1) / 2000 ≤ s.skewHistogram.min := by
  obtain ⟨s, hs, hreads, hserved⟩ := exists_skewedWorld
  have hrtt : ∀ i < s.reads, i % 3 ≠ 2 → skewedWorld.now (i + 1) - skewedWorld.now i ≤ 100 := by
    rw [hreads]
    decide
  exact ⟨s, hs, (ping_skew_within hs hserved inRange_skewedWorld hrtt (by omega) (by omega)).1.1⟩

/-- The server sleeps for 10 ns, and 995 ns are recorded. -/
theorem ping_skew_symmetric_skewedWorld :
    ∃ s, Loop.Reaches (pingPass skewedWorld (1 : Nat)) (pingStart [104] 10) s ∧
      skewBlank.recordAll [toMicros 995] = some s.skewHistogram := by
  obtain ⟨s, hs, hreads, hserved⟩ := exists_skewedWorld
  obtain ⟨j, hskew, hj⟩ := ping_skew_symmetric hs hserved inRange_skewedWorld fun i hi => by
    obtain rfl : i = 0 := by omega
    decide
  obtain rfl : j = 1 := by omega
  exact ⟨s, hs, hskew⟩

end IstioVendor.Fgrpc
