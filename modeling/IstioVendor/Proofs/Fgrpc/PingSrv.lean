import Mathlib.Tactic.FieldSimp
import IstioVendor.Fgrpc.PingSrv
import IstioVendor.Proofs.Stats.Counts
import IstioVendor.Proofs.Stats.Placement

/-!
# `IstioVendor.Proofs.Fgrpc.PingSrv`: how the ping client ends

`AtPass w j s` describes the loop behind its first `j` passes: the number of calls, and the values
in the histograms. `atPass_or_fatal` follows the loop through the passes whose calls succeed. What
the next pass does is said by four lemmas, one for each end of the pass.

A call that fails should make the function return -1 and its error. For the first call of a pass it
does. For the second call the time in the reply is read before the error is checked, and there is no
reply: the process ends. `pingClientCall_clean_iff` says that this is one of three things that can
go wrong. The others are a round trip of 1000000001 ns, which no bucket of the histogram takes, and
a number of round trips that does not fit into the count.
-/

set_option autoImplicit false

namespace IstioVendor.Fgrpc

open Lib
open Stats

section
variable {ε : Type} (w : PingWorld ε)

/-! ### What there is to record -/

/-- The call succeeds. -/
def PingWorld.Ok (k : Nat) : Prop := ∃ msg, w.ping k = .ok msg

/-- The time in the reply of a call. -/
def PingWorld.ts (k : Nat) : Int :=
  match w.ping k with
  | .ok msg => msg.ts
  | .error _ => 0

/-- The round trips of a pass, in nanoseconds. -/
def passTrips (j : Nat) : List Int :=
  [int64 (w.now (3 * j + 1) - w.now (3 * j)), int64 (w.now (3 * j + 2) - w.now (3 * j + 1)),
    int64 (w.ts (2 * j + 2) - w.ts (2 * j + 1))]

/-- The round trips of the first passes. -/
def roundTrips (n : Nat) : List Int := (List.range n).flatMap (passTrips w)

/-- The skew of the clocks in a pass, in nanoseconds. -/
def passSkew (j : Nat) : Int :=
  int64 (int64 (w.ts (2 * j + 1) + (int64 (w.ts (2 * j + 2) - w.ts (2 * j + 1))).tdiv 2)
    - w.now (3 * j + 1))

def skews (n : Nat) : List Int := (List.range n).map (passSkew w)

/-- The round trip that has no bucket. -/
def lostTrip : Int := 1000000001

theorem roundTrips_succ (j : Nat) : roundTrips w (j + 1) = roundTrips w j ++ passTrips w j := by
  rw [roundTrips, List.range_succ, List.flatMap_append, List.flatMap_singleton, roundTrips]

theorem skews_succ (j : Nat) : skews w (j + 1) = skews w j ++ [passSkew w j] := by
  rw [skews, List.range_succ, List.map_append, List.map_singleton, skews]

theorem length_roundTrips (n : Nat) : (roundTrips w n).length = 3 * n := by
  induction n with
  | zero => rfl
  | succ n ih =>
    rw [roundTrips_succ, List.length_append, ih]
    rfl

theorem bucket_rtt_eq_none (ns : Int) : bucket 0 10 (toMicros ns) = none ↔ ns = lostTrip := by
  rw [bucket_eq_none, scaledVal, toMicros, lostTrip]
  constructor
  · intro h
    have hq : (ns : Rat) = 1000000001 := by linarith
    exact_mod_cast hq
  · rintro rfl
    norm_num

/-- Every skew has a bucket. -/
theorem bucket_skew_ne_none (ns : Int) : bucket (-10) 2 (toMicros ns) ≠ none := by
  rw [ne_eq, bucket_eq_none, scaledVal, toMicros]
  intro h
  have hq : 5 * (ns : Rat) = 999950001 := by linarith
  have hint : 5 * ns = 999950001 := by exact_mod_cast hq
  omega

/-! ### One pass -/

/-- The histogram for the round trips at its start. -/
def rttBlank : Histogram := .blank 0 10 rttDivider_ne_zero

def skewBlank : Histogram := .blank (-10) 2 skewDivider_ne_zero

/-- The loop behind its first `j` passes. -/
structure AtPass (j : Nat) (s : PingState) : Prop where
  i : s.i = int64 (j + 1)
  sent : s.sent.length = 2 * j + 1
  reads : s.reads = 3 * j
  rtt : rttBlank.recordAll ((roundTrips w j).map toMicros) = some s.rttHistogram
  skew : skewBlank.recordAll ((skews w j).map toMicros) = some s.skewHistogram

variable {w} {n j : Nat} {s : PingState} {payload : Bytes} {delay : Int}

theorem AtPass.start : AtPass w 0 (pingStart payload delay) where
  i := show (1 : Int) = int64 (0 + 1) by decide
  sent := rfl
  reads := rfl
  rtt := rfl
  skew := rfl

theorem AtPass.i_le (hs : AtPass w j s) (hj : j < n) (hn : n < 2 ^ 63) : s.i ≤ n := by
  rw [hs.i, int64_of_range (by omega) (by omega)]
  omega

/-- The round trips of the next pass go to the histogram of those before. -/
theorem AtPass.recordAll_rtt (hs : AtPass w j s) :
    s.rttHistogram.recordAll ((passTrips w j).map toMicros)
      = rttBlank.recordAll ((roundTrips w (j + 1)).map toMicros) := by
  rw [roundTrips_succ, List.map_append, Histogram.recordAll_append, hs.rtt, Option.bind_some]

theorem AtPass.recordOne_skew (hs : AtPass w j s) :
    s.skewHistogram.recordOne (toMicros (passSkew w j))
      = skewBlank.recordAll ((skews w (j + 1)).map toMicros) := by
  rw [skews_succ, List.map_append, Histogram.recordAll_append, hs.skew, Option.bind_some]
  exact (bind_pure _).symm

theorem ts_of_ok {k : Nat} {msg : PingMessage} (h : w.ping k = .ok msg) : w.ts k = msg.ts := by
  rw [PingWorld.ts, h]

/-- The first call of a pass fails. -/
theorem pingPass_ping1 (hs : AtPass w j s) (hj : j < n) (hn : n < 2 ^ 63) {err : ε}
    (hping : w.ping (2 * j + 1) = .error err) :
    pingPass w n s = .leave (s.stop (.returned (-1) (some err))) := by
  rw [pingPass, if_pos (hs.i_le hj hn), hs.sent, hping]
  rfl

/-- The second call of a pass fails. -/
theorem pingPass_ping2 (hs : AtPass w j s) (hj : j < n) (hn : n < 2 ^ 63) (hok : w.Ok (2 * j + 1))
    {err : ε} (hping : w.ping (2 * j + 2) = .error err) :
    pingPass w n s = .leave (s.stop .nilDereference) := by
  obtain ⟨msg, hmsg⟩ := hok
  -- There is no reply, and `t2b` is read from it.
  rw [pingPass, if_pos (hs.i_le hj hn), hs.sent, hmsg, hping]
  rfl

/-- Both calls of a pass succeed. -/
theorem pingPass_eq_recordPass (hs : AtPass w j s) (hj : j < n) (hn : n < 2 ^ 63)
    (hok : w.Ok (2 * j + 1)) (hok' : w.Ok (2 * j + 2)) :
    ∃ msg res2, pingPass w n s
      = recordPass { s with sent := s.sent ++ [msg, msg], reads := s.reads + 3 }
          (w.now (3 * j)) (w.now (3 * j + 1)) (w.now (3 * j + 2)) (w.ts (2 * j + 1))
          (w.ts (2 * j + 2)) res2 := by
  obtain ⟨res1, hres1⟩ := hok
  obtain ⟨res2, hres2⟩ := hok'
  refine ⟨{ s.msg with seq := s.i, ts := w.now s.reads }, res2, ?_⟩
  rw [ts_of_ok hres1, ts_of_ok hres2, pingPass, if_pos (hs.i_le hj hn), hs.sent, hs.reads, hres1,
    hres2]
  rfl

theorem exists_recordAll_skew (vs : List Int) :
    ∃ h, skewBlank.recordAll (vs.map toMicros) = some h := by
  refine Histogram.exists_recordAll fun v hv => ?_
  obtain ⟨ns, -, rfl⟩ := List.mem_map.mp hv
  exact Option.isSome_iff_ne_none.mpr (bucket_skew_ne_none ns)

/-- A round trip has no bucket. -/
theorem pingPass_lostTrip (hs : AtPass w j s) (hj : j < n) (hn : n < 2 ^ 63)
    (hok : w.Ok (2 * j + 1)) (hok' : w.Ok (2 * j + 2)) (hlost : lostTrip ∈ passTrips w j) :
    pingPass w n s = .leave (s.stop .fatal) := by
  obtain ⟨msg, res2, hpass⟩ := pingPass_eq_recordPass hs hj hn hok hok'
  -- What was recorded has a bucket, and the lost round trip has none.
  have hnone : s.rttHistogram.recordAll ((passTrips w j).map toMicros) = none := by
    rw [hs.recordAll_rtt]
    cases hrec : rttBlank.recordAll ((roundTrips w (j + 1)).map toMicros) with
    | none => rfl
    | some h =>
      have hmem : toMicros lostTrip ∈ (roundTrips w (j + 1)).map toMicros := by
        rw [roundTrips_succ]
        exact List.mem_map_of_mem (List.mem_append_right _ hlost)
      obtain ⟨i, hi⟩ := exists_bucket hrec hmem
      rw [(bucket_rtt_eq_none lostTrip).mpr rfl] at hi
      cases hi
  rw [hpass, recordPass]
  rw [show s.rttHistogram.recordAll [_, _, _] = none from hnone]
  rfl

/-- Everything is recorded, and the loop goes on. -/
theorem pingPass_again (hs : AtPass w j s) (hj : j < n) (hn : n < 2 ^ 63)
    (hok : w.Ok (2 * j + 1)) (hok' : w.Ok (2 * j + 2)) (htrips : lostTrip ∉ roundTrips w (j + 1)) :
    ∃ s', pingPass w n s = .again s' ∧ AtPass w (j + 1) s' := by
  obtain ⟨msg, res2, hpass⟩ := pingPass_eq_recordPass hs hj hn hok hok'
  obtain ⟨rtt, hrtt⟩ : ∃ h, rttBlank.recordAll ((roundTrips w (j + 1)).map toMicros) = some h := by
    refine Histogram.exists_recordAll fun v hv => ?_
    obtain ⟨ns, hns, rfl⟩ := List.mem_map.mp hv
    refine Option.isSome_iff_ne_none.mpr fun hnone => htrips ?_
    rwa [← (bucket_rtt_eq_none ns).mp hnone]
  obtain ⟨skew, hskew⟩ := exists_recordAll_skew (skews w (j + 1))
  have hrtt' := hs.recordAll_rtt.trans hrtt
  have hskew' := hs.recordOne_skew.trans hskew
  rw [hpass, recordPass]
  rw [show s.rttHistogram.recordAll [_, _, _] = some rtt from hrtt']
  rw [show s.skewHistogram.recordOne (toMicros (int64 _)) = some skew from hskew']
  refine ⟨_, rfl, ⟨?_, ?_, ?_, hrtt, hskew⟩⟩
  · show int64 (s.i + 1) = int64 ((j + 1 : Nat) + 1)
    rw [hs.i, int64_add_int64_left, Nat.cast_succ]
  · show (s.sent ++ [msg, msg]).length = 2 * (j + 1) + 1
    rw [List.length_append, hs.sent]
    rfl
  · show s.reads + 3 = 3 * (j + 1)
    rw [hs.reads]
    rfl

theorem AtPass.count_rtt (hs : AtPass w n s) (hroom : 3 * n < 2 ^ 63) :
    s.rttHistogram.count = 3 * n := by
  have hcount := Histogram.recordAll_count (n := 0) rfl hs.rtt
  rw [List.length_map, length_roundTrips, Nat.zero_add] at hcount
  rw [hcount, int64_of_nat hroom]
  rfl

theorem AtPass.count_skew (hs : AtPass w n s) (hroom : 3 * n < 2 ^ 63) :
    s.skewHistogram.count = n := by
  have hcount := Histogram.recordAll_count (n := 0) rfl hs.skew
  rw [List.length_map, skews, List.length_map, List.length_range, Nat.zero_add] at hcount
  rw [hcount, int64_of_nat (by omega)]

/-- The loop ends behind the last pass, and the average is returned. -/
theorem pingPass_end (hs : AtPass w n s) (hroom : 3 * n < 2 ^ 63) :
    pingPass w n s = .leave (s.stop
      (.returned (((roundTrips w n).map toMicros).sum / (3 * n) / 1000000) none)) := by
  have hi : ¬ s.i ≤ n := by
    rw [hs.i, int64_of_range (by omega) (by omega)]
    omega
  have hexact := Histogram.exact_of_recordAll
    (by rw [List.length_map, length_roundTrips]; omega) hs.rtt
  have hsum : s.rttHistogram.sum = ((roundTrips w n).map toMicros).sum := by
    rw [hexact.sum, Multiset.sum_coe]
  rw [pingPass, if_neg hi, Counter.avg, hsum, hs.count_rtt hroom]
  push_cast
  rfl

/-- What any pass does to the histogram of the round trips. -/
theorem pingPass_cases (w : PingWorld ε) (n : Int) (s : PingState) :
    (∃ ending, pingPass w n s = .leave (s.stop ending)) ∨
      ∃ s' vs, pingPass w n s = .again s' ∧ s.rttHistogram.recordAll vs = some s'.rttHistogram := by
  unfold pingPass
  by_cases hi : s.i ≤ n
  · rw [if_pos hi]
    cases w.ping s.sent.length with
    | error err => exact .inl ⟨_, rfl⟩
    | ok res1 =>
      cases w.ping (s.sent.length + 1) with
      | error err => exact .inl ⟨_, rfl⟩
      | ok res2 =>
        dsimp only [replyOf, recordPass]
        split
        · exact .inl ⟨_, rfl⟩
        · rename_i hrtt
          split
          · exact .inl ⟨_, rfl⟩
          · exact .inr ⟨_, _, rfl, hrtt⟩
  · rw [if_neg hi]
    exact .inl ⟨_, rfl⟩

/-! ### The loop -/

/-- The calls up to the number `k` succeed. -/
def PingWorld.OkUpTo (w : PingWorld ε) (k : Nat) : Prop := ∀ i ≤ k, w.Ok i

theorem PingWorld.OkUpTo.mono {k l : Nat} (h : w.OkUpTo l) (hle : k ≤ l) : w.OkUpTo k :=
  fun i hi => h i (hi.trans hle)

/-- The passes whose calls succeed are made, or a round trip without a bucket ends the process. -/
theorem atPass_or_fatal (hn : n < 2 ^ 63) (payload : Bytes) (delay : Int) (hj : j ≤ n)
    (hok : w.OkUpTo (2 * j)) :
    (lostTrip ∉ roundTrips w j ∧ ∃ s, AtPass w j s ∧
      ∀ r, Loop.Leaves (pingPass w n) s r →
        Loop.Leaves (pingPass w n) (pingStart payload delay) r) ∨
    (lostTrip ∈ roundTrips w j ∧ ∃ r,
      Loop.Leaves (pingPass w n) (pingStart payload delay) r ∧ r.ending = .fatal) := by
  -- The induction is on the passes. A process that has ended stays so.
  induction j with
  | zero => exact .inl ⟨List.not_mem_nil, _, .start, fun _ hr => hr⟩
  | succ j ih =>
    have hok₁ := hok (2 * j + 1) (by omega)
    have hok₂ := hok (2 * j + 2) (by omega)
    rcases ih (by omega) (hok.mono (by omega)) with ⟨htrips, s, hs, hreach⟩ | ⟨htrip, r, hr⟩
    · by_cases hlost : lostTrip ∈ passTrips w j
      · have hpass := pingPass_lostTrip hs (by omega) hn hok₁ hok₂ hlost
        refine .inr ⟨?_, _, hreach _ (.here hpass), rfl⟩
        rw [roundTrips_succ]
        exact List.mem_append_right _ hlost
      · have htrips' : lostTrip ∉ roundTrips w (j + 1) := by
          rw [roundTrips_succ, List.mem_append]
          exact not_or.mpr ⟨htrips, hlost⟩
        obtain ⟨s', hpass, hs'⟩ := pingPass_again hs (by omega) hn hok₁ hok₂ htrips'
        exact .inl ⟨htrips', s', hs', fun r hr => hreach r (.later hpass hr)⟩
    · refine .inr ⟨?_, r, hr⟩
      rw [roundTrips_succ]
      exact List.mem_append_left _ htrip

/-- The count of a histogram is an `int64`, for every end of the loop. -/
theorem count_lt_of_leaves {n : Int} {r : PingResult ε}
    (h : Loop.Leaves (pingPass w n) (pingStart payload delay) r) :
    r.rttHistogram.count < 2 ^ 63 := by
  -- In every state of the loop the count is that of some list, wrapped.
  refine @Loop.Leaves.inv _ _ _ _ (fun s => ∃ k : Nat, s.rttHistogram.count = int64 k)
    (pingPass w n) (fun r => r.rttHistogram.count < 2 ^ 63) ?_ ?_ h ⟨0, rfl⟩
  · rintro s s' ⟨k, hk⟩ hpass
    rcases pingPass_cases w n s with ⟨ending, hleave⟩ | ⟨s'', vs, hagain, hvs⟩
    · cases hleave.symm.trans hpass
    · cases hagain.symm.trans hpass
      exact ⟨k + vs.length, Histogram.recordAll_count hk hvs⟩
  · rintro s r ⟨k, hk⟩ hpass
    rcases pingPass_cases w n s with ⟨ending, hleave⟩ | ⟨s', vs, hagain, hvs⟩
    · cases hleave.symm.trans hpass
      show s.rttHistogram.count < 2 ^ 63
      rw [hk]
      exact int64_lt k
    · cases hagain.symm.trans hpass

/-! ### The whole function -/

/-- The function ends with the result `r`. -/
def PingEnds (w : PingWorld ε) (n : Nat) (payload : Bytes) (delay : Int) (r : PingResult ε) :
    Prop :=
  ∃ passes, pingClientCall w passes n payload delay = some r

theorem pingEnds_iff_leaves (hdial : w.dial = none) (hok : w.Ok 0) (r : PingResult ε) :
    PingEnds w n payload delay r ↔ Loop.Leaves (pingPass w n) (pingStart payload delay) r := by
  obtain ⟨msg, hmsg⟩ := hok
  rw [Loop.leaves_iff_run, PingEnds]
  refine exists_congr fun passes => ?_
  rw [pingClientCall, hdial, hmsg]
  rfl

/-- The ping client ends as it should. A call that fails makes it return -1 and the error, and the
calls before it succeeded. If all calls succeed, then it has recorded the round trips and the skews,
and it returns the average of the round trips in seconds. -/
structure PingsCleanly (w : PingWorld ε) (n : Nat) (payload : Bytes) (delay : Int) : Prop where
  dial : ∀ err, w.dial = some err →
    ∃ r, PingEnds w n payload delay r ∧ r.ending = .returned (-1) (some err)
  failed : w.dial = none → ∀ k ≤ 2 * n, (∀ i < k, w.Ok i) → ∀ err, w.ping k = .error err →
    ∃ r, PingEnds w n payload delay r ∧ r.ending = .returned (-1) (some err)
  succeeded : w.dial = none → w.OkUpTo (2 * n) →
    ∃ r, PingEnds w n payload delay r ∧
      r.ending = .returned (((roundTrips w n).map toMicros).sum / (3 * n) / 1000000) none ∧
      rttBlank.recordAll ((roundTrips w n).map toMicros) = some r.rttHistogram ∧
      skewBlank.recordAll ((skews w n).map toMicros) = some r.skewHistogram ∧
      r.rttHistogram.count = 3 * n ∧ r.skewHistogram.count = n

/-- What the calls have to be like: no second call of a pass is the first one that fails, no round
trip is without a bucket, and the count has room for the round trips. -/
structure CleanCalls (w : PingWorld ε) (n : Nat) : Prop where
  second : ∀ j < n, w.OkUpTo (2 * j + 1) → w.Ok (2 * j + 2)
  trips : ∀ j ≤ n, w.OkUpTo (2 * j) → lostTrip ∉ roundTrips w j
  room : w.OkUpTo (2 * n) → 3 * n < 2 ^ 63

theorem PingEnds.unique {r r' : PingResult ε} (h : PingEnds w n payload delay r)
    (h' : PingEnds w n payload delay r') (hdial : w.dial = none) (hok : w.Ok 0) : r = r' :=
  ((pingEnds_iff_leaves hdial hok r).mp h).unique ((pingEnds_iff_leaves hdial hok r').mp h')

theorem not_ok_iff {k : Nat} : ¬ w.Ok k ↔ ∃ err, w.ping k = .error err := by
  unfold PingWorld.Ok
  cases w.ping k with
  | ok msg => simp
  | error err => simp

/-- If the ping client ends as it should, then it returns. -/
theorem PingsCleanly.exists_returned (h : PingsCleanly w n payload delay) (hdial : w.dial = none) :
    ∃ r, PingEnds w n payload delay r ∧ ∃ avg err, r.ending = .returned avg err := by
  classical
  by_cases hok : w.OkUpTo (2 * n)
  · obtain ⟨r, hr, hending, -⟩ := h.succeeded hdial hok
    exact ⟨r, hr, _, _, hending⟩
  · have hfail : ∃ k, k ≤ 2 * n ∧ ¬ w.Ok k := by
      simpa only [PingWorld.OkUpTo, not_forall, exists_prop] using hok
    -- The first call that fails.
    have hleast := Nat.find_spec hfail
    obtain ⟨err, herr⟩ := not_ok_iff.mp hleast.2
    obtain ⟨r, hr, hending⟩ := h.failed hdial (Nat.find hfail) hleast.1
      (fun i hi => not_not.mp fun hnot => Nat.find_min hfail hi ⟨by omega, hnot⟩) err herr
    exact ⟨r, hr, _, _, hending⟩

/-- If the ping client returns, then no histogram has ended the process. -/
theorem atPass_of_returned (hn : n < 2 ^ 63) (hdial : w.dial = none) {r : PingResult ε}
    (hr : PingEnds w n payload delay r) {avg : Rat} {err : Option ε}
    (hending : r.ending = .returned avg err) (hj : j ≤ n) (hok : w.OkUpTo (2 * j)) :
    lostTrip ∉ roundTrips w j ∧ ∃ s, AtPass w j s ∧
      ∀ r, Loop.Leaves (pingPass w n) s r →
        Loop.Leaves (pingPass w n) (pingStart payload delay) r := by
  refine (atPass_or_fatal hn payload delay hj hok).resolve_right ?_
  rintro ⟨-, r', hr', hfatal⟩
  have hok₀ := hok 0 (Nat.zero_le _)
  obtain rfl := hr.unique ((pingEnds_iff_leaves hdial hok₀ r').mpr hr') hdial hok₀
  cases hending.symm.trans hfatal

theorem PingsCleanly.cleanCalls (h : PingsCleanly w n payload delay) (hn : n < 2 ^ 63)
    (hdial : w.dial = none) : CleanCalls w n := by
  obtain ⟨r, hr, avg, err, hending⟩ := h.exists_returned hdial
  refine ⟨?_, fun j hj hok => (atPass_of_returned hn hdial hr hending hj hok).1, ?_⟩
  · -- A second call that fails first would end the process.
    intro j hj hok
    obtain ⟨-, s, hs, hreach⟩ :=
      atPass_of_returned hn hdial hr hending hj.le (hok.mono (by omega))
    by_contra hnot
    obtain ⟨err', herr'⟩ := not_ok_iff.mp hnot
    have hpass := pingPass_ping2 hs hj hn (hok _ le_rfl) herr'
    have hok₀ := hok 0 (Nat.zero_le _)
    have hends := (pingEnds_iff_leaves hdial hok₀ _).mpr (hreach _ (.here hpass))
    obtain rfl := hr.unique hends hdial hok₀
    cases hending
  · -- The count of the result is `3 * n`, and it is an `int64`.
    intro hok
    have hok₀ := hok 0 (Nat.zero_le _)
    obtain ⟨r', hr', -, -, -, hcount, -⟩ := h.succeeded hdial hok
    have hlt := count_lt_of_leaves ((pingEnds_iff_leaves hdial hok₀ r').mp hr')
    omega

/-- The first call of a pass fails, and no call before it does. -/
theorem CleanCalls.failed (h : CleanCalls w n) (hn : n < 2 ^ 63) (hdial : w.dial = none) {k : Nat}
    (hk : k ≤ 2 * n) (hbefore : ∀ i < k, w.Ok i) {err : ε} (herr : w.ping k = .error err) :
    ∃ r, PingEnds w n payload delay r ∧ r.ending = .returned (-1) (some err) := by
  -- The call before the loop, or one of the two calls of a pass.
  obtain rfl | ⟨j, rfl | rfl⟩ : k = 0 ∨ ∃ j, k = 2 * j + 1 ∨ k = 2 * j + 2 := by
    rcases Nat.eq_zero_or_pos k with hk0 | hpos
    · exact .inl hk0
    · exact .inr ⟨(k - 1) / 2, by omega⟩
  · refine ⟨(pingStart payload delay).stop (.returned (-1) (some err)), ⟨0, ?_⟩, rfl⟩
    rw [pingClientCall, hdial, herr]
    rfl
  · have hok : w.OkUpTo (2 * j) := fun i hi => hbefore i (by omega)
    have hok₀ := hok 0 (Nat.zero_le _)
    rcases atPass_or_fatal hn payload delay (by omega) hok with ⟨-, s, hs, hreach⟩ | ⟨hlost, -⟩
    · have hpass := pingPass_ping1 hs (by omega) hn herr
      exact ⟨_, (pingEnds_iff_leaves hdial hok₀ _).mpr (hreach _ (.here hpass)), rfl⟩
    · exact absurd hlost (h.trips j (by omega) hok)
  · obtain ⟨msg, hmsg⟩ := h.second j (by omega) fun i hi => hbefore i (by omega)
    rw [hmsg] at herr
    cases herr

/-- The ping client ends as it should iff the first call that fails is the first one of its pass, no
round trip is without a bucket, and the count has room for the round trips. -/
theorem pingClientCall_clean_iff (w : PingWorld ε) (n : Nat) (payload : Bytes) (delay : Int)
    (hn : n < 2 ^ 63) :
    PingsCleanly w n payload delay ↔ (w.dial = none → CleanCalls w n) := by
  refine ⟨fun h => h.cleanCalls hn, fun h => ⟨?_, ?_, ?_⟩⟩
  · intro err hdial
    refine ⟨(pingStart payload delay).stop (.returned (-1) (some err)), ⟨0, ?_⟩, rfl⟩
    rw [pingClientCall, hdial]
  · intro hdial k hk hbefore err herr
    exact (h hdial).failed hn hdial hk hbefore herr
  · intro hdial hok
    have hroom := (h hdial).room hok
    have hok₀ := hok 0 (Nat.zero_le _)
    rcases atPass_or_fatal hn payload delay le_rfl hok with ⟨-, s, hs, hreach⟩ | ⟨hlost, -⟩
    · have hpass := pingPass_end hs hroom
      exact ⟨_, (pingEnds_iff_leaves hdial hok₀ _).mpr (hreach _ (.here hpass)), rfl, hs.rtt,
        hs.skew, hs.count_rtt hroom, hs.count_skew hroom⟩
    · exact absurd hlost ((h hdial).trips n le_rfl hok)

end

/-- All calls succeed. A round trip takes 100 ns at the client, and the clock of the server, which is
ahead by 1000 ns, is read in the middle of it. -/
def goodWorld : PingWorld Bytes where
  dial := none
  ping := fun k => .ok ⟨k, 1050 + 100 * k, [], 0⟩
  now := fun i => 100 * i

theorem pingClientCall_clean_three : PingsCleanly goodWorld 3 [] 0 := by
  refine (pingClientCall_clean_iff goodWorld 3 [] 0 (by decide)).mpr fun _ => ⟨?_, ?_, ?_⟩
  · exact fun j _ _ => ⟨_, rfl⟩
  · intro j hj _
    have hall : ∀ j ≤ 3, lostTrip ∉ roundTrips goodWorld j := by decide
    exact hall j hj
  · exact fun _ => by decide

/-- The third call fails: the second one of the first pass. -/
def badWorld : PingWorld Bytes where
  dial := none
  ping := fun k => if k = 2 then .error (ascii "unavailable") else .ok ⟨0, 0, [], 0⟩
  now := fun _ => 0

/-- The error is not returned. The process ends. -/
theorem pingClientCall_nil_reply :
    (pingClientCall badWorld 1 1 [] 0).map PingResult.ending = some .nilDereference ∧
      ¬ PingsCleanly badWorld 1 [] 0 := by
  refine ⟨rfl, fun h => ?_⟩
  have hok : badWorld.OkUpTo (2 * 0 + 1) := by
    intro i hi
    refine ⟨⟨0, 0, [], 0⟩, ?_⟩
    show (if i = 2 then _ else _) = _
    rw [if_neg (by omega)]
  obtain ⟨msg, ⟨⟩⟩ := (h.cleanCalls (by decide) rfl).second 0 (by decide) hok

end IstioVendor.Fgrpc
