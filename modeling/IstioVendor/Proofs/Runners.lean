import IstioVendor.Fgrpc.GrpcRunner
import IstioVendor.Fhttp.HttpRunner
import IstioVendor.Proofs.Periodic.Results

/-!
# `IstioVendor.Proofs.Runners`: every call of a load test is counted once

A thread counts each of its calls in every one of its statistics (`HTTPState.Ran.runTimes`,
`GRPCState.counted_runTimes`). The periodic runner uses the first threads only, when it lowers
their number. The others have made no call and add nothing, which is why `runHTTPTest` may add
up all threads, and `runGRPCTest` only those that are left (`sum_calls_range`).

`calls_counted` says that in the end all statistics have the same count, the number of calls of
the workers. The counts are 64-bit numbers, so that this needs fewer than `2 ^ 63` calls
(`calls_counted_wraps`).
-/

set_option autoImplicit false

namespace IstioVendor

open Lib
open Stats (Histogram bucket)
open Periodic (RunnerOptions Tick plan run_counts plan_numThreads
  one_le_normalize_numThreads stopAfter endlessRun exists_run_stopAfter)

variable {n i passes : Nat} {world : Nat → Nat → Tick} {dialed : Nat → Bool}

/-- The calls of the threads in order, for at least as many threads as there are workers. -/
theorem sum_calls_range {calls : List Nat} (h : calls.length ≤ n) :
    ((List.range n).map fun i => calls.getD i 0).sum = calls.sum := by
  induction calls generalizing n with
  | nil => simp
  | cons c calls ih =>
    obtain ⟨m, rfl⟩ : ∃ m, n = m + 1 := ⟨n - 1, by simp at h; omega⟩
    rw [List.range_succ_eq_map, List.map_cons, List.sum_cons, List.map_map, List.sum_cons]
    exact congrArg (c + ·) (ih (by simpa using h))

/-- The calls of the threads, from a list with an entry for each thread. -/
theorem calls_zipIdx {α : Type} (calls : List Nat) (l : List α) :
    l.zipIdx.map (fun s => calls.getD s.2 0) =
      (List.range l.length).map fun i => calls.getD i 0 := by
  rw [List.range_eq_range', ← List.zipIdx_map_snd 0 l, List.map_map]
  rfl

/-! ### HTTP -/

namespace Fhttp

variable {o : HTTPRunnerOptions} {s : HTTPState}

/-- The thread has counted `n` calls in each of its statistics. -/
structure HTTPState.Ran (s : HTTPState) (n : Nat) : Prop where
  retCodes : s.retCodes.Counted n
  sizes : s.sizes.count = int64 n
  headerSizes : s.headerSizes.count = int64 n

theorem HTTPState.Ran.run {s' : HTTPState} (h : s.Ran n) (hrun : s.run = some s') :
    s'.Ran (n + 1) := by
  obtain ⟨sizes, hsizes, hrest⟩ := Option.bind_eq_some_iff.mp hrun
  obtain ⟨headerSizes, hheaderSizes, ⟨⟩⟩ := Option.bind_eq_some_iff.mp hrest
  exact ⟨h.retCodes.add _, Histogram.recordOne_count h.sizes hsizes,
    Histogram.recordOne_count h.headerSizes hheaderSizes⟩

theorem HTTPState.Ran.runTimes {s' : HTTPState} (h : s.Ran 0) (hrun : s.runTimes n = some s') :
    s'.Ran n := by
  induction n generalizing s' with
  | zero =>
    cases hrun
    exact h
  | succ n ih =>
    obtain ⟨s₁, hs₁, hlast⟩ := Option.bind_eq_some_iff.mp hrun
    exact (ih hs₁).run hlast

theorem ran_newHTTPState {sizes headerSizes : Histogram} {client : Option Client}
    (hsizes : sizes.count = int64 (0 : Nat)) (hheaderSizes : headerSizes.count = int64 (0 : Nat))
    (hnew : (newHTTPState o sizes headerSizes i client).run = some (.ok s)) : s.Ran 0 := by
  cases client with
  | none => exact nomatch hnew
  | some client =>
    simp only [newHTTPState, Histogram.clone_eq] at hnew
    split at hnew
    · simp at hnew
    · cases Option.some.inj hnew
      exact ⟨.empty, hsizes, hheaderSizes⟩

/-- The statistics of all threads, added up. -/
theorem runHTTPTest_counts {clients : Nat → Option Client} {start : Int} {res : HTTPRunnerResults}
    (hrun : (runHTTPTest o clients start world passes).run = some (.ok res)) :
    res.retCodes.Counted res.runnerResults.calls.sum ∧
      res.runnerResults.durationHistogram.count = int64 (res.runnerResults.calls.sum : Nat) ∧
      res.sizes.count = int64 (res.runnerResults.calls.sum : Nat) ∧
      res.headerSizes.count = int64 (res.runnerResults.calls.sum : Nat) := by
  have hthreads := one_le_normalize_numThreads o.toRunnerOptions
  obtain ⟨sizes₀, hsizes₀, hrun⟩ := exceptT_bind_eq_ok.mp hrun
  obtain ⟨headerSizes₀, hheaderSizes₀, hrun⟩ := exceptT_bind_eq_ok.mp hrun
  obtain ⟨states, hstates, hrun⟩ := exceptT_bind_eq_ok.mp hrun
  obtain ⟨results, hresults, hrun⟩ := exceptT_bind_eq_ok.mp hrun
  obtain ⟨states', hstates', hrun⟩ := exceptT_bind_eq_ok.mp hrun
  obtain ⟨⟨sizes, _⟩, hsizes, hrun⟩ := exceptT_bind_eq_ok.mp hrun
  obtain ⟨⟨headerSizes, _⟩, hheaderSizes, hrun⟩ := exceptT_bind_eq_ok.mp hrun
  cases Option.some.inj hrun
  rw [exceptT_lift_eq_ok] at hsizes₀ hheaderSizes₀ hresults hsizes hheaderSizes
  cases hsizes₀
  cases hheaderSizes₀
  obtain ⟨_, hlength, hduration⟩ := run_counts hthreads hresults
  -- Each thread has made the calls of its worker.
  have hlen : states.length = (o.toRunnerOptions.normalize.numThreads).toNat := by
    rw [← (exceptT_mapM_eq_ok.mp hstates).length_eq, List.length_range]
  have hran : List.Forall₂ HTTPState.Ran states'
      (states.zipIdx.map fun s => results.calls.getD s.2 0) := by
    rw [List.forall₂_map_right_iff]
    refine (forall₂_imp_mem (exceptT_mapM_eq_ok.mp hstates') fun s hs s' hs' => ?_).flip
    obtain ⟨i, _, hnew⟩ := forall₂_mem (exceptT_mapM_eq_ok.mp hstates)
      (List.fst_mem_of_mem_zipIdx hs)
    exact (ran_newHTTPState rfl rfl hnew).runTimes (exceptT_lift_eq_ok.mp hs')
  have hsum : (states.zipIdx.map fun s => results.calls.getD s.2 0).sum = results.calls.sum := by
    have := (plan_numThreads hthreads).2
    rw [calls_zipIdx, sum_calls_range (by omega)]
  have htransfer : ∀ (f : HTTPState → Histogram) {h h' : Histogram} {left : List Histogram},
      h.count = int64 (0 : Nat) → (∀ s n, s.Ran n → (f s).count = int64 (n : Nat)) →
      h.transferAll (states'.map f) = some (h', left) →
      h'.count = int64 (results.calls.sum : Nat) := by
    intro f h h' left h0 hf ht
    have hcount := Histogram.transferAll_count h0
      (List.forall₂_map_left_iff.mpr (hran.imp hf)) ht
    rwa [hsum, Nat.zero_add] at hcount
  refine ⟨?_, hduration, htransfer _ rfl (fun _ _ h => h.sizes) hsizes,
    htransfer _ rfl (fun _ _ h => h.headerSizes) hheaderSizes⟩
  have hcodes := (CountMap.Counted.empty (κ := Int)).foldl_merge
    (List.forall₂_map_left_iff.mpr (hran.imp fun _ _ h => h.retCodes))
  rwa [hsum, Nat.zero_add] at hcodes

end Fhttp

/-! ### gRPC -/

namespace Fgrpc

variable {s : GRPCState} {o : GRPCRunnerOptions}

theorem GRPCState.counted_run (h : s.retCodes.Counted n) : s.run.retCodes.Counted (n + 1) := h.add _

theorem GRPCState.counted_runTimes (h : s.retCodes.Counted 0) (n : Nat) :
    (s.runTimes n).retCodes.Counted n := by
  induction n with
  | zero => exact h
  | succ n ih =>
    rw [runTimes, Function.iterate_succ_apply']
    exact counted_run ih

theorem counted_newGRPCState {client : Client}
    (hnew : (newGRPCState o dialed i client).run = some (.ok s)) : s.retCodes.Counted 0 := by
  unfold newGRPCState at hnew
  split at hnew
  · simp at hnew
  · simp only at hnew
    split at hnew
    · simp at hnew
    · cases Option.some.inj hnew
      exact .empty

/-- The statistics of the threads that are left, added up. -/
theorem runGRPCTest_counts {clients : Nat → Client} {start : Int} {res : GRPCRunnerResults}
    (hrun : (runGRPCTest o dialed clients start world passes).run = some (.ok res)) :
    res.retCodes.Counted res.runnerResults.calls.sum ∧
      res.runnerResults.durationHistogram.count = int64 (res.runnerResults.calls.sum : Nat) := by
  have hthreads := one_le_normalize_numThreads o.runnerOptions
  obtain ⟨states, hstates, hrun⟩ := exceptT_bind_eq_ok.mp hrun
  obtain ⟨results, hresults, hrun⟩ := exceptT_bind_eq_ok.mp hrun
  cases Option.some.inj hrun
  rw [exceptT_lift_eq_ok] at hresults
  obtain ⟨hnum, hlength, hduration⟩ := run_counts hthreads hresults
  refine ⟨?_, hduration⟩
  have hlen : states.length = (o.runnerOptions.normalize.numThreads).toNat := by
    rw [← (exceptT_mapM_eq_ok.mp hstates).length_eq, List.length_range]
  have hle : (plan o.runnerOptions.normalize).numThreads.toNat ≤ states.length := by
    have := (plan_numThreads hthreads).2
    omega
  -- The threads that are left are those that were run.
  have hran : List.Forall₂ CountMap.Counted
      (((states.zipIdx.map fun s => s.1.runTimes (results.calls.getD s.2 0)).take
        results.numThreads.toNat).map GRPCState.retCodes)
      ((states.zipIdx.map fun s => results.calls.getD s.2 0).take results.numThreads.toNat) := by
    rw [← List.map_take, ← List.map_take, List.map_map, List.forall₂_map_left_iff,
      List.forall₂_map_right_iff, List.forall₂_same]
    intro s hs
    obtain ⟨i, _, hnew⟩ := forall₂_mem (exceptT_mapM_eq_ok.mp hstates)
      (List.fst_mem_of_mem_zipIdx (List.mem_of_mem_take hs))
    exact GRPCState.counted_runTimes (counted_newGRPCState hnew) _
  have hsum : ((states.zipIdx.map fun s => results.calls.getD s.2 0).take
      results.numThreads.toNat).sum = results.calls.sum := by
    rw [calls_zipIdx, ← List.map_take, List.take_range, sum_calls_range (by omega)]
  have hcodes := (CountMap.Counted.empty (κ := Int)).foldl_merge hran
  rwa [hsum, Nat.zero_add] at hcodes

end Fgrpc

/-! ### Both tests -/

/-- For fewer than `2 ^ 63` calls, and up to a wrap for any number of calls: at the end of a
test, all statistics count the calls of the workers, for every number of threads, every client,
and every clock and stop. -/
theorem calls_counted :
    (∀ (o : Fhttp.HTTPRunnerOptions) (clients : Nat → Option Fhttp.Client) (start : Int)
      (world : Nat → Nat → Tick) (passes : Nat) (res : Fhttp.HTTPRunnerResults),
      (Fhttp.runHTTPTest o clients start world passes).run = some (.ok res) →
      let n := res.runnerResults.calls.sum
      (int64 res.retCodes.total = int64 n ∧ res.sizes.count = int64 n ∧
        res.headerSizes.count = int64 n ∧ res.runnerResults.durationHistogram.count = int64 n) ∧
      (n < 2 ^ 63 → res.retCodes.total = n ∧ res.sizes.count = n ∧ res.headerSizes.count = n ∧
        res.runnerResults.durationHistogram.count = n)) ∧
    (∀ (o : Fgrpc.GRPCRunnerOptions) (dialed : Nat → Bool) (clients : Nat → Fgrpc.Client)
      (start : Int) (world : Nat → Nat → Tick) (passes : Nat) (res : Fgrpc.GRPCRunnerResults),
      (Fgrpc.runGRPCTest o dialed clients start world passes).run = some (.ok res) →
      let n := res.runnerResults.calls.sum
      int64 res.retCodes.total = res.runnerResults.durationHistogram.count ∧
      (n < 2 ^ 63 → res.retCodes.total = res.runnerResults.durationHistogram.count ∧
        res.runnerResults.durationHistogram.count = n)) := by
  constructor
  · intro o clients start world passes res hrun
    obtain ⟨hcodes, hduration, hsizes, hheaderSizes⟩ := Fhttp.runHTTPTest_counts hrun
    refine ⟨⟨hcodes.wrapped, hsizes, hheaderSizes, hduration⟩, fun hlt => ?_⟩
    rw [hsizes, hheaderSizes, hduration, int64_of_nat hlt]
    exact ⟨(hcodes.exact hlt).total, rfl, rfl, rfl⟩
  · intro o dialed clients start world passes res hrun
    obtain ⟨hcodes, hduration⟩ := Fgrpc.runGRPCTest_counts hrun
    refine ⟨hcodes.wrapped.trans hduration.symm, fun hlt => ?_⟩
    rw [hduration, int64_of_nat hlt]
    exact ⟨(hcodes.exact hlt).total, rfl⟩

/-- Two threads, of which the runner uses one, with a reply of each kind. -/
def shortRun : Periodic.RunnerOptions := ⟨8, -1, 2, 1 / 1000, 3, two_lt_int64, three_lt_int64⟩

def shortHTTPRun : Fhttp.HTTPRunnerOptions := ⟨shortRun, false, 0⟩

def shortGRPCRun : Fgrpc.GRPCRunnerOptions := ⟨shortRun, 1, false, false⟩

def okThenError : Fhttp.Client := fun k => if k = 0 then ⟨200, 75, 50⟩ else ⟨-1, 0, 0⟩

def servingThenError : Fgrpc.Client := fun k => if k = 0 then ⟨false, some 1⟩ else ⟨true, none⟩

def quietWorld : Nat → Nat → Tick := fun _ _ => ⟨0, 10 ^ 6, 10 ^ 6, false⟩

theorem calls_counted_shortRun :
    (∃ res, (Fhttp.runHTTPTest shortHTTPRun (fun _ => some okThenError) 0 quietWorld 4).run
        = some (.ok res) ∧ res.runnerResults.numThreads = 1 ∧
      res.retCodes.entries = [(200, 1), (-1, 2)] ∧ res.retCodes.total = 3 ∧ res.sizes.count = 3 ∧
      res.headerSizes.count = 3 ∧ res.runnerResults.durationHistogram.count = 3) ∧
    (∃ res, (Fgrpc.runGRPCTest shortGRPCRun (fun _ => true) (fun _ => servingThenError) 0
        quietWorld 4).run = some (.ok res) ∧ res.retCodes.entries = [(1, 1), (-1, 2)] ∧
      res.retCodes.total = res.runnerResults.durationHistogram.count) := by
  constructor
  · obtain ⟨res, hrun, hres⟩ := exists_ok_of_any
      (x := Fhttp.runHTTPTest shortHTTPRun (fun _ => some okThenError) 0 quietWorld 4)
      (p := fun res => decide (res.runnerResults.numThreads = 1 ∧
        res.runnerResults.calls = [3] ∧ res.retCodes.entries = [(200, 1), (-1, 2)]))
      (by decide +kernel)
    obtain ⟨hnum, hcalls, hentries⟩ := of_decide_eq_true hres
    have hcounted := (calls_counted.1 _ _ _ _ _ res hrun).2 (by rw [hcalls]; decide)
    rw [hcalls] at hcounted
    exact ⟨res, hrun, hnum, hentries, hcounted⟩
  · obtain ⟨res, hrun, hres⟩ := exists_ok_of_any
      (x := Fgrpc.runGRPCTest shortGRPCRun (fun _ => true) (fun _ => servingThenError) 0
        quietWorld 4)
      (p := fun res => decide (res.runnerResults.calls = [3] ∧
        res.retCodes.entries = [(1, 1), (-1, 2)]))
      (by decide +kernel)
    obtain ⟨hcalls, hentries⟩ := of_decide_eq_true hres
    have hcounted := (calls_counted.2 _ _ _ _ _ _ res hrun).2 (by rw [hcalls]; decide)
    exact ⟨res, hrun, hentries, hcounted.1⟩

/-! ### A count that comes around -/

section

open Fhttp

/-- A thread can make any number of calls, when there are buckets for all sizes. -/
theorem exists_runTimes {s : HTTPState}
    (hsizes : ∀ k, (bucket s.sizes.offset s.sizes.divider (s.client k).size).isSome)
    (hheaderSizes : ∀ k, (bucket s.headerSizes.offset s.headerSizes.divider
      (s.client k).headerSize).isSome) (n : Nat) :
    ∃ s', s.runTimes n = some s' ∧ s'.client = s.client ∧
      (s'.sizes.offset = s.sizes.offset ∧ s'.sizes.divider = s.sizes.divider) ∧
      s'.headerSizes.offset = s.headerSizes.offset ∧
      s'.headerSizes.divider = s.headerSizes.divider := by
  induction n with
  | zero => exact ⟨s, rfl, rfl, ⟨rfl, rfl⟩, rfl, rfl⟩
  | succ n ih =>
    obtain ⟨s₁, hs₁, hclient, ⟨ho, hd⟩, ho', hd'⟩ := ih
    obtain ⟨sizes, hrec, hos, hds⟩ := Histogram.exists_recordOne
      (h := s₁.sizes) (v := (s₁.client s₁.fetches).size)
      (by rw [ho, hd, hclient]; exact hsizes _)
    obtain ⟨headerSizes, hrec', hoh, hdh⟩ := Histogram.exists_recordOne
      (h := s₁.headerSizes) (v := (s₁.client s₁.fetches).headerSize)
      (by rw [ho', hd', hclient]; exact hheaderSizes _)
    exact ⟨_, Option.bind_eq_some_iff.mpr ⟨s₁, hs₁, Option.bind_eq_some_iff.mpr ⟨_, hrec,
      Option.bind_eq_some_iff.mpr ⟨_, hrec', rfl⟩⟩⟩, hclient, ⟨hos.trans ho, hds.trans hd⟩,
      hoh.trans ho', hdh.trans hd'⟩

def endlessHTTPRun : HTTPRunnerOptions := ⟨endlessRun, false, 0⟩

def okClient : Client := fun _ => ⟨200, 75, 50⟩

/-- A test of one thread can have any number of calls. -/
theorem exists_runHTTPTest (hn : 1 ≤ n) :
    ∃ passes res, (runHTTPTest endlessHTTPRun (fun _ => some okClient) 0 (stopAfter n) passes).run
        = some (.ok res) ∧ res.runnerResults.calls = [n] := by
  obtain ⟨passes, results, hresults, hcalls⟩ := exists_run_stopAfter hn
  have hnorm : endlessRun.normalize = endlessRun := by
    simp only [RunnerOptions.normalize, endlessRun, RunnerOptions.mk.injEq]
    decide +kernel
  have h100 : (100 : Rat) ≠ 0 := by decide +kernel
  have h5 : (5 : Rat) ≠ 0 := by decide +kernel
  obtain ⟨s₀, hs₀, hs₀client, hs₀sizes, hs₀headerSizes⟩ : ∃ s₀, (newHTTPState endlessHTTPRun
      (.blank 0 100 h100) (.blank 0 5 h5) 0 (some okClient)).run = some (.ok s₀) ∧
      s₀.client = okClient ∧ s₀.sizes = .blank 0 100 h100 ∧ s₀.headerSizes = .blank 0 5 h5 := by
    exact ⟨_, rfl, rfl, rfl, rfl⟩
  obtain ⟨s₁, hs₁, _, ⟨ho, hd⟩, ho', hd'⟩ := exists_runTimes (s := s₀)
    (fun k => by
      rw [hs₀sizes, hs₀client]
      exact (by decide +kernel : (bucket 0 100 (75 : Nat)).isSome = true))
    (fun k => by
      rw [hs₀headerSizes, hs₀client]
      exact (by decide +kernel : (bucket 0 5 (50 : Int)).isSome = true)) n
  rw [hs₀sizes] at ho hd
  rw [hs₀headerSizes] at ho' hd'
  -- The scales are those of the totals, so that the transfers find a bucket for everything.
  obtain ⟨sizes, _, hsizes⟩ := Histogram.exists_transferAll_one ho.symm hd.symm
  obtain ⟨headerSizes, _, hheaderSizes⟩ := Histogram.exists_transferAll_one ho'.symm hd'.symm
  have hstates' : ([s₀].zipIdx.mapM fun s => (liftM (s.1.runTimes (results.calls.getD s.2 0)) :
      ExceptT HTTPError Option HTTPState)).run = some (.ok [s₁]) := by
    rw [hcalls]
    exact exceptT_mapM_eq_ok.mpr (.cons (exceptT_lift_eq_ok.mpr hs₁) .nil)
  refine ⟨passes, _, exceptT_bind_eq_ok.mpr ⟨_, exceptT_lift_eq_ok.mpr (dif_neg h100),
    exceptT_bind_eq_ok.mpr ⟨_, exceptT_lift_eq_ok.mpr (dif_neg h5),
    exceptT_bind_eq_ok.mpr ⟨[s₀], exceptT_mapM_eq_ok.mpr (.cons hs₀ .nil),
    exceptT_bind_eq_ok.mpr ⟨_, exceptT_lift_eq_ok.mpr (hnorm ▸ hresults),
    exceptT_bind_eq_ok.mpr ⟨_, hstates',
    exceptT_bind_eq_ok.mpr ⟨_, exceptT_lift_eq_ok.mpr hsizes,
    exceptT_bind_eq_ok.mpr ⟨_, exceptT_lift_eq_ok.mpr hheaderSizes, rfl⟩⟩⟩⟩⟩⟩⟩, hcalls⟩

/-- A test with `2 ^ 63` calls. -/
theorem calls_counted_wraps :
    ∃ passes res, (runHTTPTest endlessHTTPRun (fun _ => some okClient) 0 (stopAfter (2 ^ 63))
        passes).run = some (.ok res) ∧ res.runnerResults.calls.sum = 2 ^ 63 ∧
      res.runnerResults.durationHistogram.count = -2 ^ 63 ∧ res.sizes.count = -2 ^ 63 ∧
      res.headerSizes.count = -2 ^ 63 := by
  obtain ⟨passes, res, hrun, hcalls⟩ := exists_runHTTPTest (n := 2 ^ 63) (by decide)
  obtain ⟨_, hduration, hsizes, hheaderSizes⟩ := runHTTPTest_counts hrun
  have hsum : res.runnerResults.calls.sum = 2 ^ 63 := by rw [hcalls, List.sum_singleton]
  have hwrap : int64 ((2 ^ 63 : Nat) : Int) = -2 ^ 63 := by decide
  rw [hsum, hwrap] at hduration hsizes hheaderSizes
  exact ⟨passes, res, hrun, hsum, hduration, hsizes, hheaderSizes⟩

end

end IstioVendor
