import IstioVendor.Periodic.Periodic
import IstioVendor.Proofs.Stats.Counts

/-!
# `IstioVendor.Proofs.Periodic.Results`: the results of a run

The plan of a run has at least one worker, and at most as many as the options ask for
(`plan_numThreads`). `run_counts` is what the results say about the
calls: there is one number of calls for each worker, and the histogram of the durations counts
all calls, up to a wrap.
-/

set_option autoImplicit false

namespace IstioVendor.Periodic

open Lib
open Stats (Histogram newHistogram bucket)

/-! ### The plan -/

theorem one_le_normalize_numThreads (r : RunnerOptions) : 1 ≤ r.normalize.numThreads := by
  simp only [RunnerOptions.normalize, defaultRunnerOptions]
  split_ifs <;> omega

variable {r : RunnerOptions}

theorem planCalls_numThreads (h : 1 ≤ r.numThreads) (total : Int) :
    1 ≤ (planCalls r total).numThreads ∧ (planCalls r total).numThreads ≤ r.numThreads := by
  by_cases hlow : total < 2
  · have h2 : int64 (2 * 1) = 2 := by decide
    simp only [planCalls, if_pos hlow, h2, lt_irrefl, if_false]
    omega
  · simp only [planCalls, if_neg hlow]
    have hlt := r.numThreads_lt
    by_cases hwrap : r.numThreads < 2 ^ 62
    · rw [int64_of_range (by omega) (by omega), Int.tdiv_eq_ediv_of_nonneg (by omega)]
      split <;> omega
    · rw [int64_of_wrapped (by omega) (by omega), if_neg (by omega)]
      omega

theorem plan_numThreads (h : 1 ≤ r.numThreads) :
    1 ≤ (plan r).numThreads ∧ (plan r).numThreads ≤ r.numThreads := by
  unfold plan
  split_ifs
  -- Only `planCalls` lowers the number.
  all_goals first
    | exact planCalls_numThreads h _
    | exact ⟨h, le_refl _⟩

theorem length_budgets {p : Plan} (h : 1 ≤ p.numThreads) :
    p.budgets.length = p.numThreads.toNat := by
  unfold Plan.budgets
  split_ifs
  · simp only [List.length_singleton]
    omega
  · rw [List.length_map, List.length_range]

/-! ### The counts -/

theorem collect_count {numThreads : Int} {h h' : Histogram} {values : List (List Rat)}
    (h0 : h.count = 0) (hcollect : collect numThreads h values = some h') :
    h'.count = int64 ((values.map List.length).sum : Nat) := by
  have hzero : h.count = int64 (0 : Nat) := h0
  unfold collect at hcollect
  split_ifs at hcollect
  · have := Histogram.recordAll_count hzero hcollect
    rwa [Nat.zero_add, List.length_flatten] at this
  · obtain ⟨ws, hws, hrest⟩ := Option.bind_eq_some_iff.mp hcollect
    obtain ⟨⟨h₁, left⟩, ht, ⟨⟩⟩ := Option.bind_eq_some_iff.mp hrest
    have hcounts :
        List.Forall₂ (fun w n => w.count = int64 (n : Nat)) ws (values.map List.length) := by
      rw [List.forall₂_map_right_iff]
      refine ((mapM_eq_some_iff.mp hws).imp fun vs w hw => ?_).flip
      rw [Histogram.clone_eq, Option.bind_some] at hw
      have := Histogram.recordAll_count hzero hw
      rwa [Nat.zero_add] at this
    have := Histogram.transferAll_count hzero hcounts ht
    rwa [Nat.zero_add] at this

/-- The results count each call once. -/
theorem run_counts (h : 1 ≤ r.numThreads) {start : Int} {world : Nat → Nat → Tick} {passes : Nat}
    {results : RunnerResults} (hrun : run r start world passes = some results) :
    results.numThreads = (plan r).numThreads ∧
      results.calls.length = (plan r).numThreads.toNat ∧
      results.durationHistogram.count = int64 (results.calls.sum : Nat) := by
  obtain ⟨workers, hworkers, hrest⟩ := Option.bind_eq_some_iff.mp hrun
  obtain ⟨h₀, hnew, hrest⟩ := Option.bind_eq_some_iff.mp hrest
  obtain ⟨h₁, hcollect, hrest⟩ := Option.bind_eq_some_iff.mp hrest
  obtain ⟨_, _, hrest⟩ := Option.bind_eq_some_iff.mp hrest
  obtain ⟨_, _, ⟨⟩⟩ := Option.bind_eq_some_iff.mp hrest
  refine ⟨rfl, ?_, ?_⟩
  · have hlen := (mapM_eq_some_iff.mp hworkers).length_eq
    rw [List.length_zipIdx, length_budgets (plan_numThreads h).1] at hlen
    rw [List.length_map, hlen]
  · have h0 : h₀.count = 0 := by
      unfold newHistogram at hnew
      split_ifs at hnew
      cases hnew
      rfl
    have hcount := collect_count h0 hcollect
    rw [List.map_map] at hcount
    refine hcount.trans ?_
    congr 3
    refine List.map_congr_left fun w _ => ?_
    rw [Function.comp, List.length_map]

/-! ### Runs of any length -/

/-- The world stops the worker at the `select` of its `n`-th pass. -/
def stopAfter (n : Nat) : Nat → Nat → Tick := fun _ k => ⟨0, 0, 0, decide (k + 1 = n)⟩

/-- One worker at maximal speed, without an end. -/
def endlessRun : RunnerOptions := ⟨-1, -1, 1, 1 / 1000, 0, one_lt_int64, zero_lt_int64⟩

section

variable {j : Job} (hq : j.useQPS = false) (hx : j.r.useExactly = false)
  (hd : j.r.hasDuration = false) (hzero : j.recordsFuncTime 0 = true)

include hq hx hd hzero

/-- Only the stop ends a worker at maximal speed without an end. -/
theorem pass_stopAfter (n : Nat) (st : Working) :
    j.pass (stopAfter n 0) st =
      let st' : Working := ⟨int64 (st.i + 1), st.took ++ [0], st.slept⟩
      if st.took.length + 1 = n then .leave (.returned st') else .again st' := by
  have hcall : j.call (stopAfter n 0 st.took.length) st
      = .selects ⟨int64 (st.i + 1), st.took ++ [0], st.slept⟩ := by
    simp only [Job.call, stopAfter, hx, hd, hq, hzero, Bool.and_false, Bool.false_and,
      Bool.not_true, Bool.false_eq_true, if_false]
  simp only [Job.pass, hcall]
  simp only [stopAfter, decide_eq_true_eq]

/-- The worker returns behind its `n`-th call, with `n` calls that took no time. The measure is the
number of the calls up to there. -/
theorem exists_runOne_stopAfter {n : Nat} (hn : 1 ≤ n) :
    ∃ passes st, j.runOne (stopAfter n 0) passes = some (.returned st) ∧
      st.took = List.replicate n 0 ∧ st.slept = [] := by
  have hpass := pass_stopAfter hq hx hd hzero n
  -- At the top of the loop fewer than `n` calls were made.
  have hagain : ∀ s s' : Working,
      (s.took.length < n ∧ s.took = List.replicate s.took.length 0 ∧ s.slept = []) →
      j.pass (stopAfter n 0) s = .again s' →
      (s'.took.length < n ∧ s'.took = List.replicate s'.took.length 0 ∧ s'.slept = []) ∧
        n - s'.took.length < n - s.took.length := by
    rintro s s' ⟨hlt, htook, hslept⟩ hb
    rw [hpass] at hb
    split_ifs at hb with hlast
    obtain rfl := (Pass.again.injEq _ _).mp hb
    simp only [List.length_append, List.length_singleton]
    refine ⟨⟨by omega, ?_, hslept⟩, by omega⟩
    rw [List.replicate_succ', ← htook]
  obtain ⟨ended, hended⟩ := Loop.exists_leaves_of_lt (fun st : Working => n - st.took.length)
    hagain ⟨0, [], []⟩ ⟨hn, rfl, rfl⟩
  have hpost : ∃ st, ended = .returned st ∧ st.took = List.replicate n 0 ∧ st.slept = [] := by
    refine hended.inv (P := fun ended => ∃ st, ended = .returned st ∧
        st.took = List.replicate n 0 ∧ st.slept = [])
      (fun s s' hs hb => (hagain s s' hs hb).1) (fun s ended hs hb => ?_) ⟨hn, rfl, rfl⟩
    rw [hpass] at hb
    split_ifs at hb with hlast
    obtain rfl := (Pass.leave.injEq _ _).mp hb
    exact ⟨_, rfl, by rw [hs.2.1, ← List.replicate_succ', hlast], hs.2.2⟩
  obtain ⟨st, rfl, hst⟩ := hpost
  obtain ⟨passes, hpasses⟩ := Loop.leaves_iff_run.mp hended
  exact ⟨passes, st, hpasses, hst⟩

end

/-- A run of one worker can have any number of calls. -/
theorem exists_run_stopAfter {n : Nat} (hn : 1 ≤ n) :
    ∃ passes results, run endlessRun 0 (stopAfter n) passes = some results ∧
      results.calls = [n] := by
  obtain ⟨passes, st, hst, htook, hslept⟩ := exists_runOne_stopAfter
    (j := ⟨endlessRun, 1, 0, 0⟩) (by decide +kernel) (by decide) (by decide) (by decide +kernel) hn
  have hworkers : runWorkers endlessRun 0 (stopAfter n) passes = some [st] :=
    mapM_eq_some_iff.mpr (.cons (Option.bind_eq_some_iff.mpr ⟨_, hst, rfl⟩) .nil)
  have hmilli : (1 / 1000 : Rat) ≠ 0 := by decide +kernel
  obtain ⟨durations, hdurations⟩ : ∃ h', collect 1 (.blank 0 (1 / 1000) hmilli)
      [st.took.map seconds] = some h' := by
    refine Histogram.exists_recordAll fun v hv => ?_
    rw [htook, List.map_replicate, List.flatten_singleton] at hv
    rw [(List.mem_replicate.mp hv).2]
    exact (by decide +kernel : (bucket 0 (1 / 1000) (seconds 0)).isSome = true)
  obtain ⟨sleeps, hsleeps⟩ : ∃ h', collect 1 (.blank (-1 / 1000) (1 / 1000) hmilli)
      [st.slept.map seconds] = some h' := by
    rw [hslept]
    exact ⟨_, rfl⟩
  have hrun : ∃ results, run endlessRun 0 (stopAfter n) passes = some results ∧
      results.calls = [st.took.length] :=
    ⟨_, Option.bind_eq_some_iff.mpr ⟨_, hworkers, Option.bind_eq_some_iff.mpr ⟨_, dif_neg hmilli,
      Option.bind_eq_some_iff.mpr ⟨_, hdurations, Option.bind_eq_some_iff.mpr ⟨_, dif_neg hmilli,
        Option.bind_eq_some_iff.mpr ⟨_, hsleeps, rfl⟩⟩⟩⟩⟩, rfl⟩
  rw [htook, List.length_replicate] at hrun
  exact ⟨passes, hrun⟩

end IstioVendor.Periodic
