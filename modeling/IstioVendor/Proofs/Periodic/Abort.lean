import IstioVendor.Periodic.Aborter

/-!
# `IstioVendor.Proofs.Periodic.Abort`: what an `Abort` stops

After an `Abort` a worker should make one call at most. This holds in every interleaving in
which `Run` has its copy of the channel before the first `Abort`, and no worker takes the timer
branch while the channel is closed (`late_le_one`). The invariant is that a worker at the top of
its loop has made no late call: it comes there from a `select` that found the channel open.

Both conditions are needed (`late_calls`). An `Abort` before the start of `Run` leaves a `nil`
channel in `StopChan`, the copy never becomes readable, and nothing stops the workers. And a
worker that is behind its rate finds its timer ready at every `select`, which may choose it every
time.
-/

set_option autoImplicit false

namespace IstioVendor.Periodic

open Lib (zero_lt_int64 one_lt_int64)

/-- The conditions on a step: `Abort` is called after `Run` took its copy of the channel, and the
timer or default branch of a `select` is taken while the channel is open. -/
def Timely (s : RunState) : Action → Prop
  | .abort => s.runnerChan ≠ none
  | .select _ false => s.readable = false
  | _ => True

/-- Every step of the run meets its condition, in the state before it. -/
def TimelyRun : RunState → List Action → Prop
  | _, [] => True
  | s, a :: actions => Timely s a ∧ ∀ s' ∈ s.step a, TimelyRun s' actions

instance (s : RunState) : (a : Action) → Decidable (Timely s a)
  | .abort => inferInstanceAs (Decidable (_ ≠ _))
  | .select _ false => inferInstanceAs (Decidable (_ = _))
  | .start _ | .call _ _ | .select _ true | .finish => .isTrue trivial

instance decidableTimelyRun : (s : RunState) → (actions : List Action) →
    Decidable (TimelyRun s actions)
  | _, [] => .isTrue trivial
  | _, _ :: actions =>
    have := fun s' => decidableTimelyRun s' actions
    inferInstanceAs (Decidable (_ ∧ _))

/-- What holds of a worker in a timely run. -/
structure OnTime (aborted : Bool) (w : WorkerState) : Prop where
  le : w.late ≤ 1
  before : aborted = false → w.late = 0
  top : w.place = .top → w.late = 0

/-- The invariant of a timely run. -/
structure AbortInv (s : RunState) : Prop where
  fresh : s.runnerChan = none → s.aborter.stopChan = true ∧ s.aborted = false
  copied : s.runnerChan ≠ none → s.runnerChan = some true
  chan : s.aborter.stopChan = false → s.aborter.closed = true
  closed : s.aborted = true → s.aborter.closed = true
  workers : ∀ w ∈ s.workers, OnTime s.aborted w

theorem abortInv_normalized (r : RunnerOptions) : AbortInv (.normalized r) where
  fresh := fun _ => ⟨rfl, rfl⟩
  copied := fun h => absurd rfl h
  chan := fun h => by simp [RunState.normalized, newAborter] at h
  closed := fun h => by simp [RunState.normalized] at h
  workers := fun w hw => by simp [RunState.normalized] at hw

theorem closed_abort {a : Aborter} (h : a.stopChan = false → a.closed = true) :
    a.abort.closed = true := by
  unfold Aborter.abort
  split_ifs with hchan
  · rfl
  · exact h (Bool.eq_false_iff.mpr hchan)

/-- One pass up to the `select` makes one call at most. -/
theorem length_call_le (j : Job) (tick : Tick) (st : Working) :
    (match j.call tick st with
      | .leaves st' | .selects st' | .exits st' => st'.took.length) ≤ st.took.length + 1 := by
  unfold Job.call
  dsimp only
  split_ifs <;> simp

/-- A worker leaves the top of its loop with at most one call more. -/
theorem call_cases_late (aborted : Bool) (tick : Tick) (w : WorkerState) :
    (w.call aborted tick).place ≠ .top ∧ (w.call aborted tick).late ≤ w.late + 1 ∧
      (aborted = false → (w.call aborted tick).late = w.late) := by
  have hlen := length_call_le w.job tick w.st
  unfold WorkerState.call
  -- The three ways to leave the top add the calls of this pass in the same way.
  cases hcall : w.job.call tick w.st with
  | leaves st =>
    rw [hcall] at hlen
    refine ⟨nofun, ?_, ?_⟩
    · simp only at hlen ⊢
      split <;> omega
    · rintro rfl
      rfl
  | selects st =>
    rw [hcall] at hlen
    refine ⟨nofun, ?_, ?_⟩
    · simp only at hlen ⊢
      split <;> omega
    · rintro rfl
      rfl
  | exits st =>
    rw [hcall] at hlen
    refine ⟨nofun, ?_, ?_⟩
    · simp only at hlen ⊢
      split <;> omega
    · rintro rfl
      rfl

variable {w : WorkerState} {actions : List Action}

/-- A worker that is on time at the top of its loop is on time after the call. -/
theorem OnTime.call {aborted : Bool} (h : OnTime aborted w) (hplace : w.place = .top)
    (tick : Tick) : OnTime aborted (w.call aborted tick) := by
  obtain ⟨hleft, hlate, hbefore⟩ := call_cases_late aborted tick w
  rw [h.top hplace] at hlate hbefore
  exact ⟨hlate, hbefore, fun htop => absurd htop hleft⟩

namespace AbortInv

variable {s s' : RunState}

theorem abort (h : AbortInv s) (hstarted : s.runnerChan ≠ none) : AbortInv s.abort where
  fresh := fun hnone => absurd hnone hstarted
  copied := h.copied
  chan := fun _ => closed_abort h.chan
  closed := fun _ => closed_abort h.chan
  workers := fun w hw => ⟨(h.workers w hw).le, nofun, (h.workers w hw).top⟩

/-- A step of one worker that leaves it on time. -/
theorem set (h : AbortInv s) (t : Nat) (hw : OnTime s.aborted w) :
    AbortInv { s with workers := s.workers.set t w } where
  fresh := h.fresh
  copied := h.copied
  chan := h.chan
  closed := h.closed
  workers := fun w' hw' => by
    rcases List.mem_or_eq_of_mem_set hw' with hmem | rfl
    · exact h.workers w' hmem
    · exact hw

/-- While the copy of the channel is not readable, nothing was aborted. -/
theorem not_aborted (h : AbortInv s) (hread : s.readable = false) : s.aborted = false := by
  by_contra ha
  have hclosed := h.closed (by simpa using ha)
  have hstarted : s.runnerChan ≠ none := fun hnone => ha (h.fresh hnone).2
  rw [RunState.readable, h.copied hstarted, hclosed] at hread
  exact nomatch hread

/-- The step lemma. -/
theorem step {a : Action} (h : AbortInv s) (ht : Timely s a) (hs : s.step a = some s') :
    AbortInv s' := by
  cases a with
  | abort =>
    cases hs
    exact h.abort ht
  | start now =>
    obtain ⟨hnone, ⟨⟩⟩ := Option.ite_none_right_eq_some.mp hs
    have hfresh := h.fresh (Option.isNone_iff_eq_none.mp hnone)
    exact {
      fresh := nofun
      copied := fun _ => congrArg some hfresh.1
      chan := h.chan
      closed := h.closed
      workers := fun w hw => by
        obtain ⟨_, _, rfl⟩ := List.mem_map.mp hw
        exact ⟨Nat.zero_le 1, fun _ => rfl, fun _ => rfl⟩ }
  | call t tick =>
    obtain ⟨w, hw, hs⟩ := Option.bind_eq_some_iff.mp hs
    obtain ⟨hplace, ⟨⟩⟩ := Option.ite_none_right_eq_some.mp hs
    exact h.set t ((h.workers w (List.mem_of_getElem? hw)).call hplace.1 tick)
  | select t stop =>
    obtain ⟨w, hw, hs⟩ := Option.bind_eq_some_iff.mp hs
    obtain ⟨_, ⟨⟩⟩ := Option.ite_none_right_eq_some.mp hs
    have hontime := h.workers w (List.mem_of_getElem? hw)
    cases stop with
    | true => exact h.set t ⟨hontime.le, hontime.before, nofun⟩
    | false =>
      -- The worker goes back to the top, from a channel that it found open.
      have hlate := hontime.before (h.not_aborted ht)
      exact h.set t ⟨hontime.le, hontime.before, fun _ => hlate⟩
  | finish =>
    obtain ⟨hend, ⟨⟩⟩ := Option.ite_none_right_eq_some.mp hs
    have hstarted : s.runnerChan ≠ none := by
      simp only [Bool.and_eq_true] at hend
      exact Option.isSome_iff_ne_none.mp hend.1.1
    have hfinished : AbortInv { s with finished := true } :=
      ⟨h.fresh, h.copied, h.chan, h.closed, h.workers⟩
    split
    · exact hfinished
    · exact hfinished.abort hstarted

/-- The run lemma. -/
theorem run (h : AbortInv s) (ht : TimelyRun s actions)
    (hs : actions.foldlM RunState.step s = some s') : AbortInv s' := by
  induction actions generalizing s with
  | nil =>
    obtain rfl : s = s' := Option.some.inj hs
    exact h
  | cons a actions ih =>
    obtain ⟨s₁, hs₁, hrest⟩ := Option.bind_eq_some_iff.mp hs
    exact ih (h.step ht.1 hs₁) (ht.2 s₁ hs₁) hrest

end AbortInv

/-- In every interleaving of a run whose steps are timely, each worker makes at most one call
after `Abort` was called. -/
theorem late_le_one (r : RunnerOptions) (actions : List Action) (s : RunState)
    (ht : TimelyRun (.normalized r) actions)
    (hs : actions.foldlM RunState.step (.normalized r) = some s) :
    ∀ w ∈ s.workers, w.late ≤ 1 :=
  fun w hw => (((abortInv_normalized r).run ht hs).workers w hw).le

/-- A run at maximal speed without an end. -/
def endless : RunnerOptions := ⟨-1, -1, 1, 1 / 1000, 0, one_lt_int64, zero_lt_int64⟩

/-- A run at a rate without an end. -/
def endlessRate : RunnerOptions := ⟨8, -1, 1, 1 / 1000, 0, one_lt_int64, zero_lt_int64⟩

def someTick : Tick := ⟨0, 0, 0, false⟩

/-- An `Abort` while the worker is in its second call. -/
def abortInCall : List Action :=
  [.start 0, .call 0 someTick, .select 0 false, .call 0 someTick, .abort, .select 0 true, .finish]

theorem late_le_one_abortInCall :
    ∃ s, abortInCall.foldlM RunState.step (.normalized endless) = some s ∧
      ∀ w ∈ s.workers, w.late ≤ 1 := by
  obtain ⟨s, hs⟩ := Option.isSome_iff_exists.mp
    (show (abortInCall.foldlM RunState.step (.normalized endless)).isSome by decide +kernel)
  exact ⟨s, hs, late_le_one endless abortInCall s (by decide +kernel) hs⟩

/-- A worker has made two calls after the `Abort`. -/
def TwoLate (s : RunState) : Prop := ∃ w ∈ s.workers, w.late = 2

instance (s : RunState) : Decidable (TwoLate s) := inferInstanceAs (Decidable (∃ w ∈ _, _))

theorem exists_of_any {s₀ : RunState}
    (h : (actions.foldlM RunState.step s₀).any (fun s => decide (TwoLate s)) = true) :
    ∃ s, actions.foldlM RunState.step s₀ = some s ∧ TwoLate s := by
  obtain ⟨s, hs, hlate⟩ := (Option.any_eq_true _ _).mp h
  exact ⟨s, hs, of_decide_eq_true hlate⟩

/-- Two runs in which a worker makes two calls after the `Abort`: one that is aborted before
`Run` starts, and one at a rate in which the timer is ready at the `select`. -/
theorem late_calls :
    (∃ s, [Action.abort, .start 0, .call 0 someTick, .select 0 false,
        .call 0 someTick].foldlM RunState.step (.normalized endless) = some s ∧ TwoLate s) ∧
    ∃ s, [Action.start 0, .abort, .call 0 someTick, .select 0 false,
        .call 0 someTick].foldlM RunState.step (.normalized endlessRate) = some s ∧ TwoLate s :=
  ⟨exists_of_any (by decide +kernel), exists_of_any (by decide +kernel)⟩

end IstioVendor.Periodic
