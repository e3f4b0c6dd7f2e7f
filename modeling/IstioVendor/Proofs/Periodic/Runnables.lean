import IstioVendor.Periodic.Runnables
import IstioVendor.Proofs.Periodic.Results

/-!
# `IstioVendor.Proofs.Periodic.Runnables`: the runners that get lost

The worker `t` of `Run` calls the element `t` of the slice, or the first one when the slice is too
short (`mem_calls`). So the slice of the runner decides.

`NewPeriodicRunner` is meant to move the options. The copy of the options has the same slice as the
original, and `ReleaseRunners` clears the elements behind it. The runner is left with elements
that are nil (`runners_newPeriodicRunner`), and a worker that calls one panics
(`calls_newPeriodicRunner`). Nothing is lost only when there is nothing in the slice
(`moved_iff`).

The tests of `fhttp` and `fgrpc` give no runners to `NewPeriodicRunner`. They put them into the
slice of the runner, and each worker calls its own (`calls_installed`).
-/

set_option autoImplicit false

namespace IstioVendor.Periodic

open Lib

variable {passes : Nat} {s : Slice} {start : Int} {world : Nat → Nat → Tick}

namespace Memory

variable {ρ : Type} {m : Memory ρ} {r opts : Options} {c : Nat × Option ρ}

/-- The slice of the options is a part of its array. -/
def Holds (m : Memory ρ) (r : Options) : Prop := ∀ s ∈ r.runners, m.arrays.Holds s

/-! ### The slice -/

/-- The loop over the whole slice. -/
theorem runners_assign (h : m.Holds r) (f : Nat → Option ρ) :
    (m.assign r r.runnersLen f).runners r = (List.range r.runnersLen).map f := by
  unfold assign runners Options.runnersLen
  cases hr : r.runners with
  | none => rfl
  | some s => exact Arrays.read_storeEach_length (h s hr) f

theorem runners_releaseRunners (h : m.Holds r) :
    (m.releaseRunners r).runners r = List.replicate r.runnersLen none := by
  rw [releaseRunners, runners_assign h, List.map_const', List.length_range]

theorem holds_allocate (n : Nat) : (m.allocate r n).1.Holds (m.allocate r n).2 := by
  rintro s hs
  cases hs
  exact Arrays.holds_make m.arrays n none

theorem runners_makeRunners {n : Int} (h : (r.runnersLen : Int) < n) (rr : Option ρ) :
    (m.makeRunners r n rr).1.runners (m.makeRunners r n rr).2 = List.replicate n.toNat rr := by
  have hall := runners_assign (@holds_allocate ρ m r n.toNat) fun _ => rr
  unfold makeRunners
  rw [if_pos h]
  refine hall.trans ?_
  rw [List.map_const', List.length_range]
  rfl

theorem toRunnerOptions_makeRunners (n : Int) (rr : Option ρ) :
    (m.makeRunners r n rr).2.toRunnerOptions = r.toRunnerOptions := by
  unfold makeRunners
  split_ifs <;> rfl

/-! ### The calls -/

theorem eq_of_mem_workerCalls {world : Nat → Tick} {t : Nat} {budget : Int} {f : Option ρ}
    (hc : c ∈ workerCalls r start world passes t budget f) : c = (t, f) := by
  cases f with
  | none =>
    obtain ⟨_, -, rfl⟩ := List.mem_map.mp hc
    rfl
  | some f =>
    obtain ⟨_, -, rfl⟩ := List.mem_map.mp hc
    rfl

/-- The workers take their elements from the slice. -/
theorem eq_of_mem_workers (hthreads : 1 ≤ (plan r.toRunnerOptions).numThreads)
    (hc : c ∈ (plan r.toRunnerOptions).budgets.zipIdx.flatMap fun b =>
      workerCalls r start (world b.2) passes b.2 b.1 ((m.runners r).getD b.2 none)) :
    c.1 < (plan r.toRunnerOptions).numThreads.toNat ∧ c.2 = (m.runners r).getD c.1 none := by
  obtain ⟨b, hb, hc⟩ := List.mem_flatMap.mp hc
  have ht := List.snd_lt_of_mem_zipIdx hb
  rw [length_budgets hthreads] at ht
  obtain rfl := eq_of_mem_workerCalls hc
  exact ⟨by omega, rfl⟩

/-- The index of the element that the worker `t` calls. -/
def source (r : Options) (t : Nat) : Nat :=
  if (r.runnersLen : Int) < (plan r.toRunnerOptions).numThreads then 0 else t

/-- What a worker of `Run` calls. -/
theorem mem_calls (hthreads : 1 ≤ r.numThreads) (hc : c ∈ m.calls r start world passes) :
    r.runnersLen ≠ 0 ∧ c.1 < (plan r.toRunnerOptions).numThreads.toNat ∧
      c.2 = (m.runners r).getD (source r c.1) none := by
  have hplan := plan_numThreads hthreads
  unfold calls prepareRunners at hc
  split_ifs at hc with hzero hfew
  · exact absurd hc List.not_mem_nil
  · -- The slice is replaced by clones of its first element.
    have hmade := @runners_makeRunners ρ m r _ hfew ((m.runners r).getD 0 none)
    have hsame := @toRunnerOptions_makeRunners ρ m r (plan r.toRunnerOptions).numThreads
      ((m.runners r).getD 0 none)
    generalize m.makeRunners r _ _ = made at hc hmade hsame
    obtain ⟨ht, hf⟩ := eq_of_mem_workers (by rw [hsame]; exact hplan.1) hc
    rw [hsame] at ht
    rw [hmade, List.getD_replicate _ ht] at hf
    exact ⟨hzero, ht, by rw [hf, source, if_pos hfew]⟩
  · obtain ⟨ht, hf⟩ := eq_of_mem_workers hplan.1 hc
    exact ⟨hzero, ht, by rw [hf, source, if_neg hfew]⟩

/-! ### The move -/

theorem numThreads_normalize : (m.normalize r).2.toRunnerOptions = r.toRunnerOptions.normalize := by
  unfold normalize allocate
  dsimp only
  split_ifs <;> rfl

/-- A slice that is not nil stays. -/
theorem normalize_of_some (h : r.runners = some s) :
    (m.normalize r).2.runners = some s ∧ (m.normalize r).1.arrays = m.arrays := by
  unfold normalize
  rw [h]
  constructor
  · simp only [Option.isNone_some, Bool.false_eq_true, if_false]
    split_ifs <;> rfl
  · simp only [Option.isNone_some, Bool.false_eq_true, if_false]
    split_ifs <;> rfl

/-- The runner and the original have the same slice, and its elements are nil. -/
theorem runners_newPeriodicRunner (hs : opts.runners = some s) (hholds : m.arrays.Holds s) :
    (m.newPeriodicRunner opts).2.2.runners = some s ∧
      (m.newPeriodicRunner opts).1.runners (m.newPeriodicRunner opts).2.2
        = List.replicate s.length none ∧
      (m.newPeriodicRunner opts).1.runners (m.newPeriodicRunner opts).2.1
        = List.replicate s.length none := by
  have hopts : m.Holds opts := fun s' hs' => by
    rw [hs] at hs'
    exact Option.some.inj hs' ▸ hholds
  have hlen : opts.runnersLen = s.length := by rw [Options.runnersLen, hs]
  obtain ⟨hrunners, harrays⟩ := normalize_of_some (m := m.releaseRunners opts) hs
  have hread : (m.releaseRunners opts).arrays.read s = List.replicate s.length none := by
    have hcleared := runners_releaseRunners hopts
    rw [runners, hs, hlen] at hcleared
    exact hcleared
  refine ⟨hrunners, ?_, ?_⟩
  · show ((m.releaseRunners opts).normalize opts).1.runners
      ((m.releaseRunners opts).normalize opts).2 = _
    rw [runners, hrunners, harrays]
    exact hread
  · show ((m.releaseRunners opts).normalize opts).1.runners { opts with stop := none } = _
    rw [runners, harrays, hs]
    exact hread

theorem one_le_numThreads : 1 ≤ (m.newPeriodicRunner opts).2.2.numThreads := by
  have hthreads := one_le_normalize_numThreads opts.toRunnerOptions
  rw [← numThreads_normalize (m := m.releaseRunners opts)] at hthreads
  exact hthreads

/-- All calls of the run are calls of a nil `Runnable`. -/
theorem calls_newPeriodicRunner (hs : opts.runners = some s) (hholds : m.arrays.Holds s)
    (hc : c ∈ (m.newPeriodicRunner opts).1.calls (m.newPeriodicRunner opts).2.2 start world
      passes) : c.2 = none ∧ s.length ≠ 0 := by
  obtain ⟨hlen, -, hf⟩ := mem_calls one_le_numThreads hc
  obtain ⟨hrunners, hread, -⟩ := runners_newPeriodicRunner hs hholds
  rw [Options.runnersLen, hrunners] at hlen
  rw [hread] at hf
  refine ⟨?_, hlen⟩
  rw [hf, List.getD_eq_getElem?_getD, List.getElem?_replicate]
  split_ifs <;> rfl

/-- The options were moved: the runner has the elements, the original has lost them and its `Stop`,
and the worker `t` calls the element `t`, or the first one when there are too few. -/
structure Moved (m : Memory ρ) (opts : Options) : Prop where
  kept : (m.newPeriodicRunner opts).1.runners (m.newPeriodicRunner opts).2.2 = m.runners opts
  cleared : ∀ f ∈ (m.newPeriodicRunner opts).1.runners (m.newPeriodicRunner opts).2.1, f = none
  stop : (m.newPeriodicRunner opts).2.1.stop = none
  calls : ∀ start world passes, ∀ c ∈ (m.newPeriodicRunner opts).1.calls
    (m.newPeriodicRunner opts).2.2 start world passes,
      c.2 = (m.runners opts).getD (source (m.newPeriodicRunner opts).2.2 c.1) none ∧ c.2 ≠ none

/-- Options with `Runnable`s, none of which is nil, are moved exactly when there is none of
them. -/
theorem moved_iff (m : Memory ρ) (opts : Options) (s : Slice) (hs : opts.runners = some s)
    (hholds : m.arrays.Holds s) (hsome : ∀ f ∈ m.runners opts, f ≠ none) :
    m.Moved opts ↔ s.length = 0 := by
  obtain ⟨hrunners, hread, hcleared⟩ := runners_newPeriodicRunner hs hholds
  constructor
  · intro hmoved
    by_contra hne
    have hkept := hmoved.kept
    rw [hread] at hkept
    refine hsome none ?_ rfl
    rw [← hkept]
    exact List.mem_replicate.mpr ⟨hne, rfl⟩
  · intro hzero
    have hempty : m.runners opts = [] := by
      rw [runners, hs]
      exact List.eq_nil_of_length_eq_zero ((Arrays.length_read hholds).trans hzero)
    refine ⟨by rw [hread, hzero, hempty]; rfl, fun f hf => ?_, rfl,
      fun start world passes c hc => ?_⟩
    · rw [hcleared] at hf
      exact List.eq_of_mem_replicate hf
    · exact absurd hzero (calls_newPeriodicRunner hs hholds hc).2

/-- Options with the slice `Runners` and the defaults otherwise, and an `Aborter`. -/
def sampleOptions (s : Slice) : Options where
  toRunnerOptions := defaultRunnerOptions
  runners := some s
  stop := some 0

/-- One array with four runners. -/
def fourRunners : Memory Nat := ⟨[[some 1, some 2, some 3, some 4]], 1⟩

/-- A slice of all four runners is not moved. -/
theorem not_moved_fourRunners : ¬ fourRunners.Moved (sampleOptions ⟨0, 0, 4⟩) := by
  intro hmoved
  have hholds : fourRunners.arrays.Holds ⟨0, 0, 4⟩ := by
    unfold Arrays.Holds
    decide
  have hzero := (moved_iff fourRunners (sampleOptions ⟨0, 0, 4⟩) ⟨0, 0, 4⟩ rfl hholds
    (by decide)).mp hmoved
  cases hzero

/-- Four runners for four threads: the runner has four times nil, and the first call of each worker
is a call of nil. -/
theorem runners_lost :
    let m : Memory Nat := ⟨[[some 1, some 2, some 3, some 4]], 1⟩
    let opts := sampleOptions ⟨0, 0, 4⟩
    m.runners opts = [some 1, some 2, some 3, some 4] ∧
      (m.newPeriodicRunner opts).1.runners (m.newPeriodicRunner opts).2.2
        = [none, none, none, none] ∧
      (m.newPeriodicRunner opts).1.calls (m.newPeriodicRunner opts).2.2 0
        (fun _ _ => ⟨0, 0, 0, false⟩) 1 = [(0, none), (1, none), (2, none), (3, none)] := by
  decide +kernel

/-! ### The use in the tests -/

/-- Options without a slice get one with an element for each thread. -/
theorem normalize_of_none (h : r.runners = none) :
    (m.normalize r).1.Holds (m.normalize r).2 ∧
      (m.normalize r).2.runnersLen = (m.normalize r).2.numThreads.toNat := by
  have hholds := @holds_allocate ρ m { r with toRunnerOptions := r.toRunnerOptions.normalize }
    r.toRunnerOptions.normalize.numThreads.toNat
  unfold normalize
  rw [h]
  simp only [Option.isNone_none, if_true]
  split_ifs
  · exact ⟨hholds, rfl⟩
  · exact ⟨hholds, rfl⟩

/-- `RunHTTPTest` and `RunGRPCTest` give no runners to `NewPeriodicRunner`, and put one for each
thread into the slice of the runner. The worker `t` calls the one with the number `t`. -/
theorem calls_installed (hnone : opts.runners = none) (f : Nat → ρ)
    (hc : c ∈ ((m.newPeriodicRunner opts).1.assign (m.newPeriodicRunner opts).2.2
      (m.newPeriodicRunner opts).2.2.numThreads.toNat fun i => some (f i)).calls
        (m.newPeriodicRunner opts).2.2 start world passes) : c.2 = some (f c.1) := by
  have hthreads := @one_le_numThreads ρ m opts
  obtain ⟨hholds, hlen⟩ : (m.newPeriodicRunner opts).1.Holds (m.newPeriodicRunner opts).2.2 ∧
      (m.newPeriodicRunner opts).2.2.runnersLen
        = (m.newPeriodicRunner opts).2.2.numThreads.toNat := normalize_of_none hnone
  generalize (m.newPeriodicRunner opts).2.2 = r at hc hholds hlen hthreads
  have hplan := plan_numThreads hthreads
  obtain ⟨-, ht, hf⟩ := mem_calls hthreads hc
  have henough : ¬ (r.runnersLen : Int) < (plan r.toRunnerOptions).numThreads := by omega
  rw [← hlen, runners_assign hholds, source, if_neg henough, List.getD_eq_getElem?_getD,
    List.getElem?_map, List.getElem?_range (by omega)] at hf
  exact hf

end Memory

end IstioVendor.Periodic
