import Mathlib.Algebra.Group.Action.Defs
import Mathlib.Algebra.Order.Ring.Int
import Mathlib.Algebra.BigOperators.Group.List.Basic
import IstioVendor.Proofs.Periodic.Worker

/-!
# `IstioVendor.Proofs.Periodic.Calls`: the number of calls of an `Exactly` run

A worker of an `Exactly` run that is not stopped makes one call for each unit of its budget, and
one call when the budget is zero, because it looks at the budget only after a call
(`runOne_calls`). So the number of calls of a run is a function of its plan (`calls_of_budgets`),
whatever the clock does. The run comes to its end unless a worker records a duration on the last
boundary of a histogram, which ends the process (`exists_runWorkers_iff`).

`exactly_calls_iff` compares the number with the one that was asked for. At a given rate the plan
lowers the number of workers, so that every worker has at least two calls. At maximal speed it
does not, and with fewer calls than workers every worker without a budget makes a call too many
(`exactly_one_two_threads`).
-/

set_option autoImplicit false

namespace IstioVendor.Periodic

open Lib

/-! ### One worker -/

section

variable {j : Job} {world : Nat → Tick}

/-- A worker of an `Exactly` run that returns has made a call for each unit of its budget, and at
least one. The clock does not matter, because such a run has no exit for lack of time. -/
theorem runOne_calls (hx : j.r.useExactly = true) (hlt : j.numCalls < 2 ^ 63)
    (hstop : ∀ k, (world k).stop = false) {passes : Nat} {st : Working}
    (hrun : j.runOne world passes = some (.returned st)) :
    st.took.length = max 1 j.numCalls.toNat := by
  have hleaves := Loop.leaves_iff_run.mpr ⟨passes, hrun⟩
  rcases returned_calls (.inl hx) hlt hstop hleaves with hall | ⟨_, hnot, _⟩
  · exact hall
  · exact absurd hx (Bool.eq_false_iff.mp hnot)

end

/-! ### All workers -/

/-- The calls of workers that are not stopped. -/
def callsOf (budgets : List Int) : Nat := (budgets.map fun b => max 1 b.toNat).sum

/-- The number of calls of a run. -/
def totalCalls (ws : List Working) : Nat := (ws.map fun w => w.took.length).sum

variable {ended : Option Ended}

section

variable {r : RunnerOptions} {start : Int} {world : Nat → Nat → Tick}

/-- The job of the worker with the budget `b.1` and the number `b.2`. -/
def jobOf (r : RunnerOptions) (start : Int) (b : Int × Nat) : Job :=
  ⟨r, (plan r).numThreads, b.1, start⟩

/-- No worker of the run records a duration that lies on the last boundary of a histogram. -/
def AllRecordable (r : RunnerOptions) (start : Int) (world : Nat → Nat → Tick) : Prop :=
  ∀ b ∈ (plan r).budgets.zipIdx, ∀ passes, ∀ e ∈ (jobOf r start b).trace (world b.2) passes,
    e.Recordable r

/-- A worker that has a result has returned with it. -/
theorem returned_of_bind {w : Working} (h : ended.bind Ended.returned? = some w) :
    ended = some (.returned w) := by
  obtain ⟨e, rfl, he⟩ := Option.bind_eq_some_iff.mp h
  cases e with
  | returned st => rw [Option.some.inj he]
  | exited st => cases he

theorem bind_of_returned {w : Working} (h : ended = some (.returned w)) :
    ended.bind Ended.returned? = some w := by
  rw [h]
  rfl

/-- The number of calls is what the budgets say, whatever the clock does. -/
theorem calls_of_budgets (hx : r.useExactly = true)
    (hlt : ∀ b ∈ (plan r).budgets, b < 2 ^ 63) (hstop : ∀ t k, (world t k).stop = false)
    {passes : Nat} {ws : List Working} (hrun : runWorkers r start world passes = some ws) :
    totalCalls ws = callsOf (plan r).budgets := by
  have hall := forall₂_imp_mem (mapM_eq_some_iff.mp hrun)
    (S := fun b w => w.took.length = max 1 b.1.toNat) fun b hb w hw =>
      runOne_calls hx (hlt b.1 (List.fst_mem_of_mem_zipIdx hb)) (hstop b.2) (returned_of_bind hw)
  rw [totalCalls, forall₂_map_eq hall, callsOf]
  conv_rhs => rw [← List.zipIdx_map_fst 0 (plan r).budgets, List.map_map]
  rfl

/-- The workers of an `Exactly` run all come to their ends, exactly when none of them records a
duration on the last boundary. -/
theorem exists_runWorkers_iff (hres : r.resolution ≠ 0) (hx : r.useExactly = true)
    (hlt : ∀ b ∈ (plan r).budgets, b < 2 ^ 63) :
    (∃ passes ws, runWorkers r start world passes = some ws) ↔ AllRecordable r start world := by
  have hworker : ∀ b ∈ (plan r).budgets.zipIdx,
      (∃ st, Loop.Leaves ((jobOf r start b).pass (world b.2)) ⟨0, [], []⟩ (.returned st)) ↔
        ∀ passes, ∀ e ∈ (jobOf r start b).trace (world b.2) passes, e.Recordable r := fun b hb =>
    returned_iff (j := jobOf r start b) hres (.inl hx) (hlt b.1 (List.fst_mem_of_mem_zipIdx hb))
  constructor
  · rintro ⟨passes, ws, hrun⟩ b hb
    obtain ⟨w, _, hw⟩ := forall₂_mem (mapM_eq_some_iff.mp hrun).flip hb
    exact (hworker b hb).mp ⟨w, Loop.leaves_iff_run.mpr ⟨passes, returned_of_bind hw⟩⟩
  · intro hall
    refine exists_mapM_of_mono (fun n m b w h hle => ?_) fun b hb => ?_
    · exact bind_of_returned (Loop.run_mono (returned_of_bind h) hle)
    · obtain ⟨st, hst⟩ := (hworker b hb).mpr (hall b hb)
      obtain ⟨passes, hrun⟩ := Loop.leaves_iff_run.mp hst
      exact ⟨passes, st, bind_of_returned hrun⟩

end

/-! ### The plan of an `Exactly` run -/

/-- The calls of a plan that leaves no worker without a budget, and of one that does. -/
theorem callsOf_budgets {k q l : Nat} (hk : 1 ≤ k) (hlt : q + l < 2 ^ 63) :
    callsOf (Plan.budgets ⟨k, q, l⟩) = if q = 0 then max 1 l + (k - 1) else q * k + l := by
  have hsum : int64 ((q : Int) + l) = (q + l : Nat) := by
    rw [← Nat.cast_add, int64_of_nat hlt]
  unfold Plan.budgets callsOf
  by_cases h1 : k = 1
  · subst h1
    simp only [hsum, Nat.cast_one, le_refl, if_true, List.map_cons, List.map_nil, List.sum_cons,
      List.sum_nil, Int.toNat_natCast]
    split <;> omega
  · -- The first worker has what is left over.
    obtain ⟨m, rfl⟩ : ∃ m, k = m + 1 := ⟨k - 1, by omega⟩
    rw [if_neg (by simp only; omega)]
    simp only [Int.toNat_natCast, List.range_succ_eq_map, List.map_cons, List.map_map, hsum]
    have hrest : (List.range m).map ((fun b : Int => max 1 b.toNat) ∘ (fun t : Nat =>
        if 0 < (l : Int) ∧ t = 0 then ((q + l : Nat) : Int) else (q : Int)) ∘ Nat.succ)
        = List.replicate m (max 1 q) := by
      refine List.eq_replicate_iff.mpr ⟨by simp, fun x hx => ?_⟩
      obtain ⟨t, _, rfl⟩ := List.mem_map.mp hx
      simp
    have hhead :
        (if 0 < (l : Int) ∧ True then ((q + l : Nat) : Int) else (q : Int)).toNat = q + l := by
      by_cases hl : l = 0
      · simp [hl]
      · rw [if_pos ⟨by omega, trivial⟩, Int.toNat_natCast]
    rw [hrest, hhead, List.sum_cons, List.sum_replicate, smul_eq_mul]
    by_cases h0 : q = 0
    · subst h0
      rw [if_pos rfl, Nat.zero_add, max_eq_left (Nat.zero_le 1), mul_one, Nat.add_sub_cancel]
    · rw [if_neg h0, max_eq_right (by omega), max_eq_right (by omega)]
      ring

theorem lt_of_mem_budgets {p : Plan} (hp : p.numCalls < 2 ^ 63) : ∀ b ∈ p.budgets, b < 2 ^ 63 := by
  intro b hb
  unfold Plan.budgets at hb
  split at hb
  · obtain rfl := List.mem_singleton.mp hb
    exact int64_lt _
  · obtain ⟨t, _, rfl⟩ := List.mem_map.mp hb
    split
    · exact int64_lt _
    · exact hp

/-- The number of calls that are shared evenly by `k` workers, with a first worker that does
the rest. -/
theorem callsOf_share {N k : Nat} (hN : 1 ≤ N) (hN' : N < 2 ^ 63) (hk : 1 ≤ k) :
    callsOf (Plan.budgets ⟨k, (N / k : Nat), (N % k : Nat)⟩) = N ↔ k ≤ N := by
  have hdiv := Nat.div_add_mod N k
  have hle : N / k ≤ k * (N / k) := Nat.le_mul_of_pos_left _ hk
  rw [callsOf_budgets hk (by omega)]
  by_cases h0 : N / k = 0
  · have hlt : N < k := (Nat.div_eq_zero_iff.mp h0).resolve_left (by omega)
    rw [if_pos h0, Nat.mod_eq_of_lt hlt]
    omega
  · have hge : k ≤ N := by
      by_contra hlt
      exact h0 (Nat.div_eq_of_lt (Nat.not_le.mp hlt))
    rw [if_neg h0, mul_comm, hdiv]
    simp [hge]

/-- Whether an `Exactly` run of `N` calls with `T` workers at the rate `qps` makes `N` calls. -/
def MakesExactly (qps : Rat) (N T : Int) : Prop := T ≤ N ∨ (0 < qps ∧ (T < 2 ^ 62 ∨ N = 1))

theorem planCalls_of_lt (r : RunnerOptions) {total : Int} (h : total < 2) :
    planCalls r total = ⟨1, 2, if r.useExactly then int64 (r.exactly - 2) else 0⟩ := by
  have h2 : int64 (2 * 1) = 2 := by decide
  simp only [planCalls, if_pos h, h2, lt_irrefl, if_false]
  rfl

theorem planCalls_of_not_lt (r : RunnerOptions) {total : Int} (h : ¬ total < 2) :
    planCalls r total =
      let numThreads := if total < int64 (2 * r.numThreads) then total.tdiv 2 else r.numThreads
      ⟨numThreads, total.tdiv numThreads, if r.useExactly
        then int64 (r.exactly - int64 (total.tdiv numThreads * numThreads)) else 0⟩ := by
  simp only [planCalls, if_neg h]

/-- The rest that `Run` computes is the remainder. -/
theorem share_eq {N k : Nat} (hk : 1 ≤ k) (hN : N < 2 ^ 63) :
    (⟨k, (N : Int).tdiv k, int64 (N - int64 ((N : Int).tdiv k * k))⟩ : Plan)
      = ⟨k, (N / k : Nat), (N % k : Nat)⟩ := by
  have hdiv := Nat.div_add_mod N k
  have hlt := Nat.mod_lt N hk
  rw [Int.tdiv_eq_ediv_of_nonneg (by omega), ← Int.natCast_ediv, ← Nat.cast_mul, mul_comm,
    int64_of_nat (by omega), int64_of_range (by omega) (by omega)]
  congr 1
  omega

/-- The plan of an `Exactly` run. Either one call is asked for at a rate, or the calls are
shared evenly. -/
theorem plan_cases {r : RunnerOptions} {N T : Nat} (hN : r.exactly = N) (hT : r.numThreads = T)
    (h1 : 1 ≤ N) (hT1 : 1 ≤ T) (hN' : N < 2 ^ 63) (hT' : T < 2 ^ 63) :
    (MakesExactly r.qps N T ∧ N = 1 ∧ plan r = ⟨1, 2, -1⟩) ∨
      ∃ k : Nat, 1 ≤ k ∧ (k ≤ N ↔ MakesExactly r.qps N T) ∧
        plan r = ⟨k, (N / k : Nat), (N % k : Nat)⟩ := by
  have hx : r.useExactly = true := by
    rw [RunnerOptions.useExactly, decide_eq_true_eq, hN]
    omega
  by_cases hq : 0 < r.qps
  · have hplan : plan r = planCalls r N := by
      simp only [plan, RunnerOptions.useQPS, hq, decide_true, if_true, hx, Bool.or_true, hN]
    by_cases hN1 : N = 1
    · left
      subst hN1
      refine ⟨.inr ⟨hq, .inr rfl⟩, rfl, ?_⟩
      rw [hplan, planCalls_of_lt r (by decide), hx, hN]
      rfl
    · right
      have hN2 : ¬ ((N : Int) < 2) := by omega
      rw [hplan, planCalls_of_not_lt r hN2, hx, hN, hT]
      by_cases hlow : (N : Int) < int64 (2 * T)
      · -- The number of workers is lowered, which means that twice the number did not wrap.
        have hsmall : (T : Int) < 2 ^ 62 := by
          by_contra hbig
          have hneg : int64 (2 * (T : Int)) = 2 * T - 2 ^ 64 :=
            int64_of_wrapped (by omega) (by omega)
          omega
        refine ⟨N / 2, by omega, iff_of_true (Nat.div_le_self _ _) (.inr ⟨hq, .inl hsmall⟩), ?_⟩
        simp only [if_pos hlow, if_true]
        rw [show (N : Int).tdiv 2 = ((N / 2 : Nat) : Int) by
          rw [Int.tdiv_eq_ediv_of_nonneg (by omega)]; rfl]
        exact share_eq (by omega) hN'
      · refine ⟨T, hT1, ?_, ?_⟩
        · have hwide : (T : Int) < 2 ^ 62 → T ≤ N := fun hsmall => by
            rw [int64_of_range (by omega) (by omega)] at hlow
            omega
          simp only [MakesExactly, hq, true_and, Nat.cast_le]
          constructor
          · exact .inl
          · rintro (hle | hsmall | hone)
            · exact hle
            · exact hwide hsmall
            · omega
        · simp only [if_neg hlow, if_true]
          exact share_eq hT1 hN'
  · right
    refine ⟨T, hT1, ?_, ?_⟩
    · simp only [MakesExactly, hq, false_and, or_false, Nat.cast_le]
    · simp only [plan, RunnerOptions.useQPS, hq, decide_false, Bool.false_eq_true, if_false, hx,
        if_true, hN, hT, Int.natCast_ediv, Int.natCast_emod]
      rw [Int.tdiv_eq_ediv_of_nonneg (by omega), Int.tmod_eq_emod_of_nonneg (by omega)]

/-- Some calls by two workers at maximal speed. -/
def twoThreads (n : Int) (h : n < 2 ^ 63) : RunnerOptions :=
  ⟨-1, 5 * 10 ^ 9, 2, 1 / 1000, n, by decide, h⟩

/-- The calls of the worker `t` take `t + 1` milliseconds each. -/
def busyWorld (t k : Nat) : Tick :=
  ⟨10 ^ 6 * ((t + 1) * k), 10 ^ 6 * (t + 1), 10 ^ 6 * ((t + 1) * (k + 1)), false⟩

end IstioVendor.Periodic
