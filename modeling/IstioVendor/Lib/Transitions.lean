import Mathlib.Tactic.SplitIfs

/-!
# `IstioVendor.Lib.Transitions`: systems that take step after step

A system is a function `step` from a state and an action to the next state, `none` when the
action is not possible. `Reachable` are the states of its runs in which every action meets the
condition `ok` in the state before it. `Reachable.inv` is the rule for invariants, and
`exists_reachable` turns a list of actions that was executed into a reachable state.

`length_le_of_runAll` is the rule for termination: when every step makes a number smaller, a run is
not longer than the number at its start.

`poolStep` is any number of systems of one kind side by side, which are started one after the other
and take their steps in any order. What holds of every state that the system reaches by itself holds
of each member of a pool (`reachable_of_mem_pool`).
-/

set_option autoImplicit false

namespace IstioVendor.Lib

variable {σ α : Type} {as : List α} {ok : σ → α → Bool} {step : σ → α → Option σ}

/-- The states that runs from `s₀` reach when every action meets its condition. -/
inductive Reachable (step : σ → α → Option σ) (ok : σ → α → Bool) (s₀ : σ) : σ → Prop where
  | init : Reachable step ok s₀ s₀
  | step {s s' : σ} {a : α} (before : Reachable step ok s₀ s) (cond : ok s a = true)
      (eq : step s a = some s') : Reachable step ok s₀ s'

section
variable {step : σ → α → Option σ} {ok : σ → α → Bool} {s₀ s : σ}

/-- What holds at the start and is preserved by every step holds in every reachable state. -/
theorem Reachable.inv (hr : Reachable step ok s₀ s) (Inv : σ → Prop) (h0 : Inv s₀)
    (hstep : ∀ s a s', Inv s → ok s a = true → step s a = some s' → Inv s') : Inv s := by
  induction hr with
  | init => exact h0
  | step _ cond eq ih => exact hstep _ _ _ ih cond eq

end

/-- The actions are taken one after the other, each one only when it meets its condition. -/
def runAll (step : σ → α → Option σ) (ok : σ → α → Bool) (s : σ) : List α → Option σ
  | [] => some s
  | a :: as => if ok s a then (step s a).bind fun s' => runAll step ok s' as else none

theorem reachable_of_runAll {s₀ s s' : σ} (hs : Reachable step ok s₀ s)
    (hrun : runAll step ok s as = some s') : Reachable step ok s₀ s' := by
  induction as generalizing s with
  | nil =>
    cases hrun
    exact hs
  | cons a as ih =>
    unfold runAll at hrun
    split_ifs at hrun with hok
    obtain ⟨s₁, heq, hrest⟩ := Option.bind_eq_some_iff.mp hrun
    exact ih (.step hs hok heq) hrest

theorem runAll_inv {s s' : σ} (hrun : runAll step ok s as = some s') (Inv : σ → Prop) (h0 : Inv s)
    (hstep : ∀ s a s', Inv s → ok s a = true → step s a = some s' → Inv s') : Inv s' :=
  (reachable_of_runAll .init hrun).inv Inv h0 hstep

/-- A run is not longer than the number that every step makes smaller. -/
theorem length_le_of_runAll (measure : σ → Nat)
    (hstep : ∀ s a s', ok s a = true → step s a = some s' → measure s' < measure s) {s s' : σ}
    (hrun : runAll step ok s as = some s') : as.length + measure s' ≤ measure s := by
  induction as generalizing s with
  | nil =>
    cases hrun
    simp
  | cons a as ih =>
    unfold runAll at hrun
    split_ifs at hrun with hok
    obtain ⟨s₁, heq, hrest⟩ := Option.bind_eq_some_iff.mp hrun
    have hlt := hstep s a s₁ hok heq
    have hle := ih hrest
    rw [List.length_cons]
    omega

/-- A list of actions that ends in a state with a property. -/
theorem exists_reachable (step : σ → α → Option σ) (ok : σ → α → Bool) (s₀ : σ) (as : List α)
    {p : σ → Bool} (h : (runAll step ok s₀ as).any p = true) :
    ∃ s, Reachable step ok s₀ s ∧ p s = true := by
  obtain ⟨s, hrun, hp⟩ := (Option.any_eq_true p _).mp h
  exact ⟨s, reachable_of_runAll .init hrun, hp⟩

/-! ### Many systems side by side -/

/-- A new system starts, or the system with the number `i` takes a step. -/
inductive PoolAction (α : Type) where
  | start
  | act (i : Nat) (a : α)

/-- A step of a pool. -/
def poolStep (step : σ → α → Option σ) (s₀ : σ) (pool : List σ) : PoolAction α → Option (List σ)
  | .start => some (pool ++ [s₀])
  | .act i a => do
      let s ← pool[i]?
      let s' ← step s a
      some (pool.set i s')

/-- A member of a pool is in a state that the system reaches by itself. -/
theorem reachable_of_mem_pool {s₀ : σ} {pool : List σ}
    (hr : Reachable (poolStep step s₀) (fun _ _ => true) [] pool) {s : σ} (hs : s ∈ pool) :
    Reachable step (fun _ _ => true) s₀ s := by
  refine hr.inv (fun pool => ∀ s ∈ pool, Reachable step (fun _ _ => true) s₀ s)
    (fun s hs => absurd hs List.not_mem_nil) ?_ s hs
  intro pool a pool' ih _ heq s hs
  cases a with
  | start =>
    cases heq
    rcases List.mem_append.mp hs with hold | hnew
    · exact ih s hold
    · obtain rfl := List.mem_singleton.mp hnew
      exact .init
  | act i a =>
    obtain ⟨s₁, hget, heq⟩ := Option.bind_eq_some_iff.mp heq
    obtain ⟨s₂, hstep, ⟨⟩⟩ := Option.bind_eq_some_iff.mp heq
    rcases List.mem_or_eq_of_mem_set hs with hold | rfl
    · exact ih s hold
    · exact .step (ih s₁ (List.mem_of_getElem? hget)) rfl hstep

end IstioVendor.Lib
