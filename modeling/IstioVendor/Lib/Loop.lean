import Mathlib.Order.Basic

/-!
# `IstioVendor.Lib.Loop`: loops that leave, and loops that do not

A loop is a body `σ → Pass σ ρ`: one pass over the state either goes round again or leaves
the loop with a result. `run` executes the loop for a bounded number of passes. `Leaves` is
the relation of the whole loop, and `leaves_iff_run` says that the two agree.

The rules for loops:

* `Leaves.inv`: an invariant that every pass keeps holds at the last pass, so what the last
  pass makes of it holds of the result;
* `exists_leaves_of_lt`: a loop leaves when every pass lowers a number;
* `exists_leaves_of_lex`: also when some passes keep the number, and descend in a relation that
  is well founded below the states of the loop.
-/

set_option autoImplicit false

namespace IstioVendor.Lib

/-- One pass through a loop body: go round again, or leave with a result. -/
inductive Pass (σ ρ : Type) where
  | again (s : σ)
  | leave (r : ρ)

namespace Loop

variable {σ ρ : Type} {r : ρ} {s : σ} {I : σ → Prop}

/-- The loop run for at most `fuel` passes, `none` when it is still going round. -/
def run (body : σ → Pass σ ρ) : Nat → σ → Option ρ
  | 0, _ => none
  | fuel + 1, s =>
    match body s with
    | .again s' => run body fuel s'
    | .leave r => some r

/-- From the state `s` the loop leaves with the result `r`, after finitely many passes. -/
inductive Leaves (body : σ → Pass σ ρ) : σ → ρ → Prop where
  | here {s : σ} {r : ρ} (h : body s = .leave r) : Leaves body s r
  | later {s s' : σ} {r : ρ} (h : body s = .again s') (tail : Leaves body s' r) : Leaves body s r

variable {body : σ → Pass σ ρ}

/-- The relation and the bounded execution agree. -/
theorem leaves_iff_run : Leaves body s r ↔ ∃ fuel, run body fuel s = some r := by
  constructor
  · intro h
    induction h with
    | here h => exact ⟨1, by simp [run, h]⟩
    | later h _ ih =>
      obtain ⟨fuel, hf⟩ := ih
      exact ⟨fuel + 1, by simp [run, h, hf]⟩
  · rintro ⟨fuel, hf⟩
    induction fuel generalizing s with
    | zero => simp [run] at hf
    | succ fuel ih =>
      cases hb : body s with
      | again s' =>
        simp only [run, hb] at hf
        exact .later hb (ih hf)
      | leave r' =>
        simp only [run, hb, Option.some.injEq] at hf
        subst hf
        exact .here hb

/-- A loop leaves with one result only. -/
theorem Leaves.unique {r' : ρ} (h : Leaves body s r) (h' : Leaves body s r') : r = r' := by
  induction h with
  | here h =>
    cases h' with
    | here h' => exact (Pass.leave.injEq _ _).mp (h.symm.trans h')
    | later h' _ => exact nomatch h.symm.trans h'
  | later h _ ih =>
    cases h' with
    | here h' => exact nomatch h.symm.trans h'
    | later h' tail =>
      obtain rfl := (Pass.again.injEq _ _).mp (h.symm.trans h')
      exact ih tail

/-- The invariant rule. `I` holds at the start, every pass that goes round again keeps it,
and a pass that leaves turns it into `P` of the result. -/
theorem Leaves.inv {P : ρ → Prop} (again : ∀ s s', I s → body s = .again s' → I s')
    (leave : ∀ s r, I s → body s = .leave r → P r) (h : Leaves body s r) (hs : I s) :
    P r := by
  induction h with
  | here h => exact leave _ _ hs h
  | later h _ ih => exact ih (again _ _ hs h)

/-- The states at the start of a pass, in a loop that starts with `s₀`. -/
inductive Reaches (body : σ → Pass σ ρ) (s₀ : σ) : σ → Prop where
  | start : Reaches body s₀ s₀
  | again {s s' : σ} (before : Reaches body s₀ s) (h : body s = .again s') : Reaches body s₀ s'

/-- The termination rule. `I` is kept by every pass, and every pass lowers the number `μ`, or
keeps it and goes down in `lt` when it is read through `ν`. Induction on the number, and on
the accessibility for states with the same number. -/
theorem exists_leaves_of_lex {α : Type} {lt : α → α → Prop} (μ : σ → Nat) (ν : σ → α)
    (acc : ∀ s, I s → Acc lt (ν s)) (again : ∀ s s', I s → body s = .again s' →
      I s' ∧ (μ s' < μ s ∨ μ s' = μ s ∧ lt (ν s') (ν s))) (s : σ) (hs : I s) :
    ∃ r, Leaves body s r := by
  induction hn : μ s using Nat.strongRecOn generalizing s with
  | _ n ih =>
    have hacc := acc s hs
    generalize ha : ν s = a at hacc
    induction hacc generalizing s with
    | intro a _ iha =>
      cases hb : body s with
      | leave r => exact ⟨r, .here hb⟩
      | again s' =>
        obtain ⟨hs', hlt | ⟨heq, hlt⟩⟩ := again s s' hs hb
        · obtain ⟨r, hr⟩ := ih (μ s') (hn ▸ hlt) s' hs' rfl
          exact ⟨r, .later hb hr⟩
        · obtain ⟨r, hr⟩ := iha (ν s') (ha ▸ hlt) s' hs' (heq.trans hn) rfl
          exact ⟨r, .later hb hr⟩

/-- The termination rule with a number alone. -/
theorem exists_leaves_of_lt (μ : σ → Nat)
    (again : ∀ s s', I s → body s = .again s' → I s' ∧ μ s' < μ s) (s : σ) (hs : I s) :
    ∃ r, Leaves body s r := by
  induction hn : μ s using Nat.strongRecOn generalizing s with
  | _ n ih =>
    cases hb : body s with
    | leave r => exact ⟨r, .here hb⟩
    | again s' =>
      obtain ⟨hs', hlt⟩ := again s s' hs hb
      obtain ⟨r, hr⟩ := ih (μ s') (hn ▸ hlt) s' hs' rfl
      exact ⟨r, .later hb hr⟩

/-- More passes do not change a result. -/
theorem run_mono {n m : Nat} (h : run body n s = some r) (hle : n ≤ m) : run body m s = some r := by
  induction n generalizing m s with
  | zero => exact nomatch h
  | succ n ih =>
    cases m with
    | zero => exact absurd hle (Nat.not_succ_le_zero n)
    | succ m =>
      unfold run at h ⊢
      cases hb : body s with
      | again s' =>
        rw [hb] at h
        exact ih h (Nat.le_of_succ_le_succ hle)
      | leave r' =>
        rw [hb] at h
        exact h

end Loop

end IstioVendor.Lib
