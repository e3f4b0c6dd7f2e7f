import Mathlib.Data.List.Forall2
import Mathlib.Data.List.Perm.Basic

/-!
# `IstioVendor.Lib.Simulation`: a program and its specification, call by call

A program state changes by calls that may fail, and a specification state changes by the
same calls. `simulation` is the induction over a list of calls: a relation that every
successful call keeps is kept by every successful run. A call may rely on a property of the
specification states, which is then asked of the whole run. `foldlM_imp` and `exists_foldlM` are
about the success of a run.

A program state is often a list of objects. The lemmas about `List.Forall₂` relate such a
state to a list of specifications, one object at a time.
-/

set_option autoImplicit false

namespace IstioVendor.Lib

section

variable {σ α ω : Type} {step : σ → ω → Option σ} {spec : α → ω → α} {R : σ → α → Prop}
  {P : α → Prop} {ops : List ω}

/-- A relation that every successful call keeps is kept by every successful run. -/
theorem simulation
    (hstep : ∀ op s a s', R s a → P (spec a op) → step s op = some s' → R s' (spec a op))
    {s s' : σ} {a : α} (hR : R s a) (hP : ∀ pre, pre <+: ops → P (pre.foldl spec a))
    (hrun : ops.foldlM step s = some s') : R s' (ops.foldl spec a) := by
  induction ops generalizing s a with
  | nil =>
    obtain rfl : s = s' := Option.some.inj hrun
    exact hR
  | cons op ops ih =>
    obtain ⟨s₁, hs₁, hrest⟩ := Option.bind_eq_some_iff.mp hrun
    refine ih (hstep op s a s₁ hR (hP [op] (by simp)) hs₁) (fun pre hpre => ?_) hrest
    exact hP (op :: pre) (List.cons_prefix_cons.mpr ⟨rfl, hpre⟩)

/-- A run succeeds with the same result when its calls do. -/
theorem foldlM_imp {step' : σ → ω → Option σ}
    (h : ∀ s op s', step s op = some s' → step' s op = some s') {s s' : σ}
    (hrun : ops.foldlM step s = some s') : ops.foldlM step' s = some s' := by
  induction ops generalizing s with
  | nil => exact hrun
  | cons op ops ih =>
    obtain ⟨s₁, hs₁, hrest⟩ := Option.bind_eq_some_iff.mp hrun
    exact Option.bind_eq_some_iff.mpr ⟨s₁, h s op s₁ hs₁, ih hrest⟩

/-- A run succeeds when its calls succeed in all states. -/
theorem exists_foldlM (h : ∀ s, ∀ op ∈ ops, ∃ s', step s op = some s') (s : σ) :
    ∃ s', ops.foldlM step s = some s' := by
  induction ops generalizing s with
  | nil => exact ⟨s, rfl⟩
  | cons op ops ih =>
    obtain ⟨s₁, hs₁⟩ := h s op List.mem_cons_self
    obtain ⟨s', hs'⟩ := ih (fun s op' hop' => h s op' (List.mem_cons_of_mem op hop')) s₁
    exact ⟨s', by rw [List.foldlM_cons, hs₁]; exact hs'⟩

end

variable {i : Nat}

section

variable {α β : Type} {R : α → β → Prop} {as : List α} {bs : List β} {a : α} {b : β}
  {f : α → Option β}

theorem forall₂_getElem? (h : List.Forall₂ R as bs) (ha : as[i]? = some a) :
    ∃ b, bs[i]? = some b ∧ R a b := by
  obtain ⟨hi, rfl⟩ := List.getElem?_eq_some_iff.mp ha
  have hi' : i < bs.length := h.length_eq ▸ hi
  exact ⟨bs[i], List.getElem?_eq_getElem hi', h.get hi hi'⟩

theorem forall₂_lt_length (h : List.Forall₂ R as bs) (ha : as[i]? = some a) : i < bs.length := by
  obtain ⟨hi, -⟩ := List.getElem?_eq_some_iff.mp ha
  exact h.length_eq ▸ hi

/-- The element is related to the one at its place. -/
theorem forall₂_getD (h : List.Forall₂ R as bs) (ha : as[i]? = some a) (d : β) :
    R a (bs.getD i d) := by
  obtain ⟨b, hb, hab⟩ := forall₂_getElem? h ha
  rwa [List.getD_eq_getElem?_getD, hb, Option.getD_some]

/-- What is written at one place is there after a write at another one. -/
theorem mem_set_set {j : Nat} {b : α} (hij : i ≠ j) (hi : i < as.length) :
    a ∈ (as.set i a).set j b := by
  refine List.mem_of_getElem? (i := i) ?_
  rw [List.getElem?_set_ne hij.symm, List.getElem?_set_self hi]

theorem forall₂_mem (h : List.Forall₂ R as bs) (hb : b ∈ bs) : ∃ a ∈ as, R a b := by
  induction h with
  | nil => exact nomatch hb
  | cons hx _ ih =>
    rcases List.mem_cons.mp hb with rfl | hb
    · exact ⟨_, List.mem_cons_self, hx⟩
    · obtain ⟨a, ha, hab⟩ := ih hb
      exact ⟨a, List.mem_cons_of_mem _ ha, hab⟩

theorem forall₂_imp_mem {S : α → β → Prop} (h : List.Forall₂ R as bs)
    (himp : ∀ a ∈ as, ∀ b, R a b → S a b) : List.Forall₂ S as bs := by
  induction h with
  | nil => exact .nil
  | cons hx _ ih =>
    exact .cons (himp _ List.mem_cons_self _ hx)
      (ih fun a ha => himp a (List.mem_cons_of_mem _ ha))

/-- Related lists stay related when one is permuted, after a permutation of the other. -/
theorem forall₂_perm (h : List.Forall₂ R as bs) {bs' : List β} (hperm : bs'.Perm bs) :
    ∃ as', as'.Perm as ∧ List.Forall₂ R as' bs' := by
  have hflip : List.Forall₂ (flip R) bs as := h.flip
  obtain ⟨as', has', hperm'⟩ := List.perm_comp_forall₂ hperm hflip
  exact ⟨as', hperm', has'.flip⟩

theorem forall₂_map_eq {γ : Type} {f : α → γ} {g : β → γ}
    (h : List.Forall₂ (fun a b => g b = f a) as bs) : bs.map g = as.map f := by
  induction h with
  | nil => rfl
  | cons hx _ ih => rw [List.map_cons, List.map_cons, hx, ih]

/-- The parts of a list, each one made for an element of another list. -/
theorem flatMap_of_forall₂ {γ δ : Type} {R : α → List γ → Prop} {parts : List (List γ)}
    {f : γ → List δ} {F : α → List δ} (h : List.Forall₂ R as parts)
    (hF : ∀ a ∈ as, ∀ part, R a part → part.flatMap f = F a) :
    parts.flatten.flatMap f = as.flatMap F := by
  induction h with
  | nil => rfl
  | cons hx _ ih =>
    rw [List.flatten_cons, List.flatMap_append, List.flatMap_cons,
      hF _ List.mem_cons_self _ hx, ih fun a ha => hF a (List.mem_cons_of_mem _ ha)]

theorem mapM_eq_some_iff : as.mapM f = some bs ↔ List.Forall₂ (fun a b => f a = some b) as bs := by
  induction as generalizing bs with
  | nil => simp [eq_comm]
  | cons a as ih =>
    rw [List.mapM_cons, List.forall₂_cons_left_iff]
    constructor
    · intro h
      obtain ⟨b, hb, h⟩ := Option.bind_eq_some_iff.mp h
      obtain ⟨bs', hbs', h⟩ := Option.bind_eq_some_iff.mp h
      exact ⟨b, bs', hb, ih.mp hbs', (Option.some.inj h).symm⟩
    · rintro ⟨b, bs', hb, hbs', rfl⟩
      rw [hb, Option.bind_eq_bind, Option.bind_some, ih.mpr hbs']
      rfl

/-- When all elements can be mapped, each of them can. -/
theorem exists_of_mem_mapM (h : as.mapM f = some bs) (ha : a ∈ as) : ∃ b, f a = some b := by
  induction mapM_eq_some_iff.mp h with
  | nil => cases ha
  | cons hx hrest ih =>
    rcases List.mem_cons.mp ha with rfl | ha
    · exact ⟨_, hx⟩
    · exact ih (mapM_eq_some_iff.mpr hrest) ha

theorem mem_mapM (h : as.mapM f = some bs) : b ∈ bs ↔ ∃ a ∈ as, f a = some b := by
  induction mapM_eq_some_iff.mp h with
  | nil => simp
  | cons hx hrest ih =>
    rw [List.mem_cons, List.exists_mem_cons_iff, ih (mapM_eq_some_iff.mpr hrest), hx,
      Option.some.injEq, eq_comm]

/-- A permutation of the elements permutes what they are mapped to. -/
theorem mapM_perm {as' : List α} (hperm : as.Perm as') (f : α → Option β) :
    Option.Rel List.Perm (as.mapM f) (as'.mapM f) := by
  cases h : as.mapM f with
  | some bs =>
    obtain ⟨bs', hbs', hperm'⟩ := List.perm_comp_forall₂ hperm.symm (mapM_eq_some_iff.mp h)
    rw [mapM_eq_some_iff.mpr hbs']
    exact .some hperm'.symm
  | none =>
    cases h' : as'.mapM f with
    | none => exact .none
    | some bs' =>
      obtain ⟨bs, hbs, -⟩ := List.perm_comp_forall₂ hperm (mapM_eq_some_iff.mp h')
      rw [mapM_eq_some_iff.mpr hbs] at h
      cases h

theorem exists_mapM (h : ∀ a ∈ as, ∃ b, f a = some b) : ∃ bs, as.mapM f = some bs := by
  induction as with
  | nil => exact ⟨[], rfl⟩
  | cons a as ih =>
    obtain ⟨b, hb⟩ := h a List.mem_cons_self
    obtain ⟨bs, hbs⟩ := ih fun a' ha' => h a' (List.mem_cons_of_mem _ ha')
    exact ⟨b :: bs, mapM_eq_some_iff.mpr (.cons hb (mapM_eq_some_iff.mp hbs))⟩

/-- Partial functions that succeed with enough fuel succeed together on a list. -/
theorem exists_mapM_of_mono {f : Nat → α → Option β}
    (hmono : ∀ n m a b, f n a = some b → n ≤ m → f m a = some b)
    (h : ∀ a ∈ as, ∃ n b, f n a = some b) : ∃ n bs, as.mapM (f n) = some bs := by
  induction as with
  | nil => exact ⟨0, [], rfl⟩
  | cons a as ih =>
    obtain ⟨n, b, hb⟩ := h a List.mem_cons_self
    obtain ⟨m, bs, hbs⟩ := ih fun a' ha' => h a' (List.mem_cons_of_mem _ ha')
    refine ⟨max n m, b :: bs, mapM_eq_some_iff.mpr (.cons ?_ ?_)⟩
    · exact hmono n _ a b hb (Nat.le_max_left n m)
    · exact (mapM_eq_some_iff.mp hbs).imp fun a' b' h' =>
        hmono m _ a' b' h' (Nat.le_max_right n m)

theorem forall₂_set (h : List.Forall₂ R as bs) (i : Nat) (hab : R a b) :
    List.Forall₂ R (as.set i a) (bs.set i b) := by
  induction h generalizing i with
  | nil => exact .nil
  | cons hx _ ih =>
    cases i with
    | zero => exact .cons hab ‹_›
    | succ i => exact .cons hx (ih i)

theorem forall₂_concat (h : List.Forall₂ R as bs) (hab : R a b) :
    List.Forall₂ R (as ++ [a]) (bs ++ [b]) :=
  List.rel_append h (.cons hab .nil)

end

/-! ### Programs that may end in an error or not at all -/

section

variable {ε α β : Type} {f : α → ExceptT ε Option β} {x : ExceptT ε Option α}

theorem exceptT_bind_eq_ok {b : β} :
    (x >>= f).run = some (.ok b) ↔ ∃ a, x.run = some (.ok a) ∧ (f a).run = some (.ok b) := by
  rw [ExceptT.run_bind, Option.bind_eq_bind, Option.bind_eq_some_iff]
  constructor
  · rintro ⟨_ | a, ha, hb⟩
    · exact nomatch hb
    · exact ⟨a, ha, hb⟩
  · rintro ⟨a, ha, hb⟩
    exact ⟨.ok a, ha, hb⟩

theorem exceptT_lift_eq_ok {x : Option α} {a : α} :
    (liftM x : ExceptT ε Option α).run = some (.ok a) ↔ x = some a := by
  cases x <;> simp [liftM, monadLift, MonadLift.monadLift]

/-- A program without arguments can be run to see that its result has a property. -/
theorem exists_ok_of_any {p : α → Bool} (h : x.run.any (fun e => e.toOption.any p) = true) :
    ∃ a, x.run = some (.ok a) ∧ p a = true := by
  obtain ⟨e, he, ha⟩ := (Option.any_eq_true _ _).mp h
  cases e with
  | error _ => exact nomatch ha
  | ok a => exact ⟨a, he, ha⟩

theorem exceptT_mapM_eq_ok {as : List α} {bs : List β} :
    (as.mapM f).run = some (.ok bs) ↔ List.Forall₂ (fun a b => (f a).run = some (.ok b)) as bs := by
  induction as generalizing bs with
  | nil => simp [eq_comm]
  | cons a as ih =>
    rw [List.mapM_cons, List.forall₂_cons_left_iff, exceptT_bind_eq_ok]
    constructor
    · rintro ⟨b, hb, h⟩
      obtain ⟨bs', hbs', h⟩ := exceptT_bind_eq_ok.mp h
      exact ⟨b, bs', hb, ih.mp hbs', (Except.ok.inj (Option.some.inj h)).symm⟩
    · rintro ⟨b, bs', hb, hbs', rfl⟩
      exact ⟨b, hb, exceptT_bind_eq_ok.mpr ⟨bs', ih.mpr hbs', rfl⟩⟩

end

end IstioVendor.Lib
