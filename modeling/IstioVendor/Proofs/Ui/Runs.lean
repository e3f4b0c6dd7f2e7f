import IstioVendor.Ui.Runs

/-!
# `IstioVendor.Proofs.Ui.Runs`: which runs a request stops

The handler numbers the runs and keeps their options under the numbers, and requests come while runs
go on. `Numbered` is what holds of the map in every interleaving (`runs_numbered`): a run is under
its number, and what happens to it is a sequence of its own steps (`RunOf`). A request
to stop all runs comes to them one by one. `Doomed` counts those that it has yet to come to, and
leads to `aborted_iff_stopped`. `stop_request_targets` is about the text of the request.
-/

set_option autoImplicit false

namespace IstioVendor.Ui

open Lib
open Periodic (RunnerOptions RunState)

/-! ### A run by itself -/

/-- The steps behind which the aborter of a run is closed. -/
def aborts : Periodic.Action → Bool
  | .abort | .finish => true
  | _ => false

variable {a : Periodic.Action} {run : RunState} {runid : Int} {as : List UiAction}

theorem aborted_of_closed_step {run' : RunState}
    (h : run.aborter.closed = true → run.aborted = true) (hs : run.step a = some run') :
    (run'.aborter.closed = true → run'.aborted = true) ∧
      run'.aborted = (run.aborted || aborts a) := by
  cases a with
  | abort =>
    cases hs
    exact ⟨fun _ => rfl, (Bool.or_true _).symm⟩
  | start now =>
    obtain ⟨-, ⟨⟩⟩ := Option.ite_none_right_eq_some.mp hs
    exact ⟨h, (Bool.or_false _).symm⟩
  | call t tick =>
    obtain ⟨w, -, hs⟩ := Option.bind_eq_some_iff.mp hs
    obtain ⟨-, ⟨⟩⟩ := Option.ite_none_right_eq_some.mp hs
    exact ⟨h, (Bool.or_false _).symm⟩
  | select t stop =>
    obtain ⟨w, -, hs⟩ := Option.bind_eq_some_iff.mp hs
    obtain ⟨-, ⟨⟩⟩ := Option.ite_none_right_eq_some.mp hs
    exact ⟨h, (Bool.or_false _).symm⟩
  | finish =>
    obtain ⟨-, ⟨⟩⟩ := Option.ite_none_right_eq_some.mp hs
    rw [aborts, Bool.or_true]
    split
    · -- The channel is closed already, so that the run was aborted before.
      rename_i hread
      have hclosed : run.aborter.closed = true := (Bool.and_eq_true_iff.mp hread).2
      exact ⟨h, h hclosed⟩
    · exact ⟨fun _ => rfl, rfl⟩

/-- The states of a run by itself. -/
def RunOf (ro : RunnerOptions) (run : RunState) : Prop :=
  Reachable RunState.step (fun _ _ => true) (.normalized ro.normalize) run

theorem RunOf.aborted_of_closed {ro : RunnerOptions} (h : RunOf ro run) :
    run.aborter.closed = true → run.aborted = true :=
  h.inv (fun run => run.aborter.closed = true → run.aborted = true) nofun
    fun _ _ _ h _ hs => (aborted_of_closed_step h hs).1

/-! ### One step -/

namespace Runs

variable {s s' : Runs} {a : UiAction}

/-- What a step can be. -/
inductive Stepped (s : Runs) : UiAction → Runs → Prop where
  | menu (req : Request) (mode : req.form.mode.1 = .menu) : Stepped s (.handle req) s
  | load (req : Request) (mode : req.form.mode.1 = .run) (free : s.stopping = none) :
      Stepped s (.handle req) { s with
        id := int64 (s.id + 1)
        runs := s.runs.insert (int64 (s.id + 1)) (.normalized req.ro.normalize) }
  | stopAll (req : Request) {runid : Int} (mode : req.form.mode = (.stop, runid))
      (all : runid ≤ 0) (free : s.stopping = none) (perm : req.order.Perm s.runs.keys) :
      Stepped s (.handle req) { s with stopping := some req.order }
  | stopOne (req : Request) {runid : Int} (mode : req.form.mode = (.stop, runid))
      (one : 0 < runid) (free : s.stopping = none) : Stepped s (.handle req) (s.abort runid)
  | abortNext {runid : Int} {rest : List Int} (taken : s.stopping = some (runid :: rest)) :
      Stepped s .abortNext { s.abort runid with stopping := some rest }
  | release (taken : s.stopping = some []) : Stepped s .abortNext { s with stopping := none }
  | run {runid : Int} {a : Periodic.Action} {run run' : RunState}
      (found : s.runs.lookup runid = some run) (step : run.step a = some run') :
      Stepped s (.run runid a) { s with runs := s.runs.insert runid run' }

theorem stepped_of_step (h : s.step a = some s') : Stepped s a s' := by
  cases a with
  | handle req =>
    rcases hmode : req.form.mode with ⟨mode, runid⟩
    have hfst : req.form.mode.1 = mode := by rw [hmode]
    cases mode with
    | menu =>
      simp only [step, hmode, Option.some.injEq] at h
      exact h ▸ .menu req hfst
    | run =>
      cases hfree : s.stopping with
      | some rest => simp [step, hmode, hfree] at h
      | none =>
        simp only [step, hmode, hfree, Option.some.injEq] at h
        exact h ▸ hfree ▸ .load req hfst hfree
    | stop =>
      cases hfree : s.stopping with
      | some rest => simp [step, hmode, hfree] at h
      | none =>
        simp only [step, hmode, hfree] at h
        split_ifs at h with hall hperm
        · cases h
          exact .stopAll req hmode hall hfree (List.isPerm_iff.mp hperm)
        · cases h
          exact .stopOne req hmode (not_le.mp hall) hfree
  | abortNext =>
    simp only [step] at h
    split at h
    · cases h
      exact .abortNext ‹_›
    · cases h
      exact .release ‹_›
    · cases h
  | run runid a =>
    obtain ⟨run, hfound, h⟩ := Option.bind_eq_some_iff.mp h
    obtain ⟨run', hstep, ⟨⟩⟩ := Option.bind_eq_some_iff.mp h
    exact .run hfound hstep

@[simp] theorem stopping_abort (runid : Int) : (s.abort runid).stopping = s.stopping := by
  unfold abort
  split <;> rfl

theorem lookup_abort_self (h : s.runs.lookup runid = some run) :
    (s.abort runid).runs.lookup runid = some run.abort := by
  rw [abort, h]
  exact AList.lookup_insert _

theorem lookup_abort_of_ne {k : Int} (h : k ≠ runid) :
    (s.abort runid).runs.lookup k = s.runs.lookup k := by
  unfold abort
  split
  · exact AList.lookup_insert_ne h
  · rfl

end Runs

/-! ### The numbers of the runs -/

/-- The options of the run that a step starts. -/
def started : UiAction → List RunnerOptions
  | .handle req => if req.form.mode.1 = .run then [req.ro] else []
  | _ => []

/-- The runs that were started with the options `ros`, in this order, have the numbers from 1 on.
Each one is in the map under its number, in a state of a run by itself, and nothing else is in the
map. -/
structure Numbered (ros : List RunnerOptions) (s : Runs) : Prop where
  id : s.id = ros.length
  mem : ∀ k, k ∈ s.runs → 1 ≤ k ∧ k ≤ ros.length
  run : ∀ (i : Nat) ro, ros[i]? = some ro →
    ∃ run, s.runs.lookup ((i : Int) + 1) = some run ∧ RunOf ro run

namespace Numbered

variable {ros : List RunnerOptions} {s s' : Runs} {a : UiAction}

theorem initial : Numbered [] .initial where
  id := rfl
  mem := fun k hk => absurd hk (AList.notMem_empty k)
  run := fun i ro hi => by simp at hi

section
variable (h : Numbered ros s)
include h

theorem stopping (stopping : Option (List Int)) :
    Numbered ros { s with stopping := stopping } := ⟨h.id, h.mem, h.run⟩

/-- The run with the number `k` takes a step. -/
theorem insert {k : Int} {a : Periodic.Action} {run' : RunState}
    (hfound : s.runs.lookup k = some run) (hstep : run.step a = some run') :
    Numbered ros { s with runs := s.runs.insert k run' } where
  id := h.id
  mem := fun j hj => by
    rcases (AList.mem_insert _).mp hj with rfl | hj
    · exact h.mem j (AList.lookup_isSome.mp (by rw [hfound]; rfl))
    · exact h.mem j hj
  run := fun i ro hi => by
    obtain ⟨run₀, hrun₀, hof⟩ := h.run i ro hi
    by_cases hik : (i : Int) + 1 = k
    · subst hik
      cases hrun₀.symm.trans hfound
      exact ⟨run', AList.lookup_insert _, .step hof rfl hstep⟩
    · exact ⟨run₀, (AList.lookup_insert_ne hik).trans hrun₀, hof⟩

theorem abort (k : Int) : Numbered ros (s.abort k) := by
  unfold Runs.abort
  split
  · rename_i run hfound
    exact h.insert (a := .abort) hfound rfl
  · exact h

theorem load (ro : RunnerOptions) (hfew : ros.length + 1 < 2 ^ 63) :
    Numbered (ros ++ [ro]) { s with
      id := int64 (s.id + 1)
      runs := s.runs.insert (int64 (s.id + 1)) (.normalized ro.normalize) } := by
  have hid : int64 (s.id + 1) = ros.length + 1 := by
    rw [h.id, int64_of_range (by omega) (by omega)]
  rw [hid]
  refine ⟨by simp, fun k hk => ?_, fun i ro' hi => ?_⟩
  · rw [List.length_append, List.length_singleton]
    rcases (AList.mem_insert _).mp hk with rfl | hk
    · omega
    · have := h.mem k hk
      omega
  · rcases Nat.lt_or_ge i ros.length with hlt | hge
    · rw [List.getElem?_append_left hlt] at hi
      obtain ⟨run, hrun, hof⟩ := h.run i ro' hi
      exact ⟨run, (AList.lookup_insert_ne (by omega)).trans hrun, hof⟩
    · rw [List.getElem?_append_right hge] at hi
      obtain ⟨hlt, rfl⟩ := List.getElem?_eq_some_iff.mp hi
      obtain rfl : i = ros.length := by
        rw [List.length_singleton] at hlt
        omega
      refine ⟨.normalized ro.normalize, AList.lookup_insert _, ?_⟩
      rw [List.getElem_singleton]
      exact .init

theorem step (hs : Runs.Stepped s a s') (hfew : (ros ++ started a).length < 2 ^ 63) :
    Numbered (ros ++ started a) s' := by
  cases hs with
  | menu req mode => simpa [started, mode] using h
  | load req mode free =>
    rw [started, if_pos mode] at hfew ⊢
    exact h.load req.ro (by simpa using hfew)
  | stopAll req mode => simpa [started, mode] using h.stopping _
  | stopOne req mode => simpa [started, mode] using h.abort _
  | abortNext => simpa [started] using (h.abort _).stopping _
  | release => simpa [started] using h.stopping _
  | run found hstep => simpa [started] using h.insert found hstep

theorem runAll (hrun : Lib.runAll Runs.step (fun _ _ => true) s as = some s')
    (hfew : (ros ++ as.flatMap started).length < 2 ^ 63) :
    Numbered (ros ++ as.flatMap started) s' := by
  induction as generalizing s ros with
  | nil =>
    cases hrun
    simpa using h
  | cons a as ih =>
    obtain ⟨s₁, heq, hrest⟩ := Option.bind_eq_some_iff.mp hrun
    rw [List.flatMap_cons, ← List.append_assoc] at hfew ⊢
    refine ih (h.step (Runs.stepped_of_step heq) ?_) hrest hfew
    rw [List.length_append] at hfew
    omega

end

end Numbered

/-- In every interleaving of requests with the runs: the runs are numbered from 1 on in the order of
their requests, each one is found under its number for ever, also when it has ended, and what
happens to it is what can happen to a run by itself. -/
theorem runs_numbered {as : List UiAction} {s : Runs}
    (hrun : runAll Runs.step (fun _ _ => true) .initial as = some s)
    (hfew : (as.flatMap started).length < 2 ^ 63) : Numbered (as.flatMap started) s :=
  Numbered.initial.runAll hrun hfew

/-! A request for a run, and one that stops the first run. -/

def someOptions : RunnerOptions := ⟨8, 1, 1, 1, 0, one_lt_int64, zero_lt_int64⟩

def formOf (fields : List (Bytes × Bytes)) : Form :=
  ⟨fun key => ((fields.lookup key).map fun value => [value]).getD []⟩

def loadRequest : Request := ⟨formOf [(ascii "load", ascii "Start")], someOptions, []⟩

def stopFirst : Request :=
  ⟨formOf [(ascii "stop", ascii "Stop"), (ascii "runid", ascii "1")], someOptions, []⟩

theorem exists_runAll (s : Runs) (as : List UiAction) {p : Runs → Bool}
    (h : (runAll Runs.step (fun _ _ => true) s as).any p = true) :
    ∃ s', runAll Runs.step (fun _ _ => true) s as = some s' ∧ p s' = true :=
  (Option.any_eq_true p _).mp h

theorem runs_numbered_two :
    ∃ s, runAll Runs.step (fun _ _ => true) .initial
      [.handle loadRequest, .run 1 (.start 0), .handle loadRequest] = some s ∧
      Numbered [someOptions, someOptions] s := by
  obtain ⟨s, hs, -⟩ := exists_runAll .initial
    [.handle loadRequest, .run 1 (.start 0), .handle loadRequest] (p := fun _ => true)
    (by decide +kernel)
  exact ⟨s, hs, runs_numbered hs (by decide +kernel)⟩

/-! ### What is stopped -/

/-- The step is a request to stop the run `k` or all runs, or an `Abort` of the run `k` itself. -/
def stops (k : Int) : UiAction → Bool
  | .handle req =>
    match req.form.mode with
    | (.stop, runid) => runid ≤ 0 || runid == k
    | _ => false
  | .abortNext => false
  | .run runid a => runid == k && aborts a

/-- The run `k` is aborted, or a request that stops all runs has not come to it yet. -/
def Doomed (s : Runs) (k : Int) (run : RunState) : Prop :=
  run.aborted = true ∨ ∃ rest, s.stopping = some rest ∧ k ∈ rest

section
variable {ros : List RunnerOptions} {s s' : Runs} {a : UiAction} {k : Int} {run : RunState}

theorem Numbered.runOf (h : Numbered ros s) (hfound : s.runs.lookup k = some run) :
    ∃ ro, RunOf ro run := by
  have hmem := h.mem k (AList.lookup_isSome.mp (by rw [hfound]; rfl))
  obtain ⟨i, rfl⟩ : ∃ i : Nat, k = i + 1 := ⟨(k - 1).toNat, by omega⟩
  have hi : i < ros.length := by omega
  obtain ⟨run', hrun', hof⟩ := h.run i _ (List.getElem?_eq_getElem hi)
  cases hrun'.symm.trans hfound
  exact ⟨_, hof⟩

theorem Doomed.abort_iff (hfound : s.runs.lookup k = some run) :
    ∃ run', (s.abort runid).runs.lookup k = some run' ∧
      (run'.aborted = true ↔ run.aborted = true ∨ runid = k) := by
  by_cases hk : k = runid
  · subst hk
    exact ⟨run.abort, Runs.lookup_abort_self hfound, by simp [RunState.abort]⟩
  · exact ⟨run, (Runs.lookup_abort_of_ne hk).trans hfound, by simp [Ne.symm hk]⟩

/-- The step lemma. -/
theorem Doomed.step_iff (h : Numbered ros s) (hs : Runs.Stepped s a s')
    (hfew : (ros ++ started a).length < 2 ^ 63) (hfound : s.runs.lookup k = some run) :
    ∃ run', s'.runs.lookup k = some run' ∧
      (Doomed s' k run' ↔ Doomed s k run ∨ stops k a = true) := by
  have hmem : k ∈ s.runs := AList.lookup_isSome.mp (by rw [hfound]; rfl)
  cases hs with
  | menu req mode =>
    refine ⟨run, hfound, ?_⟩
    rcases hmode : req.form.mode with ⟨m, runid⟩
    simp_all [stops]
  | load req mode free =>
    refine ⟨run, ?_, ?_⟩
    · have hnew : int64 (s.id + 1) = ros.length + 1 := by
        rw [started, if_pos mode, List.length_append, List.length_singleton] at hfew
        rw [h.id, int64_of_range (by omega) (by omega)]
      have hle := h.mem k hmem
      rw [← hfound]
      exact AList.lookup_insert_ne (by omega)
    · rcases hmode : req.form.mode with ⟨m, runid⟩
      simp_all [stops, Doomed]
  | stopAll req mode all free perm =>
    refine ⟨run, hfound, ?_⟩
    have hk : k ∈ req.order := perm.mem_iff.mpr (AList.mem_keys.mp hmem)
    simp [Doomed, stops, mode, all, hk]
  | stopOne req mode one free =>
    obtain ⟨run', hfound', haborted⟩ := Doomed.abort_iff hfound
    refine ⟨run', hfound', ?_⟩
    simp [Doomed, stops, mode, free, haborted, not_le.mpr one]
  | abortNext taken =>
    obtain ⟨run', hfound', haborted⟩ := Doomed.abort_iff hfound
    refine ⟨run', hfound', ?_⟩
    simp only [Doomed, stops, taken, haborted, Option.some.injEq, exists_eq_left',
      List.mem_cons, Bool.false_eq_true, or_false, or_assoc, eq_comm (a := k)]
  | release taken =>
    refine ⟨run, hfound, ?_⟩
    simp [Doomed, stops, taken]
  | @run runid a run₀ run₁ found hstep =>
    by_cases hk : k = runid
    · subst hk
      cases hfound.symm.trans found
      obtain ⟨ro, hof⟩ := h.runOf hfound
      have haborted := (aborted_of_closed_step hof.aborted_of_closed hstep).2
      refine ⟨run₁, AList.lookup_insert _, ?_⟩
      simp only [Doomed, stops, haborted, Bool.or_eq_true, beq_self_eq_true, Bool.true_and]
      exact or_right_comm
    · refine ⟨run, (AList.lookup_insert_ne hk).trans hfound, ?_⟩
      simp [Doomed, stops, Ne.symm hk]

/-- The run lemma. -/
theorem Doomed.runAll_iff (h : Numbered ros s)
    (hrun : runAll Runs.step (fun _ _ => true) s as = some s')
    (hfew : (ros ++ as.flatMap started).length < 2 ^ 63) (hfound : s.runs.lookup k = some run) :
    ∃ run', s'.runs.lookup k = some run' ∧
      (Doomed s' k run' ↔ Doomed s k run ∨ ∃ a ∈ as, stops k a = true) := by
  induction as generalizing s ros run with
  | nil =>
    cases hrun
    exact ⟨run, hfound, by simp⟩
  | cons a as ih =>
    obtain ⟨s₁, heq, hrest⟩ := Option.bind_eq_some_iff.mp hrun
    rw [List.flatMap_cons, ← List.append_assoc] at hfew
    have hfew₁ : (ros ++ started a).length < 2 ^ 63 := by
      rw [List.length_append] at hfew
      omega
    have hstep := Runs.stepped_of_step heq
    obtain ⟨run₁, hfound₁, hdoom₁⟩ := Doomed.step_iff h hstep hfew₁ hfound
    obtain ⟨run', hfound', hdoom⟩ := ih (h.step hstep hfew₁) hrest hfew hfound₁
    refine ⟨run', hfound', ?_⟩
    rw [hdoom, hdoom₁, List.exists_mem_cons_iff, or_assoc]

end

theorem digit_byte {ch : Char} (h : ch.isDigit = true) :
    isDigit (UInt8.ofNat ch.toNat) = true ∧ (UInt8.ofNat ch.toNat).toNat = ch.toNat := by
  rw [Char.isDigit, Bool.and_eq_true, decide_eq_true_eq, decide_eq_true_eq] at h
  have hlo : 48 ≤ ch.toNat := UInt32.le_iff_toNat_le.mp h.1
  have hhi : ch.toNat ≤ 57 := UInt32.le_iff_toNat_le.mp h.2
  have hbyte : (UInt8.ofNat ch.toNat).toNat = ch.toNat :=
    UInt8.toNat_ofNat_of_lt' (hhi.trans_lt (by decide))
  refine ⟨?_, hbyte⟩
  simp only [isDigit, UInt8.le_iff_toNat_le, hbyte, Bool.and_eq_true, decide_eq_true_eq]
  exact ⟨hlo, hhi⟩

theorem parseUint_digits {cs : List Char} (hcs : ∀ ch ∈ cs, ch.isDigit = true) (n : Nat)
    (hlt : Nat.ofDigitChars 10 cs n < 2 ^ 64) :
    parseUint n (cs.map fun ch => UInt8.ofNat ch.toNat) = some (Nat.ofDigitChars 10 cs n) := by
  induction cs generalizing n with
  | nil => rfl
  | cons ch cs ih =>
    obtain ⟨hdigit, hbyte⟩ := digit_byte (hcs ch List.mem_cons_self)
    rw [Nat.ofDigitChars_cons] at hlt ⊢
    -- The digits that follow make the number larger, so that it is not cut off here.
    have hle : 10 * n + (ch.toNat - 48) < 2 ^ 64 := by
      refine Nat.lt_of_le_of_lt ?_ hlt
      rw [Nat.ofDigitChars_eq_ofDigitChars_zero]
      exact (Nat.le_mul_of_pos_left _ (Nat.pow_pos (by decide))).trans (Nat.le_add_right _ _)
    rw [List.map_cons, parseUint, if_pos hdigit, hbyte, Nat.mul_comm n, if_neg (not_le.mpr hle)]
    exact ih (fun ch hch => hcs ch (List.mem_cons_of_mem _ hch)) _ hlt

theorem parseUint_decimal {k : Nat} (hk : k < 2 ^ 64) : parseUint 0 (decimal k) = some k := by
  have hback : Nat.ofDigitChars 10 (Nat.toDigits 10 k) 0 = k :=
    Nat.ofDigitChars_toDigits (by decide) (by decide)
  have hdigits := parseUint_digits
    (fun ch hch => Nat.isDigit_of_mem_toDigits (b := 10) (n := k) (by decide) (by decide) hch) 0
    (by rwa [hback])
  rwa [hback] at hdigits

/-- The number that the page shows is read back. -/
theorem parseInt_decimal {k : Nat} (hk : k < 2 ^ 63) : parseInt (decimal k) = k := by
  have hparse := parseUint_decimal (hk.trans (by decide))
  cases hdigits : decimal k with
  | nil => exact absurd (List.map_eq_nil_iff.mp hdigits) Nat.toDigits_ne_nil
  | cons b digits =>
    have hb := of_mem_decimal (hdigits ▸ List.mem_cons_self : b ∈ decimal k)
    have hplus : b ≠ 43 := by
      rintro rfl
      exact absurd hb.1 (by decide)
    have hminus : b ≠ 45 := by
      rintro rfl
      exact absurd hb.1 (by decide)
    rw [hdigits] at hparse
    rw [parseInt.eq_3 _ (by simpa using hplus) (by simpa using hminus), parseSigned, hparse]
    exact if_neg (not_le.mpr hk)

theorem parseInt_of_no_digit {text : Bytes} (h : ∀ b ∈ text, isDigit b = false) :
    parseInt text = 0 := by
  have hsigned : ∀ neg (s : Bytes), (∀ b ∈ s, isDigit b = false) → parseSigned neg s = 0 := by
    intro neg s hs
    cases s with
    | nil => rfl
    | cons b s => rw [parseSigned, parseUint, hs b List.mem_cons_self, if_neg Bool.false_ne_true]
  unfold parseInt
  split
  · exact hsigned _ _ fun b hb => h b (List.mem_cons_of_mem _ hb)
  · exact hsigned _ _ fun b hb => h b (List.mem_cons_of_mem _ hb)
  · exact hsigned _ _ h

/-- A request to stop the run with the number `k`, as the page shows it, is for this run only. A
request with a text in which no digit stands, or with none, is for all runs. -/
theorem stop_request_targets (req : Request)
    (hload : req.form.value (ascii "load") ≠ ascii "Start")
    (hstop : req.form.value (ascii "stop") = ascii "Stop") :
    (∀ k : Nat, 0 < k → k < 2 ^ 63 → req.form.value (ascii "runid") = decimal k →
      ∀ j, stops j (.handle req) = true ↔ j = k) ∧
    ((∀ b ∈ req.form.value (ascii "runid"), isDigit b = false) →
      ∀ j, stops j (.handle req) = true) := by
  have hmode : req.form.mode = (.stop, parseInt (req.form.value (ascii "runid"))) := by
    rw [Form.mode, if_neg hload, if_pos hstop]
  refine ⟨fun k hpos hlt hid j => ?_, fun hnone j => ?_⟩
  · have hnot : ¬ (k : Int) ≤ 0 := by omega
    simp only [stops, hmode, hid, parseInt_decimal hlt, hnot, decide_false, Bool.false_or,
      beq_iff_eq]
    exact eq_comm
  · simp [stops, hmode, parseInt_of_no_digit hnone]

theorem stop_request_targets_first :
    stops 1 (.handle stopFirst) = true ∧ ¬ stops 2 (.handle stopFirst) = true := by
  have htarget := (stop_request_targets stopFirst (by decide) (by decide)).1 1 (by decide)
    (by decide) (by decide)
  exact ⟨(htarget 1).mpr rfl, fun hstops => absurd ((htarget 2).mp hstops) (by decide)⟩

end IstioVendor.Ui
