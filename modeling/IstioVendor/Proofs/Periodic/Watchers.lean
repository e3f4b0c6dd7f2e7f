import IstioVendor.Periodic.Watchers

/-!
# `IstioVendor.Proofs.Periodic.Watchers`: no channel is closed twice

`step_cases` says once what a step of the system can do to the `Aborter`s and to the watchers, and
every invariant is derived from it. The invariant here is the idea of the code: a field that is
not `nil` holds an open channel, and the channel is in no other field. Who closes a channel
clears the field under the same lock, so no channel is closed twice (`closed_at_most_once`).

An `Aborter` and its stop channel are made together, so they have the same position. So `Abort`
here is the `Abort` of `IstioVendor.Periodic.Aborter` on the state of one run (`view_abort`).
-/

set_option autoImplicit false

namespace IstioVendor.Periodic.Watch

open Lib

/-! ### What a step does -/

/-- The effects of a step on the aborters. -/
inductive StopsEffect (s s' : Stops) : Prop where
  | options (os : List (Option Nat)) (eq : s' = { s with options := os })
  | new (os : List (Option Nat)) (eq : s' = { s with options := os }.newAborter)
  | abort (a : Nat) (eq : s' = s.abortAborter a)

/-- The effects of a step on the watchers. -/
inductive SignalsEffect (s s' : Signals) : Action → Prop where
  | same {a : Action} (eq : s' = s) : SignalsEffect s s' a
  | started {a : Action} (w : Watcher) (place : w.place = .starting)
      (eq : s' = { s with watchers := s.watchers ++ [w] }) : SignalsEffect s s' a
  | watched {i : Nat} {e : WatcherStep} (readable : Nat → Bool) (w : Watcher)
      (mem : s.watchers[i]? = some w) (eq : s.watch readable i w e = some s') :
      SignalsEffect s s' (.watch i e)
  | interrupted (eq : s' = s.interrupt) : SignalsEffect s s' .interrupt

theorem stopsEffect_abort (s : Stops) (r : Nat) : StopsEffect s (s.abort r) := by
  unfold Stops.abort
  split
  · exact .abort _ rfl
  · exact .options s.options rfl

theorem normalize_cases {s s' : System} {r : Nat} (h : s.normalize r = some s') :
    s' = s ∨ ∃ os w, w.place = .starting ∧
      s'.stops = { s.stops with options := os }.newAborter ∧
      s'.signals = { s.signals with watchers := s.signals.watchers ++ [w] } ∧
      s'.panicked = s.panicked := by
  obtain ⟨stop, -, h⟩ := Option.bind_eq_some_iff.mp h
  cases stop with
  | some a => exact .inl (Option.some.inj h).symm
  | none =>
    cases h
    exact .inr ⟨_, _, rfl, rfl, rfl, rfl⟩

/-- What a step can do. -/
theorem step_cases {s s' : System} {a : Action} (h : s.step a = some s') :
    StopsEffect s.stops s'.stops ∧ SignalsEffect s.signals s'.signals a ∧
      (s'.panicked = s.panicked ∨
        a = .interrupt ∧ s'.panicked = (s.panicked || s.signals.closedRegistered)) := by
  have same : StopsEffect s.stops s.stops := .options s.stops.options rfl
  cases a with
  | newOptions =>
    cases h
    exact ⟨.options _ rfl, .same rfl, .inl rfl⟩
  | newAborter =>
    cases h
    exact ⟨.new s.stops.options rfl, .same rfl, .inl rfl⟩
  | setStop r a =>
    obtain ⟨-, ⟨⟩⟩ := Option.ite_none_right_eq_some.mp h
    exact ⟨.options _ rfl, .same rfl, .inl rfl⟩
  | copyOptions r =>
    obtain ⟨stop, -, ⟨⟩⟩ := Option.bind_eq_some_iff.mp h
    exact ⟨.options _ rfl, .same rfl, .inl rfl⟩
  | normalize r =>
    rcases normalize_cases h with rfl | ⟨os, w, hw, hstops, hsignals, hpanicked⟩
    · exact ⟨same, .same rfl, .inl rfl⟩
    · exact ⟨.new os hstops, .started w hw hsignals, .inl hpanicked⟩
  | newPeriodicRunner r =>
    obtain ⟨stop, -, h⟩ := Option.bind_eq_some_iff.mp h
    rcases normalize_cases h with rfl | ⟨os, w, hw, hstops, hsignals, hpanicked⟩
    · exact ⟨.options _ rfl, .same rfl, .inl rfl⟩
    · exact ⟨.new os hstops, .started w hw hsignals, .inl hpanicked⟩
  | abort r =>
    cases h
    exact ⟨stopsEffect_abort s.stops r, .same rfl, .inl rfl⟩
  | abortOn a =>
    cases h
    exact ⟨.abort a rfl, .same rfl, .inl rfl⟩
  | startRun r =>
    obtain ⟨stop, -, h⟩ := Option.bind_eq_some_iff.mp h
    obtain ⟨a, -, h⟩ := Option.bind_eq_some_iff.mp h
    obtain ⟨chan, -, ⟨⟩⟩ := Option.bind_eq_some_iff.mp h
    exact ⟨same, .same rfl, .inl rfl⟩
  | endRun k =>
    obtain ⟨run, -, h⟩ := Option.bind_eq_some_iff.mp h
    obtain ⟨-, ⟨⟩⟩ := Option.ite_none_right_eq_some.mp h
    exact ⟨same, .same rfl, .inl rfl⟩
  | abortRun k =>
    obtain ⟨run, -, h⟩ := Option.bind_eq_some_iff.mp h
    obtain ⟨-, ⟨⟩⟩ := Option.ite_none_right_eq_some.mp h
    exact ⟨stopsEffect_abort s.stops run.r, .same rfl, .inl rfl⟩
  | watch i e =>
    obtain ⟨w, hw, h⟩ := Option.bind_eq_some_iff.mp h
    obtain ⟨signals, hwatch, ⟨⟩⟩ := Option.bind_eq_some_iff.mp h
    refine ⟨?_, .watched _ w hw hwatch, .inl rfl⟩
    cases e with
    | abort => exact stopsEffect_abort s.stops w.r
    | register | receive | stop | close | leave => exact same
  | interrupt =>
    cases h
    exact ⟨same, .interrupted rfl, .inr ⟨rfl, rfl⟩⟩

section
variable {s : Signals} {g : Nat}

theorem register_of_some (hg : s.gAbortChan = some g) (i : Nat) (w : Watcher) :
    s.register i w = ⟨some g, s.gOutstandingRuns + 1, s.abortChans,
      s.watchers.set i { w with place := .selecting g }⟩ := by
  simp only [Signals.register, hg]
  rfl

theorem register_of_none (hg : s.gAbortChan = none) (i : Nat) (w : Watcher) :
    s.register i w = ⟨some s.abortChans.length, s.gOutstandingRuns + 1,
      s.abortChans ++ [⟨false, 0, true, false⟩],
      s.watchers.set i { w with place := .selecting s.abortChans.length }⟩ := by
  simp only [Signals.register, hg]
  rfl

theorem close_of_some (hg : s.gAbortChan = some g) (i : Nat) (w : Watcher) :
    s.close i w = ⟨none, s.gOutstandingRuns,
      s.abortChans.modify g fun ch => { ch with closes := ch.closes + 1 },
      s.watchers.set i { w with place := .aborting }⟩ := by
  simp only [Signals.close, hg]
  rfl

theorem close_of_none (hg : s.gAbortChan = none) (i : Nat) (w : Watcher) :
    s.close i w = s.goto i w .aborting := by
  simp only [Signals.close, hg]

theorem leave_of_last (hlast : s.gOutstandingRuns - 1 = 0) (i : Nat) (w : Watcher) :
    s.leave i w = ⟨none, s.gOutstandingRuns - 1,
      s.abortChans.map fun ch => { ch with registered := false },
      s.watchers.set i { w with place := .ended }⟩ := by
  simp only [Signals.leave, hlast]
  rfl

theorem leave_of_others (hlast : s.gOutstandingRuns - 1 ≠ 0) (i : Nat) (w : Watcher) :
    s.leave i w = { s.goto i w .ended with gOutstandingRuns := s.gOutstandingRuns - 1 } := by
  simp only [Signals.leave, hlast]
  rfl

end

/-- The steps of a watcher, one by one. -/
inductive Watched (s s' : Signals) (i : Nat) (w : Watcher) : WatcherStep → Prop where
  | register (place : w.place = .starting) (eq : s' = s.register i w) : Watched s s' i w .register
  | received {c : Nat} {ch : AbortChan} (place : w.place = .selecting c)
      (chan : s.abortChans[c]? = some ch) (pending : ch.pending = true)
      (eq : s' = { s with
        abortChans := s.abortChans.set c { ch with pending := false, taken := true } }.goto i w
          (.signalled c)) :
      Watched s s' i w .receive
  | sawClosed {c : Nat} {ch : AbortChan} (place : w.place = .selecting c)
      (chan : s.abortChans[c]? = some ch) (closed : 0 < ch.closes)
      (eq : s' = s.goto i w .aborting) : Watched s s' i w .receive
  | stopped {c : Nat} (place : w.place = .selecting c) (eq : s' = s.goto i w .leaving) :
      Watched s s' i w .stop
  | closed {c : Nat} (place : w.place = .signalled c) (eq : s' = s.close i w) :
      Watched s s' i w .close
  | aborted (place : w.place = .aborting) (eq : s' = s.goto i w .leaving) : Watched s s' i w .abort
  | left (place : w.place = .leaving) (eq : s' = s.leave i w) : Watched s s' i w .leave

variable {e : WatcherStep} {c : Nat} {s : Stops}

theorem watch_cases {s s' : Signals} {readable : Nat → Bool} {i : Nat} {w : Watcher}
    (h : s.watch readable i w e = some s') : Watched s s' i w e := by
  cases e with
  | register =>
    obtain ⟨hplace, ⟨⟩⟩ := Option.ite_none_right_eq_some.mp h
    exact .register hplace rfl
  | receive =>
    unfold Signals.watch at h
    cases hplace : w.place with
    | selecting c =>
      simp only [hplace] at h
      obtain ⟨ch, hch, h⟩ := Option.bind_eq_some_iff.mp h
      split_ifs at h with hpending hclosed
      · exact .received hplace hch hpending (Option.some.inj h).symm
      · exact .sawClosed hplace hch hclosed (Option.some.inj h).symm
    | starting | signalled | aborting | leaving | ended => simp [hplace] at h
  | stop =>
    unfold Signals.watch at h
    cases hplace : w.place with
    | selecting c =>
      simp only [hplace] at h
      obtain ⟨-, ⟨⟩⟩ := Option.ite_none_right_eq_some.mp h
      exact .stopped hplace rfl
    | starting | signalled | aborting | leaving | ended => simp [hplace] at h
  | close =>
    unfold Signals.watch at h
    cases hplace : w.place with
    | signalled c =>
      simp only [hplace, Option.some.injEq] at h
      exact .closed hplace h.symm
    | starting | selecting | aborting | leaving | ended => simp [hplace] at h
  | abort =>
    obtain ⟨hplace, ⟨⟩⟩ := Option.ite_none_right_eq_some.mp h
    exact .aborted hplace rfl
  | leave =>
    obtain ⟨hplace, ⟨⟩⟩ := Option.ite_none_right_eq_some.mp h
    exact .left hplace rfl

/-! ### Counting how often a channel is closed -/

/-- One more for an entry that was zero. -/
theorem le_one_of_mem_modify {l : List Nat} (hle : ∀ n ∈ l, n ≤ 1) (hzero : l[c]? = some 0)
    {n : Nat} (hn : n ∈ l.modify c (· + 1)) : n ≤ 1 := by
  obtain ⟨j, hj⟩ := List.mem_iff_getElem?.mp hn
  rw [List.getElem?_modify] at hj
  by_cases hcj : c = j
  · subst hcj
    rw [hzero] at hj
    obtain rfl : 1 = n := by simpa using hj
    exact le_rfl
  · simp only [hcj, if_false, Option.map_eq_map, Option.map_id_fun', id_eq] at hj
    exact hle n (List.mem_of_getElem? hj)

theorem map_modify {α β : Type} {f : α → α} {p : α → β} {q : β → β} (h : ∀ a, p (f a) = q (p a))
    (l : List α) (c : Nat) : (l.modify c f).map p = (l.map p).modify c q := by
  refine List.ext_getElem? fun j => ?_
  by_cases hcj : c = j <;> simp [hcj, Function.comp_def, h]

theorem map_set_of_eq {α β : Type} {p : α → β} {l : List α} {a b : α} (ha : l[c]? = some a)
    (hb : p b = p a) : (l.set c b).map p = l.map p := by
  refine List.ext_getElem? fun j => ?_
  rw [List.getElem?_map, List.getElem?_map, List.getElem?_set]
  split_ifs with hcj hlt
  · rw [← hcj, ha, Option.map_some, Option.map_some, hb]
  · rw [← hcj, List.getElem?_eq_none (Nat.not_lt.mp hlt)]
  · rfl

/-- The number of entries with a property when one entry is replaced. -/
theorem countP_set_add {α : Type} {p : α → Bool} {l : List α} {i : Nat} {a : α} (b : α)
    (h : l[i]? = some a) :
    (l.set i b).countP p + (if p a then 1 else 0) = l.countP p + if p b then 1 else 0 := by
  induction l generalizing i with
  | nil => simp at h
  | cons x l ih =>
    cases i with
    | zero =>
      obtain rfl : x = a := by simpa using h
      simp only [List.set_cons_zero, List.countP_cons]
      omega
    | succ i =>
      have := ih (by simpa using h)
      simp only [List.set_cons_succ, List.countP_cons]
      omega

/-! ### Stop channels -/

/-- An aborter that has a stop channel has the one that was made with it, and it is open. -/
structure StopsInv (s : Stops) : Prop where
  length_eq : s.aborters.length = s.stopChans.length
  holds : ∀ a c : Nat, s.aborters[a]? = some (some c) → c = a ∧ s.stopChans[c]? = some 0
  closes : ∀ n ∈ s.stopChans, n ≤ 1

namespace StopsInv

theorem newAborter (h : StopsInv s) : StopsInv s.newAborter where
  length_eq := by simp [Stops.newAborter, h.length_eq]
  holds := by
    intro a c hac
    unfold Stops.newAborter at hac ⊢
    rcases Nat.lt_or_ge a s.aborters.length with hlt | hge
    · rw [List.getElem?_append_left hlt] at hac
      obtain ⟨rfl, hopen⟩ := h.holds a c hac
      rw [List.getElem?_append_left (h.length_eq ▸ hlt)]
      exact ⟨rfl, hopen⟩
    · rw [List.getElem?_append_right hge] at hac
      have hzero : a - s.aborters.length = 0 := by
        have := (List.getElem?_eq_some_iff.mp hac).1
        simp at this
        omega
      rw [hzero] at hac
      obtain rfl : s.stopChans.length = c := by simpa using hac
      have := h.length_eq
      exact ⟨by omega, by simp⟩
  closes := by
    intro n hn
    rcases List.mem_append.mp hn with hn | hn
    · exact h.closes n hn
    · simp [List.mem_singleton.mp hn]

/-- The channel is open before `Abort`, and no aborter has it afterwards. -/
theorem abortAborter (h : StopsInv s) (a : Nat) : StopsInv (s.abortAborter a) := by
  unfold Stops.abortAborter
  split
  case h_2 => exact h
  case h_1 c hac =>
    obtain ⟨rfl, hopen⟩ := h.holds a c hac
    refine ⟨by simp [h.length_eq], ?_, ?_⟩
    · intro b d hbd
      have hne : c ≠ b := by
        rintro rfl
        simp [List.getElem?_set] at hbd
      rw [List.getElem?_set_ne hne] at hbd
      obtain ⟨rfl, hopen'⟩ := h.holds b d hbd
      exact ⟨rfl, by simpa [List.getElem?_modify, hne] using hopen'⟩
    · exact fun n hn => le_one_of_mem_modify h.closes hopen hn

theorem step {s' : Stops} (h : StopsInv s) (he : StopsEffect s s') : StopsInv s' := by
  cases he with
  | options os eq =>
    subst eq
    exact ⟨h.length_eq, h.holds, h.closes⟩
  | new os eq =>
    subst eq
    exact newAborter ⟨h.length_eq, h.holds, h.closes⟩
  | abort a eq =>
    subst eq
    exact h.abortAborter a

end StopsInv

/-- An aborter of the system, as the model of one run has it. -/
def Stops.view (s : Stops) (a : Nat) : Periodic.Aborter where
  stopChan := (s.aborters[a]?.bind id).isSome
  closed := s.readable a

/-- `Abort` is the `Abort` of one run on its aborter, and leaves the others as they are. -/
theorem view_abort (h : StopsInv s) (a b : Nat) :
    (s.abortAborter a).view b = if a = b then (s.view b).abort else s.view b := by
  unfold Stops.abortAborter
  split
  case h_1 c hac =>
    obtain ⟨rfl, hopen⟩ := h.holds a c hac
    by_cases hcb : c = b
    · subst hcb
      have hset : (s.aborters.set c none)[c]? = some none := by
        rw [List.getElem?_set_self (List.getElem?_eq_some_iff.mp hac).1]
      have hclosed : (s.stopChans.modify c (· + 1))[c]? = some 1 := by
        rw [List.getElem?_modify, hopen]
        simp
      simp [Stops.view, Stops.readable, Periodic.Aborter.abort, hac, hset, hclosed]
    · simp [Stops.view, Stops.readable, hcb, List.getElem?_set_ne]
  case h_2 hno =>
    -- An aborter that was used has no channel any more, and `Abort` does nothing.
    have hnone : (s.view a).stopChan = false := by
      cases hac : s.aborters[a]? with
      | none => simp [Stops.view, hac]
      | some stop =>
        cases stop with
        | none => simp [Stops.view, hac]
        | some c => exact absurd hac (hno c)
    split_ifs with hab
    · subst hab
      simp [Periodic.Aborter.abort, hnone]
    · rfl

/-! ### Watchers -/

/-- How often each channel of signals was closed. -/
def Signals.closesOf (s : Signals) : List Nat := s.abortChans.map AbortChan.closes

/-- `gAbortChan` is `nil` or open, and `gOutstandingRuns` is the number of the active watchers. -/
structure SignalsInv (s : Signals) : Prop where
  current : ∀ g, s.gAbortChan = some g → s.closesOf[g]? = some 0
  closes : ∀ n ∈ s.closesOf, n ≤ 1
  outstanding : s.gOutstandingRuns = s.watchers.countP Watcher.active

section
variable {s s' : Signals} {i : Nat} {w : Watcher}

/-- What a move of one watcher does to the number of the active ones. -/
theorem countP_goto (hw : s.watchers[i]? = some w) (place : Place) :
    ((s.goto i w place).watchers.countP Watcher.active : Int)
        + (if w.active then 1 else 0)
      = s.watchers.countP Watcher.active
        + if ({ w with place := place } : Watcher).active then 1 else 0 := by
  have := countP_set_add (p := Watcher.active) { w with place := place } hw
  unfold Signals.goto
  dsimp only
  split_ifs at this ⊢ <;> omega

namespace SignalsInv

section
variable (h : SignalsInv s)
include h

/-- A watcher that stays active. -/
theorem goto (hw : s.watchers[i]? = some w) {place : Place}
    (hactive : ({ w with place := place } : Watcher).active = w.active) :
    SignalsInv (s.goto i w place) where
  current := h.current
  closes := h.closes
  outstanding := by
    have hcount := countP_goto hw place
    rw [hactive] at hcount
    have := h.outstanding
    change s.gOutstandingRuns = _
    omega

theorem register (hw : s.watchers[i]? = some w) (hplace : w.place = .starting) :
    SignalsInv (s.register i w) := by
  have hcount : ∀ c, s.gOutstandingRuns + 1
      = ((s.watchers.set i { w with place := .selecting c }).countP Watcher.active : Int) := by
    intro c
    have hmove : ((s.goto i w (.selecting c)).watchers.countP Watcher.active : Int)
        = s.watchers.countP Watcher.active + 1 := by
      simpa [Watcher.active, hplace] using countP_goto hw (.selecting c)
    rw [h.outstanding, ← hmove]
    rfl
  cases hg : s.gAbortChan with
  | some g =>
    rw [register_of_some hg]
    exact ⟨hg ▸ h.current, h.closes, hcount g⟩
  | none =>
    rw [register_of_none hg]
    refine ⟨?_, ?_, hcount _⟩
    · intro g heq
      obtain rfl : s.abortChans.length = g := Option.some.inj heq
      simp [Signals.closesOf]
    · intro n hn
      rw [Signals.closesOf, List.map_append] at hn
      rcases List.mem_append.mp hn with hn | hn
      · exact h.closes n hn
      · simp [List.mem_singleton.mp hn]

/-- A step on the channels that closes none, before a watcher moves. -/
theorem of_closesOf {chans : List AbortChan} (hsame : chans.map AbortChan.closes = s.closesOf) :
    SignalsInv { s with abortChans := chans } where
  current := fun g hg => (congrArg (·[g]?) hsame).trans (h.current g hg)
  closes := fun n hn => h.closes n (hsame ▸ hn)
  outstanding := h.outstanding

/-- The channel was open before, and it is not in `gAbortChan` afterwards. -/
theorem close (hw : s.watchers[i]? = some w) (hplace : w.place = .signalled c) :
    SignalsInv (s.close i w) := by
  have hactive : ({ w with place := .aborting } : Watcher).active = w.active := by
    simp [Watcher.active, hplace]
  cases hg : s.gAbortChan with
  | none =>
    rw [close_of_none hg]
    exact h.goto hw hactive
  | some g =>
    have hchans : (s.abortChans.modify g fun ch => { ch with closes := ch.closes + 1 }).map
        AbortChan.closes = s.closesOf.modify g (· + 1) :=
      map_modify (p := AbortChan.closes) (fun _ => rfl) s.abortChans g
    rw [close_of_some hg]
    refine ⟨nofun, ?_, (h.goto hw hactive).outstanding⟩
    intro n hn
    exact le_one_of_mem_modify h.closes (h.current g hg) (hchans ▸ hn)

/-- The handler is reset by the last watcher. -/
theorem leave (hw : s.watchers[i]? = some w) (hplace : w.place = .leaving) :
    SignalsInv (s.leave i w) := by
  have hcount : ((s.goto i w .ended).watchers.countP Watcher.active : Int) + 1
      = s.watchers.countP Watcher.active := by
    have hmove := countP_goto hw .ended
    simpa [Watcher.active, hplace] using hmove
  have houtstanding : s.gOutstandingRuns - 1
      = ((s.goto i w .ended).watchers.countP Watcher.active : Int) := by
    have := h.outstanding
    omega
  by_cases hlast : s.gOutstandingRuns - 1 = 0
  · rw [leave_of_last hlast]
    refine ⟨nofun, ?_, houtstanding⟩
    intro n hn
    refine h.closes n ?_
    simpa [Signals.closesOf, Function.comp_def] using hn
  · rw [leave_of_others hlast]
    exact ⟨h.current, h.closes, houtstanding⟩

theorem watch (hw : s.watchers[i]? = some w) (he : Watched s s' i w e) : SignalsInv s' := by
  cases he with
  | register place eq =>
    subst eq
    exact h.register hw place
  | @received c ch place chan pending eq =>
    subst eq
    have hsame := map_set_of_eq (p := AbortChan.closes) chan
      (b := { ch with pending := false, taken := true }) rfl
    exact (h.of_closesOf hsame).goto hw (by simp [Watcher.active, place])
  | sawClosed place chan closed eq =>
    subst eq
    exact h.goto hw (by simp [Watcher.active, place])
  | stopped place eq =>
    subst eq
    exact h.goto hw (by simp [Watcher.active, place])
  | closed place eq =>
    subst eq
    exact h.close hw place
  | aborted place eq =>
    subst eq
    exact h.goto hw (by simp [Watcher.active, place])
  | left place eq =>
    subst eq
    exact h.leave hw place

theorem step {a : Action} (he : SignalsEffect s s' a) : SignalsInv s' := by
  cases he with
  | same eq =>
    subst eq
    exact h
  | started w place eq =>
    subst eq
    refine ⟨h.current, h.closes, ?_⟩
    simpa [Watcher.active, place] using h.outstanding
  | watched readable w mem eq => exact h.watch mem (watch_cases eq)
  | interrupted eq =>
    subst eq
    have hchans : SignalsInv { s with abortChans := s.interrupt.abortChans } :=
      h.of_closesOf (by simp [Signals.interrupt, Signals.closesOf, Function.comp_def])
    refine ⟨hchans.current, hchans.closes, ?_⟩
    rw [Signals.interrupt, List.countP_map]
    exact h.outstanding

end

end SignalsInv

end

section
variable {ok : System → Action → Bool} {s : System}

theorem stopsInv_of_reachable (h : Reachable System.step ok .start s) : StopsInv s.stops :=
  h.inv (fun s => StopsInv s.stops)
    ⟨rfl, by simp [System.start], by simp [System.start]⟩
    fun _ _ _ hinv _ heq => hinv.step (step_cases heq).1

theorem signalsInv_of_reachable (h : Reachable System.step ok .start s) : SignalsInv s.signals :=
  h.inv (fun s => SignalsInv s.signals)
    ⟨by simp [System.start], by simp [System.start, Signals.closesOf], rfl⟩
    fun _ _ _ hinv _ heq => hinv.step (step_cases heq).2.1

end

/-- The parties act in any order. -/
def anyStep (_ : System) (_ : Action) : Bool := true

/-- No channel is closed twice, and `gOutstandingRuns` counts the watchers between their
registration and their deregistration, in every state that the system reaches. -/
theorem closed_at_most_once {s : System} (h : Reachable System.step anyStep .start s) :
    (∀ n ∈ s.stops.stopChans, n ≤ 1) ∧ (∀ ch ∈ s.signals.abortChans, ch.closes ≤ 1) ∧
      s.signals.gOutstandingRuns = s.signals.watchers.countP Watcher.active := by
  have hsignals := signalsInv_of_reachable h
  refine ⟨(stopsInv_of_reachable h).closes, fun ch hch => ?_, hsignals.outstanding⟩
  exact hsignals.closes _ (List.mem_map_of_mem hch)

/-- A run that is interrupted, and aborted by three parties. -/
theorem closed_at_most_once_interrupted :
    ∃ s, Reachable System.step anyStep .start s ∧ s.signals.abortChans.map AbortChan.closes = [1] ∧
      ∀ n ∈ s.stops.stopChans, n ≤ 1 := by
  obtain ⟨s, hs, hcloses⟩ := exists_reachable System.step anyStep .start
    [.newOptions, .newPeriodicRunner 0, .startRun 1, .watch 0 .register, .interrupt,
      .watch 0 .receive, .watch 0 .close, .watch 0 .abort, .abortOn 0, .endRun 0, .abort 1,
      .watch 0 .leave]
    (p := fun s => s.signals.abortChans.map AbortChan.closes == [1]) (by decide)
  exact ⟨s, hs, by simpa using hcloses, (closed_at_most_once hs).1⟩

end IstioVendor.Periodic.Watch
