import IstioVendor.Proofs.Periodic.Watchers

/-!
# `IstioVendor.Proofs.Periodic.Interrupts`: interrupts that come at a bad time

A watcher that has received an interrupt closes `gAbortChan`, and the channel stays registered
until the last watcher resets the handler. An interrupt in between is sent on a closed channel,
and the process panics (`sent_on_closed`). `never_panics` is what holds: there is no panic when no
interrupt comes after a watcher has received one and before the reset.

The watcher closes the channel that is in `gAbortChan` when it has the lock. This need not be the
one it has received from. It can be the one of a run that started after the interrupt, and then
the interrupt aborts this run (`aborted_without_interrupt`). `aborting_interrupted` is what
holds: every watcher that goes to `r.Abort()` was registered at an interrupt, when no watcher
registers while an interrupt is under way.
-/

set_option autoImplicit false

namespace IstioVendor.Periodic.Watch

open Lib

/-! ### No send on a closed channel -/

/-- The condition on an interrupt: no signal was received from a registered channel. -/
def settledStep (s : System) : Action → Bool
  | .interrupt => s.signals.abortChans.all fun ch => !(ch.registered && ch.taken)
  | _ => true

/-- The channel a watcher has is registered, and at `signalled` a signal was received from it. -/
def Listens (chans : List AbortChan) : Place → Prop
  | .selecting c => ∃ ch, chans[c]? = some ch ∧ ch.registered = true
  | .signalled c => ∃ ch, chans[c]? = some ch ∧ ch.registered = true ∧ ch.taken = true
  | _ => True

/-- The channels stay registered, and what was received stays so. -/
def Keeps (chans chans' : List AbortChan) : Prop :=
  ∀ (c : Nat) (ch : AbortChan), chans[c]? = some ch → ∃ ch', chans'[c]? = some ch' ∧
    (ch.registered = true → ch'.registered = true) ∧ (ch.taken = true → ch'.taken = true)

variable {chans chans' : List AbortChan} {place : Place} {c : Nat} {ch : AbortChan}
  {e : WatcherStep} {s : System}

theorem Listens.mono (h : Listens chans place) (hk : Keeps chans chans') :
    Listens chans' place := by
  cases place with
  | selecting c =>
    obtain ⟨ch, hch, hreg⟩ := h
    obtain ⟨ch', hch', hreg', -⟩ := hk c ch hch
    exact ⟨ch', hch', hreg' hreg⟩
  | signalled c =>
    obtain ⟨ch, hch, hreg, htaken⟩ := h
    obtain ⟨ch', hch', hreg', htaken'⟩ := hk c ch hch
    exact ⟨ch', hch', hreg' hreg, htaken' htaken⟩
  | starting | aborting | leaving | ended => trivial

theorem Keeps.refl (chans : List AbortChan) : Keeps chans chans :=
  fun _ ch hch => ⟨ch, hch, id, id⟩

theorem Keeps.append (chans : List AbortChan) (fresh : AbortChan) :
    Keeps chans (chans ++ [fresh]) := by
  intro c ch hch
  have hlt := (List.getElem?_eq_some_iff.mp hch).1
  exact ⟨ch, (List.getElem?_append_left hlt).trans hch, id, id⟩

theorem Keeps.map {f : AbortChan → AbortChan} (hreg : ∀ ch, (f ch).registered = ch.registered)
    (htaken : ∀ ch, (f ch).taken = ch.taken) : Keeps chans (chans.map f) := by
  intro c ch hch
  exact ⟨f ch, by rw [List.getElem?_map, hch]; rfl, (hreg ch).trans, (htaken ch).trans⟩

theorem Keeps.close (chans : List AbortChan) (g : Nat) :
    Keeps chans (chans.modify g fun ch => { ch with closes := ch.closes + 1 }) := by
  intro c ch hch
  rw [List.getElem?_modify, hch]
  by_cases hgc : g = c
  · exact ⟨{ ch with closes := ch.closes + 1 }, by simp [hgc], id, id⟩
  · exact ⟨ch, by simp [hgc], id, id⟩

theorem Keeps.take (hch : chans[c]? = some ch) :
    Keeps chans (chans.set c { ch with pending := false, taken := true }) := by
  intro c' ch' hch'
  by_cases hcc : c = c'
  · subst hcc
    cases hch.symm.trans hch'
    have hlt := (List.getElem?_eq_some_iff.mp hch).1
    exact ⟨_, List.getElem?_set_self hlt, id, fun _ => rfl⟩
  · exact ⟨ch', (List.getElem?_set_ne hcc).trans hch', id, id⟩

/-- A signal was received from a registered channel. -/
def Received (chans : List AbortChan) : Prop :=
  ∃ (c : Nat) (ch : AbortChan), chans[c]? = some ch ∧ ch.registered = true ∧ ch.taken = true

theorem Received.mono (h : Received chans) (hk : Keeps chans chans') : Received chans' := by
  obtain ⟨c, ch, hch, hreg, htaken⟩ := h
  obtain ⟨ch', hch', hreg', htaken'⟩ := hk c ch hch
  exact ⟨c, ch', hch', hreg' hreg, htaken' htaken⟩

/-- A registered channel is closed only after a signal was received from a registered one. -/
structure Announced (s : Signals) : Prop where
  current : ∀ g, s.gAbortChan = some g → Listens s.abortChans (.selecting g)
  listens : ∀ w ∈ s.watchers, Listens s.abortChans w.place
  closed : ∀ ch ∈ s.abortChans, ch.registered = true → 0 < ch.closes → Received s.abortChans

namespace Announced

variable {s s' : Signals} {i : Nat} {w : Watcher}

section
variable (h : Announced s)
include h

/-- A step of one watcher that keeps the channels registered. -/
theorem move {g' : Option Nat} {n : Int} {w' : Watcher} (hk : Keeps s.abortChans chans)
    (hcurrent : ∀ g, g' = some g → Listens chans (.selecting g)) (hplace : Listens chans w'.place)
    (hclosed : ∀ ch ∈ chans, ch.registered = true → 0 < ch.closes → Received chans) :
    Announced ⟨g', n, chans, s.watchers.set i w'⟩ where
  current := hcurrent
  listens := by
    intro v hv
    rcases List.mem_or_eq_of_mem_set hv with hmem | rfl
    · exact (h.listens v hmem).mono hk
    · exact hplace
  closed := hclosed

/-- A step of one watcher that leaves the channels as they are. -/
theorem goto (hplace : Listens s.abortChans place) : Announced (s.goto i w place) :=
  h.move (.refl _) h.current hplace h.closed

theorem register : Announced (s.register i w) := by
  cases hg : s.gAbortChan with
  | some g =>
    rw [register_of_some hg]
    exact h.move (.refl _) (hg ▸ h.current) (h.current g hg) h.closed
  | none =>
    rw [register_of_none hg]
    have hfresh : Listens (s.abortChans ++ [⟨false, 0, true, false⟩])
        (.selecting s.abortChans.length) := ⟨_, by simp; rfl, rfl⟩
    refine h.move (.append _ _) ?_ hfresh ?_
    · intro g heq
      cases heq
      exact hfresh
    · intro ch hch hreg hpos
      rcases List.mem_append.mp hch with hch | hch
      · exact (h.closed ch hch hreg hpos).mono (.append _ _)
      · rw [List.mem_singleton.mp hch] at hpos
        exact absurd hpos (lt_irrefl 0)

theorem received (hw : w ∈ s.watchers) (hplace : w.place = .selecting c)
    (hch : s.abortChans[c]? = some ch) :
    Announced ({ s with
      abortChans := s.abortChans.set c { ch with pending := false, taken := true } }.goto i w
        (.signalled c)) := by
  have hlistens : Listens s.abortChans (.selecting c) := hplace ▸ h.listens w hw
  obtain ⟨ch', hch', hreg⟩ := hlistens
  cases hch.symm.trans hch'
  have hset := List.getElem?_set_self (a := { ch with pending := false, taken := true })
    (List.getElem?_eq_some_iff.mp hch).1
  refine h.move (.take hch) ?_ ⟨_, hset, hreg, rfl⟩ ?_
  · exact fun g hg => (h.current g hg).mono (.take hch)
  · exact fun _ _ _ _ => ⟨c, _, hset, hreg, rfl⟩

theorem close (hw : w ∈ s.watchers) (hplace : w.place = .signalled c) :
    Announced (s.close i w) := by
  cases hg : s.gAbortChan with
  | none =>
    rw [close_of_none hg]
    exact h.goto trivial
  | some g =>
    have hlistens : Listens s.abortChans (.signalled c) := hplace ▸ h.listens w hw
    have hreceived : Received s.abortChans := ⟨c, hlistens⟩
    rw [close_of_some hg]
    refine h.move (.close _ g) nofun trivial ?_
    exact fun _ _ _ _ => hreceived.mono (.close _ g)

/-- When the last watcher leaves, no other one has a channel. -/
theorem leave (hi : SignalsInv s) (hw : s.watchers[i]? = some w) (hplace : w.place = .leaving) :
    Announced (s.leave i w) := by
  by_cases hlast : s.gOutstandingRuns - 1 = 0
  · have hleft := (hi.leave hw hplace).outstanding
    rw [leave_of_last hlast] at hleft ⊢
    have hnone : (s.watchers.set i { w with place := .ended }).countP Watcher.active = 0 := by
      exact_mod_cast hleft.symm.trans hlast
    refine ⟨nofun, ?_, ?_⟩
    · intro v hv
      have hinactive := List.countP_eq_zero.mp hnone v hv
      cases hv' : v.place with
      | starting | ended => trivial
      | selecting | signalled | aborting | leaving => simp [Watcher.active, hv'] at hinactive
    · intro ch hch hreg _
      obtain ⟨ch', -, rfl⟩ := List.mem_map.mp hch
      exact absurd hreg (by simp)
  · rw [leave_of_others hlast]
    exact h.move (.refl _) h.current trivial h.closed

theorem watch (hi : SignalsInv s) (hw : s.watchers[i]? = some w) (he : Watched s s' i w e) :
    Announced s' := by
  have hmem := List.mem_of_getElem? hw
  cases he with
  | register place eq =>
    subst eq
    exact h.register
  | received place chan pending eq =>
    subst eq
    exact h.received hmem place chan
  | sawClosed place chan closed eq =>
    subst eq
    exact h.goto trivial
  | stopped place eq =>
    subst eq
    exact h.goto trivial
  | closed place eq =>
    subst eq
    exact h.close hmem place
  | aborted place eq =>
    subst eq
    exact h.goto trivial
  | left place eq =>
    subst eq
    exact h.leave hi hw place

theorem step {a : Action} (hi : SignalsInv s) (he : SignalsEffect s s' a) : Announced s' := by
  cases he with
  | same eq =>
    subst eq
    exact h
  | started w place eq =>
    subst eq
    refine ⟨h.current, ?_, h.closed⟩
    intro v hv
    rcases List.mem_append.mp hv with hv | hv
    · exact h.listens v hv
    · rw [List.mem_singleton.mp hv, place]
      trivial
  | watched readable w mem eq => exact h.watch hi mem (watch_cases eq)
  | interrupted eq =>
    subst eq
    have hk : Keeps s.abortChans s.interrupt.abortChans := .map (fun _ => rfl) fun _ => rfl
    refine ⟨fun g hg => (h.current g hg).mono hk, ?_, ?_⟩
    · intro v hv
      obtain ⟨v', hv', rfl⟩ := List.mem_map.mp hv
      exact (h.listens v' hv').mono hk
    · intro ch hch hreg hpos
      obtain ⟨ch', hch', rfl⟩ := List.mem_map.mp hch
      exact (h.closed ch' hch' hreg hpos).mono hk

end

end Announced

theorem announced_of_reachable {ok : System → Action → Bool}
    (h : Reachable System.step ok .start s) : Announced s.signals := by
  have hboth : SignalsInv s.signals ∧ Announced s.signals := by
    refine h.inv (fun s => SignalsInv s.signals ∧ Announced s.signals)
      ⟨signalsInv_of_reachable (.init : Reachable System.step ok _ _), ?_⟩ ?_
    · exact ⟨nofun, by simp [System.start], by simp [System.start]⟩
    · intro s a s' hinv _ heq
      have he := (step_cases heq).2.1
      exact ⟨hinv.1.step he, hinv.2.step hinv.1 he⟩
  exact hboth.2

theorem not_closedRegistered (h : Announced s.signals)
    (hsettled : settledStep s .interrupt = true) : s.signals.closedRegistered = false := by
  rw [Signals.closedRegistered, List.any_eq_false]
  intro ch hch hclosed
  rw [Bool.and_eq_true, decide_eq_true_eq] at hclosed
  obtain ⟨c, ch', hch', hreg, htaken⟩ := h.closed ch hch hclosed.1 hclosed.2
  have hnot := List.all_eq_true.mp hsettled ch' (List.mem_of_getElem? hch')
  simp [hreg, htaken] at hnot

/-- No interrupt is sent on a closed channel, in every run in which no interrupt comes when a
signal was received from a channel that is still registered. -/
theorem never_panics {s : System} (h : Reachable System.step settledStep .start s) :
    s.panicked = false := by
  induction h with
  | init => rfl
  | step before cond eq ih =>
    rcases (step_cases eq).2.2 with hsame | ⟨rfl, hpanicked⟩
    · exact hsame.trans ih
    · rw [hpanicked, ih, not_closedRegistered (announced_of_reachable before) cond]
      rfl

/-- Two runs after each other, each one interrupted. -/
theorem never_panics_two_runs :
    ∃ s, Reachable System.step settledStep .start s ∧ s.signals.abortChans.length = 2 ∧
      s.panicked = false := by
  obtain ⟨s, hs, hlength⟩ := exists_reachable System.step settledStep .start
    [.newOptions, .normalize 0, .watch 0 .register, .interrupt, .watch 0 .receive,
      .watch 0 .close, .watch 0 .abort, .watch 0 .leave, .newOptions, .normalize 1,
      .watch 1 .register, .interrupt, .watch 1 .receive]
    (p := fun s => s.signals.abortChans.length == 2) (by decide)
  exact ⟨s, hs, by simpa using hlength, never_panics hs⟩

/-- Two interrupts of one run. The second one comes after the watcher has closed the channel and
before it has reset the handler. -/
theorem sent_on_closed : ∃ s, Reachable System.step anyStep .start s ∧ s.panicked = true :=
  exists_reachable System.step anyStep .start
    [.newOptions, .normalize 0, .watch 0 .register, .interrupt, .watch 0 .receive,
      .watch 0 .close, .interrupt]
    (by decide)

/-! ### Which runs an interrupt stops -/

/-- An interrupt is under way: a watcher has received it and not closed the channel yet, or it is
in the channel of a watcher. -/
def Signals.underWay (s : Signals) : Bool :=
  s.watchers.any fun w => match w.place with
    | .signalled _ => true
    | .selecting c => s.abortChans[c]?.any AbortChan.pending
    | _ => false

/-- No interrupt is under way, and there is none in `gAbortChan`. -/
def Signals.quiet (s : Signals) : Bool :=
  !s.underWay && s.gAbortChan.all fun g => s.abortChans[g]?.all fun ch => !ch.pending

/-- The condition on the registration of a watcher. -/
def quietStep (s : System) : Action → Bool
  | .watch _ .register => s.signals.quiet
  | _ => true

/-- A watcher that can see a signal, or has seen one, was registered at an interrupt. -/
def Warned (chans : List AbortChan) (w : Watcher) : Prop :=
  match w.place with
  | .selecting c =>
    ∀ ch, chans[c]? = some ch → ch.pending = true ∨ 0 < ch.closes → w.interrupted = true
  | .signalled _ | .aborting => w.interrupted = true
  | _ => True

/-- The channels change, and what the watcher can see in them it could see before. -/
theorem Warned.of_chans {w : Watcher} (h : Warned chans w)
    (hsee : ∀ (c : Nat) (ch' : AbortChan), w.place = .selecting c → chans'[c]? = some ch' →
      ch'.pending = true ∨ 0 < ch'.closes → w.interrupted = true ∨
        ∃ ch, chans[c]? = some ch ∧ (ch.pending = true ∨ 0 < ch.closes)) : Warned chans' w := by
  unfold Warned at h ⊢
  cases hplace : w.place with
  | selecting c =>
    simp only [hplace] at h ⊢
    intro ch' hch' hseen
    rcases hsee c ch' hplace hch' hseen with hint | ⟨ch, hch, hbefore⟩
    · exact hint
    · exact h ch hch hbefore
  | signalled | aborting => simpa [hplace] using h
  | starting | leaving | ended => trivial

/-- While an interrupt is under way, the watchers that wait on `gAbortChan` were registered when
it came. -/
structure Addressed (s : Signals) : Prop where
  warned : ∀ w ∈ s.watchers, Warned s.abortChans w
  spreading : s.underWay = true → ∀ g, s.gAbortChan = some g →
    ∀ w ∈ s.watchers, w.place = .selecting g → w.interrupted = true

section
variable {s s' : Signals} {i : Nat} {w : Watcher}

theorem underWay_iff : s.underWay = true ↔ ∃ w ∈ s.watchers, (∃ c, w.place = .signalled c) ∨
    ∃ (c : Nat) (ch : AbortChan), w.place = .selecting c ∧ s.abortChans[c]? = some ch ∧
      ch.pending = true := by
  rw [Signals.underWay, List.any_eq_true]
  refine exists_congr fun w => and_congr_right fun _ => ?_
  cases w.place with
  | signalled c => simp
  | selecting c => simp [Option.any_eq_true]
  | starting | aborting | leaving | ended => simp

namespace Addressed

section
variable (h : Addressed s)
include h

/-- A watcher goes to a place where it waits for nothing. -/
theorem goto (hplace : place = .aborting → w.interrupted = true)
    (hout : place = .aborting ∨ place = .leaving ∨ place = .ended) :
    Addressed (s.goto i w place) := by
  have hselecting : ∀ c, place ≠ .selecting c := by
    rcases hout with rfl | rfl | rfl <;> simp
  have hsignalled : ∀ c, place ≠ .signalled c := by
    rcases hout with rfl | rfl | rfl <;> simp
  constructor
  · intro v hv
    rcases List.mem_or_eq_of_mem_set hv with hmem | rfl
    · exact h.warned v hmem
    · rcases hout with rfl | rfl | rfl
      · exact hplace rfl
      · trivial
      · trivial
  · intro hway g hg v hv hvg
    have hbefore : s.underWay = true := by
      obtain ⟨u, hu, hcase⟩ := underWay_iff.mp hway
      rcases List.mem_or_eq_of_mem_set hu with hmem | rfl
      · exact underWay_iff.mpr ⟨u, hmem, hcase⟩
      · rcases hcase with ⟨c, hc⟩ | ⟨c, ch, hc, -⟩
        · exact absurd hc (hsignalled c)
        · exact absurd hc (hselecting c)
    rcases List.mem_or_eq_of_mem_set hv with hmem | rfl
    · exact h.spreading hbefore g hg v hmem hvg
    · exact absurd hvg (hselecting g)

/-- A watcher begins to wait on a channel without a signal while nothing is under way. -/
theorem wait (hquiet : s.underWay = false) {n : Int} {g : Nat}
    (hnew : ∀ (c : Nat) (ch : AbortChan), chans[c]? = some ch →
      s.abortChans[c]? = some ch ∨ ch.pending = false ∧ ch.closes = 0)
    (hopen : ∀ ch, chans[g]? = some ch → ch.pending = false ∧ ch.closes = 0) :
    Addressed ⟨some g, n, chans, s.watchers.set i { w with place := .selecting g }⟩ := by
  constructor
  · intro v hv
    rcases List.mem_or_eq_of_mem_set hv with hmem | rfl
    · refine (h.warned v hmem).of_chans fun c ch _ hch hseen => ?_
      rcases hnew c ch hch with hold | ⟨hpending, hcloses⟩
      · exact .inr ⟨ch, hold, hseen⟩
      · simp [hpending, hcloses] at hseen
    · intro ch hch hseen
      obtain ⟨hpending, hcloses⟩ := hopen ch hch
      simp [hpending, hcloses] at hseen
  · intro hway
    refine absurd hway (Bool.eq_false_iff.mp ?_)
    rw [Bool.eq_false_iff] at hquiet ⊢
    intro hway
    -- A signal that is under way afterwards was under way before: the new channel has none.
    obtain ⟨u, hu, hcase⟩ := underWay_iff.mp hway
    rcases List.mem_or_eq_of_mem_set hu with hmem | rfl
    · refine hquiet (underWay_iff.mpr ⟨u, hmem, hcase.imp_right ?_⟩)
      rintro ⟨c, ch, hc, hch, hpending⟩
      rcases hnew c ch hch with hold | ⟨hnot, -⟩
      · exact ⟨c, ch, hc, hold, hpending⟩
      · simp [hpending] at hnot
    · rcases hcase with ⟨c, hc⟩ | ⟨c, ch, hc, hch, hpending⟩
      · exact Place.noConfusion hc
      · cases hc
        exact absurd (hopen ch hch).1 (by simp [hpending])

theorem register (hi : SignalsInv s) (hquiet : s.quiet = true) : Addressed (s.register i w) := by
  rw [Signals.quiet, Bool.and_eq_true, Bool.not_eq_true'] at hquiet
  cases hg : s.gAbortChan with
  | some g =>
    rw [register_of_some hg]
    refine h.wait hquiet.1 (fun c ch hch => .inl hch) fun ch hch => ?_
    have hpending := hquiet.2
    have hcloses := hi.current g hg
    rw [hg, Option.all_some, hch, Option.all_some] at hpending
    rw [Signals.closesOf, List.getElem?_map, hch] at hcloses
    exact ⟨by simpa using hpending, by simpa using hcloses⟩
  | none =>
    rw [register_of_none hg]
    refine h.wait hquiet.1 (fun c ch hch => ?_) fun ch hch => ?_
    · rcases Nat.lt_or_ge c s.abortChans.length with hlt | hge
      · exact .inl (List.getElem?_append_left hlt ▸ hch)
      · rw [List.getElem?_append_right hge] at hch
        have hmem := List.mem_of_getElem? hch
        rw [List.mem_singleton.mp hmem]
        exact .inr ⟨rfl, rfl⟩
    · rw [List.getElem?_concat_length] at hch
      cases hch
      exact ⟨rfl, rfl⟩

theorem received (hw : w ∈ s.watchers) (hplace : w.place = .selecting c)
    (hch : s.abortChans[c]? = some ch) (hpending : ch.pending = true) :
    Addressed ({ s with
      abortChans := s.abortChans.set c { ch with pending := false, taken := true } }.goto i w
        (.signalled c)) := by
  have hway : s.underWay = true := underWay_iff.mpr ⟨w, hw, .inr ⟨c, ch, hplace, hch, hpending⟩⟩
  have hinterrupted : w.interrupted = true := by
    have hwarned := h.warned w hw
    simp only [Warned, hplace] at hwarned
    exact hwarned ch hch (.inl hpending)
  constructor
  · intro v hv
    rcases List.mem_or_eq_of_mem_set hv with hmem | rfl
    · refine (h.warned v hmem).of_chans fun d ch' _ hch' hseen => .inr ?_
      by_cases hcd : c = d
      · exact ⟨ch, hcd ▸ hch, .inl hpending⟩
      · exact ⟨ch', (List.getElem?_set_ne hcd).symm.trans hch', hseen⟩
    · exact hinterrupted
  · intro _ g hg v hv hvg
    rcases List.mem_or_eq_of_mem_set hv with hmem | rfl
    · exact h.spreading hway g hg v hmem hvg
    · exact Place.noConfusion hvg

theorem close (hw : w ∈ s.watchers) (hplace : w.place = .signalled c) :
    Addressed (s.close i w) := by
  have hinterrupted : w.interrupted = true := by
    have hwarned := h.warned w hw
    simpa only [Warned, hplace] using hwarned
  cases hg : s.gAbortChan with
  | none =>
    rw [close_of_none hg]
    exact h.goto (fun _ => hinterrupted) (.inl rfl)
  | some g =>
    have hway : s.underWay = true := underWay_iff.mpr ⟨w, hw, .inl ⟨c, hplace⟩⟩
    rw [close_of_some hg]
    refine ⟨?_, nofun⟩
    intro v hv
    rcases List.mem_or_eq_of_mem_set hv with hmem | rfl
    · refine (h.warned v hmem).of_chans fun d ch hvd hch hseen => ?_
      by_cases hgd : g = d
      · exact .inl (h.spreading hway g hg v hmem (hgd ▸ hvd))
      · rw [List.getElem?_modify] at hch
        exact .inr ⟨ch, by simpa [hgd] using hch, hseen⟩
    · exact hinterrupted

theorem leave : Addressed (s.leave i w) := by
  have hended : Addressed (s.goto i w .ended) := h.goto nofun (.inr (.inr rfl))
  by_cases hlast : s.gOutstandingRuns - 1 = 0
  · rw [leave_of_last hlast]
    refine ⟨fun v hv => ?_, nofun⟩
    refine (hended.warned v hv).of_chans fun c ch' _ hch' hseen => .inr ?_
    rw [List.getElem?_map] at hch'
    obtain ⟨ch, hch, rfl⟩ := Option.map_eq_some_iff.mp hch'
    exact ⟨ch, hch, hseen⟩
  · rw [leave_of_others hlast]
    exact ⟨hended.warned, hended.spreading⟩

theorem watch (hi : SignalsInv s) (hquiet : e = .register → s.quiet = true)
    (hw : s.watchers[i]? = some w) (he : Watched s s' i w e) : Addressed s' := by
  have hmem := List.mem_of_getElem? hw
  have hwarned := h.warned w hmem
  cases he with
  | register place eq =>
    subst eq
    exact h.register hi (hquiet rfl)
  | received place chan pending eq =>
    subst eq
    exact h.received hmem place chan pending
  | sawClosed place chan closed eq =>
    subst eq
    simp only [Warned, place] at hwarned
    exact h.goto (fun _ => hwarned _ chan (.inr closed)) (.inl rfl)
  | stopped place eq =>
    subst eq
    exact h.goto nofun (.inr (.inl rfl))
  | closed place eq =>
    subst eq
    exact h.close hmem place
  | aborted place eq =>
    subst eq
    exact h.goto nofun (.inr (.inl rfl))
  | left place eq =>
    subst eq
    exact h.leave

end

theorem interrupt (s : Signals) : Addressed s.interrupt := by
  have hall : ∀ v ∈ s.interrupt.watchers, v.active = true → v.interrupted = true := by
    intro v hv hactive
    obtain ⟨v', -, rfl⟩ := List.mem_map.mp hv
    have hactive' : v'.active = true := hactive
    simp [hactive']
  constructor
  · intro v hv
    unfold Warned
    cases hplace : v.place with
    | selecting c => exact fun _ _ _ => hall v hv (by simp [Watcher.active, hplace])
    | signalled | aborting => exact hall v hv (by simp [Watcher.active, hplace])
    | starting | leaving | ended => trivial
  · intro _ g _ v hv hplace
    exact hall v hv (by simp [Watcher.active, hplace])

theorem started (h : Addressed s) (hplace : w.place = .starting) :
    Addressed { s with watchers := s.watchers ++ [w] } := by
  constructor
  · intro v hv
    rcases List.mem_append.mp hv with hv | hv
    · exact h.warned v hv
    · rw [List.mem_singleton.mp hv, Warned, hplace]
      trivial
  · intro hway g hg v hv hvg
    have hbefore : s.underWay = true := by
      simpa [Signals.underWay, hplace] using hway
    rcases List.mem_append.mp hv with hv | hv
    · exact h.spreading hbefore g hg v hv hvg
    · rw [List.mem_singleton.mp hv, hplace] at hvg
      exact Place.noConfusion hvg

end Addressed

end

theorem addressed_of_reachable (h : Reachable System.step quietStep .start s) :
    Addressed s.signals := by
  induction h with
  | init => exact ⟨by simp [System.start], nofun⟩
  | step before cond hstep ih =>
    have hi := signalsInv_of_reachable before
    cases (step_cases hstep).2.1 with
    | same eq => exact eq ▸ ih
    | started w place eq => exact eq ▸ ih.started place
    | watched readable w mem eq =>
      refine ih.watch hi ?_ mem (watch_cases eq)
      rintro rfl
      exact cond
    | interrupted eq => exact eq ▸ .interrupt _

/-- A watcher goes to `r.Abort()` through the branch of `abortChan` only when there was an
interrupt after its registration, in every run in which no watcher registers while an interrupt
is under way. -/
theorem aborting_interrupted {s : System} (h : Reachable System.step quietStep .start s) :
    ∀ w ∈ s.signals.watchers, w.place = .aborting → w.interrupted = true := by
  intro w hw hplace
  have hwarned := (addressed_of_reachable h).warned w hw
  simpa only [Warned, hplace] using hwarned

/-- Two runs that start together, and are interrupted. -/
theorem aborting_interrupted_two_runs :
    ∃ s, Reachable System.step quietStep .start s ∧
      (s.signals.watchers.filter (·.place = .aborting)).length = 2 ∧
      ∀ w ∈ s.signals.watchers, w.place = .aborting → w.interrupted = true := by
  obtain ⟨s, hs, hlength⟩ := exists_reachable System.step quietStep .start
    [.newOptions, .normalize 0, .newOptions, .normalize 1, .watch 0 .register,
      .watch 1 .register, .interrupt, .watch 1 .receive, .watch 1 .close, .watch 0 .receive]
    (p := fun s => (s.signals.watchers.filter (·.place = .aborting)).length == 2) (by decide)
  exact ⟨s, hs, by simpa using hlength, aborting_interrupted hs⟩

/-- Two runs receive an interrupt each. The first watcher closes their channel. A third run starts
with a channel of its own, and the second watcher closes it: the third run is aborted, and there
was no interrupt since it started. -/
theorem aborted_without_interrupt :
    ∃ s, Reachable System.step anyStep .start s ∧ s.panicked = false ∧
      ∃ w ∈ s.signals.watchers, w.place = .aborting ∧ w.interrupted = false := by
  obtain ⟨s, hs, hlast⟩ := exists_reachable System.step anyStep .start
    [.newOptions, .normalize 0, .newOptions, .normalize 1, .watch 0 .register,
      .watch 1 .register, .interrupt, .watch 0 .receive, .interrupt, .watch 1 .receive,
      .watch 0 .close, .newOptions, .normalize 2, .watch 2 .register, .watch 1 .close,
      .watch 2 .receive]
    (p := fun s => !s.panicked && s.signals.watchers.any fun w =>
      w.place = .aborting && !w.interrupted) (by decide)
  rw [Bool.and_eq_true, Bool.not_eq_true', List.any_eq_true] at hlast
  obtain ⟨hpanicked, w, hw, haborting⟩ := hlast
  simp only [Bool.and_eq_true, decide_eq_true_eq, Bool.not_eq_true'] at haborting
  exact ⟨s, hs, hpanicked, w, hw, haborting⟩

end IstioVendor.Periodic.Watch
