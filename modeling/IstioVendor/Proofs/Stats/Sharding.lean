import Mathlib.Algebra.Order.BigOperators.Group.List
import IstioVendor.Lib.Simulation
import IstioVendor.Proofs.Stats.Stats

/-!
# `IstioVendor.Proofs.Stats.Sharding`: recording in workers and transferring the results

A run records in one histogram per worker and then transfers them to the original, one after
the other. `recordAll_eq` and `transferAll_eq` give the result of the two loops: the counters
are folded, and what is added to `Hdata` is a sum, which does not depend on the order.

`Counter.Exact` determines a counter from the values it was made of (`Counter.Exact.unique`),
for fewer than `2 ^ 64` values. So the sharded result is the sequential one, for every way to
share the values and every order of the transfers (`sharded_recording`). With `2 ^ 64` values
the count of a worker is zero again, and `Transfer` takes the worker for an empty one
(`sharded_recording_wraps`).
-/

set_option autoImplicit false

namespace IstioVendor.Stats

open Lib

/-! ### Exact counters -/

/-- The counter is the one that the values `m` make when each is recorded once. -/
structure Counter.Exact (c : Counter) (m : Multiset Rat) : Prop extends Counter.Holds c m where
  squares : c.sumOfSquares = (m.map fun v => v * v).sum
  zero : m = 0 → c = .empty

namespace Counter

variable {c c' src : Counter} {m m' : Multiset Rat}

theorem Exact.empty : Counter.empty.Exact 0 := ⟨.zero, rfl, fun _ => rfl⟩

/-- The values determine the counter. -/
theorem Exact.unique (h : c.Exact m) (h' : c'.Exact m) : c = c' := by
  by_cases hm : m = 0
  · rw [h.zero hm, h'.zero hm]
  · obtain ⟨hmin, hmax⟩ := (h.extremes hm).unique (h'.extremes hm)
    obtain ⟨_, _, _, _, _⟩ := c
    obtain ⟨_, _, _, _, _⟩ := c'
    simp only [Counter.mk.injEq]
    exact ⟨h.count.trans h'.count.symm, hmin, hmax, h.sum.trans h'.sum.symm,
      h.squares.trans h'.squares.symm⟩

theorem Exact.record (h : c.Exact m) (v : Rat) (hlt : m.card < 2 ^ 64) :
    (c.record v).Exact (m + {v}) where
  toHolds := h.toHolds.recordN v Nat.one_ne_zero hlt
  squares := by
    simp [Counter.record, Counter.recordN, h.squares]
  zero := fun h0 => by simp at h0

theorem Exact.transfer (h : c.Exact m) (h' : src.Exact m') (hlt : m.card < 2 ^ 64)
    (hlt' : m'.card < 2 ^ 64) : (c.transfer src).1.Exact (m + m') where
  toHolds := h.toHolds.transfer h'.toHolds hlt hlt'
  squares := by
    rw [Multiset.map_add, Multiset.sum_add, ← h.squares, ← h'.squares]
    unfold Counter.transfer
    by_cases h0 : src.count = 0
    · rw [if_pos h0, h'.zero ((h'.count_eq_zero hlt').mp h0)]
      exact (add_zero _).symm
    by_cases h1 : c.count = 0
    · rw [if_neg h0, if_pos h1, h.zero ((h.count_eq_zero hlt).mp h1)]
      exact (zero_add _).symm
    · rw [if_neg h0, if_neg h1]
  zero := fun h0 => by
    obtain ⟨rfl, rfl⟩ := add_eq_zero.mp h0
    rw [Counter.transfer, if_pos ((h'.count_eq_zero hlt').mpr rfl)]
    exact h.zero rfl

/-- The values of the list, recorded one after the other. -/
theorem Exact.foldl_record (h : c.Exact m) (vs : List Rat) (hlt : m.card + vs.length < 2 ^ 64) :
    (vs.foldl Counter.record c).Exact (m + vs) := by
  induction vs generalizing c m with
  | nil => simpa using h
  | cons v vs ih =>
    rw [List.length_cons] at hlt
    have hnext := ih (h.record v (by omega)) (by
      rw [Multiset.card_add, Multiset.card_singleton]
      omega)
    rwa [add_assoc, Multiset.singleton_add, Multiset.cons_coe] at hnext

/-- The counters of the list, transferred one after the other. -/
def mergeAll (c : Counter) (cs : List Counter) : Counter :=
  cs.foldl (fun c src => (c.transfer src).1) c

theorem Exact.mergeAll (h : c.Exact m) {cs : List Counter} {ms : List (Multiset Rat)}
    (hcs : List.Forall₂ Exact cs ms) (hlt : (m + ms.sum).card < 2 ^ 64) :
    (c.mergeAll cs).Exact (m + ms.sum) := by
  induction hcs generalizing c m with
  | nil => simpa [Counter.mergeAll] using h
  | cons hsrc _ ih =>
    rw [List.sum_cons, ← add_assoc] at hlt ⊢
    refine ih (h.transfer hsrc ?_ ?_) hlt
    · simp only [Multiset.card_add] at hlt
      omega
    · simp only [Multiset.card_add] at hlt
      omega

end Counter

/-! ### The two loops -/

namespace Histogram

theorem recordAll_eq (h : Histogram) (vs : List Rat) :
    h.recordAll vs = (spread h.offset h.divider (vs.map fun v => (v, 1))).map fun d =>
      { h with
          toCounter := vs.foldl Counter.record h.toCounter
          hdata := h.hdata + d } := by
  induction vs generalizing h with
  | nil => simp [recordAll, spread, sumOption]
  | cons v vs ih =>
    unfold recordAll at ih ⊢
    rw [List.foldlM_cons, recordOne, recordN, record_eq, List.map_cons, spread, sumOption]
    cases bucket h.offset h.divider v with
    | none => rfl
    | some i =>
      simp only [Option.map_some, Option.bind_eq_bind, Option.bind_some, ih, spread, Option.map_map]
      congr 1
      funext d
      simp only [Function.comp, add_assoc, List.foldl_cons, Counter.record]

/-- A histogram without values adds nothing. -/
theorem contribution_of_reset {w : Histogram} (h : w.reset = w) (offset divider : Rat) :
    w.contribution offset divider = some 0 := by
  have hdata : w.hdata = 0 := by rw [← h]; rfl
  unfold contribution
  split_ifs
  · rw [hdata]
  · have hnone : w.exported = [] := by
      rw [exported, List.rdropWhile_eq_nil_iff]
      intro i _
      simp [hdata]
    rw [entries, exportData, hnone]
    rfl

/-- The result of all transfers, when the workers that count nothing are empty. -/
theorem transferAll_eq (h : Histogram) (ws : List Histogram)
    (hempty : ∀ w ∈ ws, w.count = 0 → w.reset = w) :
    h.transferAll ws = (sumOption (fun w => w.contribution h.offset h.divider) ws).map fun d =>
      ({ h with
          toCounter := h.toCounter.mergeAll (ws.map Histogram.toCounter)
          hdata := h.hdata + d }, ws.map reset) := by
  induction ws generalizing h with
  | nil => simp [transferAll, sumOption, Counter.mergeAll]
  | cons w ws ih =>
    have hrest : ∀ w' ∈ ws, w'.count = 0 → w'.reset = w' := fun w' hw' =>
      hempty w' (List.mem_cons_of_mem _ hw')
    rw [transferAll, transfer_eq, sumOption]
    by_cases h0 : w.count = 0
    · -- `Transfer` returns at once and does not reset the worker, which is empty as it is.
      have hw := hempty w List.mem_cons_self h0
      have hc : (h.toCounter.transfer w.toCounter).1 = h.toCounter := by
        rw [Counter.transfer, if_pos h0]
      rw [if_pos h0, contribution_of_reset hw]
      simp only [Option.bind_eq_bind, Option.bind_some, ih h hrest, Option.map_map, zero_add]
      cases sumOption (fun w => w.contribution h.offset h.divider) ws with
      | none => rfl
      | some d => simp [Counter.mergeAll, hc, hw]
    · rw [if_neg h0]
      cases w.contribution h.offset h.divider with
      | none => rfl
      | some d =>
        simp only [Option.map_some, Option.bind_eq_bind, Option.bind_some, ih _ hrest]
        cases sumOption (fun w => w.contribution h.offset h.divider) ws with
        | none => rfl
        | some d' => simp [Counter.mergeAll, add_assoc]

/-! ### Workers -/

section

variable {offset divider : Rat} {hd : divider ≠ 0} {vs : List Rat} {w : Histogram}

/-- The buckets of a worker after it recorded its values. -/
theorem spread_of_recordAll (hw : (blank offset divider hd).recordAll vs = some w) :
    w.reset = blank offset divider hd ∧
      spread offset divider (vs.map fun v => (v, 1)) = some w.hdata ∧
      w.contribution offset divider = some w.hdata := by
  rw [recordAll_eq] at hw
  obtain ⟨d, hspread, rfl⟩ := Option.map_eq_some_iff.mp hw
  have hdata : (blank offset divider hd).hdata + d = d := zero_add d
  refine ⟨rfl, by rw [hdata]; exact hspread, ?_⟩
  rw [contribution, if_pos ⟨rfl, rfl⟩]

/-- The counter of a worker after it recorded its values. -/
theorem exact_of_recordAll (hlt : vs.length < 2 ^ 64)
    (hw : (blank offset divider hd).recordAll vs = some w) : w.toCounter.Exact vs := by
  rw [recordAll_eq] at hw
  obtain ⟨d, _, rfl⟩ := Option.map_eq_some_iff.mp hw
  have hexact := Counter.Exact.empty.foldl_record vs (by simpa using hlt)
  rwa [zero_add] at hexact

/-- A worker that counts nothing recorded nothing. -/
theorem reset_of_recordAll (hlt : vs.length < 2 ^ 64)
    (hw : (blank offset divider hd).recordAll vs = some w) (h0 : w.count = 0) : w.reset = w := by
  have hexact := exact_of_recordAll hlt hw
  obtain rfl : vs = [] := by simpa using (hexact.count_eq_zero (by simpa using hlt)).mp h0
  obtain rfl : blank offset divider hd = w := Option.some.inj hw
  rfl

end

end Histogram

/-- A worker with a scale of its own, and the values it records. -/
structure Worker where
  offset : Rat
  divider : Rat
  divider_ne : divider ≠ 0
  recorded : List Rat

/-- The histogram of the worker in the end. -/
def Worker.histogram (p : Worker) : Option Histogram :=
  (Histogram.blank p.offset p.divider p.divider_ne).recordAll p.recorded

/-- The values of all workers. -/
def allValues (ps : List Worker) : List Rat := ps.flatMap Worker.recorded

section

variable {ps : List Worker} {ws : List Histogram}

theorem length_recorded_le {p : Worker} (hp : p ∈ ps) :
    p.recorded.length ≤ (allValues ps).length := by
  rw [allValues, List.length_flatMap]
  exact List.single_le_sum (by simp) _ (List.mem_map_of_mem hp)

theorem sum_recorded (ps : List Worker) :
    (ps.map fun p => (p.recorded : Multiset Rat)).sum = allValues ps := by
  induction ps with
  | nil => rfl
  | cons p ps ih =>
    rw [List.map_cons, List.sum_cons, ih, allValues, allValues, List.flatMap_cons, Multiset.coe_add]

section
variable (hws : List.Forall₂ (fun p w => p.histogram = some w) ps ws)
include hws

/-- The counters of the workers, merged, hold all values. -/
theorem exact_mergeAll (hlt : (allValues ps).length < 2 ^ 64) :
    (Counter.empty.mergeAll (ws.map Histogram.toCounter)).Exact (allValues ps) := by
  have hexact : List.Forall₂ Counter.Exact (ws.map Histogram.toCounter)
      (ps.map fun p => (p.recorded : Multiset Rat)) := by
    rw [List.forall₂_map_left_iff, List.forall₂_map_right_iff]
    exact (forall₂_imp_mem hws fun p hp w hw =>
      Histogram.exact_of_recordAll ((length_recorded_le hp).trans_lt hlt) hw).flip
  have hmerge := Counter.Exact.empty.mergeAll hexact (by
    rw [sum_recorded, zero_add]
    exact hlt)
  rwa [sum_recorded, zero_add] at hmerge

/-- The workers that count nothing are empty. -/
theorem reset_of_count_eq_zero (hlt : (allValues ps).length < 2 ^ 64) :
    ∀ w ∈ ws, w.count = 0 → w.reset = w := by
  intro w hw
  obtain ⟨p, hp, hpw⟩ := forall₂_mem hws hw
  exact Histogram.reset_of_recordAll ((length_recorded_le hp).trans_lt hlt) hpw

/-- The order of the transfers. -/
theorem transferAll_perm {h₀ h : Histogram} {ws' left : List Histogram}
    (hlt : (allValues ps).length < 2 ^ 64) (hperm : ws'.Perm ws) (h0 : h₀.toCounter = .empty)
    (ht : h₀.transferAll ws = some (h, left)) :
    h₀.transferAll ws' = some (h, ws'.map Histogram.reset) := by
  obtain ⟨ps', hps', hws'⟩ := forall₂_perm hws hperm
  have hvalues : (allValues ps').Perm (allValues ps) := hps'.flatMap_right _
  have hlt' : (allValues ps').length < 2 ^ 64 := hvalues.length_eq ▸ hlt
  rw [Histogram.transferAll_eq _ _ (reset_of_count_eq_zero hws hlt)] at ht
  rw [Histogram.transferAll_eq _ _ (reset_of_count_eq_zero hws' hlt'), sumOption_perm hperm]
  obtain ⟨d, hd, ⟨⟩⟩ := Option.map_eq_some_iff.mp ht
  have hcounter : Counter.empty.mergeAll (ws'.map Histogram.toCounter)
      = Counter.empty.mergeAll (ws.map Histogram.toCounter) := by
    have hexact := exact_mergeAll hws' hlt'
    rw [Multiset.coe_eq_coe.mpr hvalues] at hexact
    exact hexact.unique (exact_mergeAll hws hlt)
  rw [hd, h0, hcounter]
  rfl

end

end

/-- For workers of the scale of the original, the transfers and the records give the same. -/
theorem transferAll_eq_recordAll {offset divider : Rat} {hd : divider ≠ 0}
    {shards : List (List Rat)} {ws : List Histogram} {vs : List Rat}
    (hws : List.Forall₂
      (fun shard w => (Histogram.blank offset divider hd).recordAll shard = some w) shards ws)
    (hvs : vs.Perm shards.flatten) (hlt : vs.length < 2 ^ 64) :
    ∃ h, (Histogram.blank offset divider hd).recordAll vs = some h ∧
      (Histogram.blank offset divider hd).transferAll ws
        = some (h, List.replicate ws.length (Histogram.blank offset divider hd)) := by
  have hvalues : allValues (shards.map (Worker.mk offset divider hd)) = shards.flatten := by
    rw [allValues, List.flatMap_map, List.flatten_eq_flatMap]
    rfl
  have hworkers : List.Forall₂ (fun p w => Worker.histogram p = some w)
      (shards.map (Worker.mk offset divider hd)) ws := List.forall₂_map_left_iff.mpr hws
  have hlt' : (allValues (shards.map (Worker.mk offset divider hd))).length < 2 ^ 64 := by
    rw [hvalues, ← hvs.length_eq]
    exact hlt
  -- What is added to `Hdata` is the same sum, of the values or of the workers.
  have hsums : List.Forall₂ (fun l w => ∃ x, Histogram.spread offset divider l = some x ∧
      w.contribution offset divider = some x)
      (shards.map fun shard => shard.map fun v => (v, 1)) ws :=
    List.forall₂_map_left_iff.mpr
      (hws.imp fun _ w hw => ⟨w.hdata, (Histogram.spread_of_recordAll hw).2⟩)
  obtain ⟨d, hspread, hcontributions⟩ := sumOption_flatten hsums
  have hvs' : (vs.map fun v => (v, (1 : Int))).Perm
      (shards.map fun shard => shard.map fun v => (v, 1)).flatten := by
    rw [← List.map_flatten]
    exact hvs.map _
  have hreset : ws.map Histogram.reset
      = List.replicate ws.length (Histogram.blank offset divider hd) := by
    refine List.eq_replicate_iff.mpr ⟨List.length_map _, fun h hh => ?_⟩
    obtain ⟨w, hw, rfl⟩ := List.mem_map.mp hh
    obtain ⟨_, _, hrec⟩ := forall₂_mem hws hw
    exact (Histogram.spread_of_recordAll hrec).1
  have hcounter : Counter.empty.mergeAll (ws.map Histogram.toCounter)
      = vs.foldl Counter.record .empty := by
    have hexact := exact_mergeAll hworkers hlt'
    rw [hvalues, ← Multiset.coe_eq_coe.mpr hvs] at hexact
    refine hexact.unique ?_
    have hseq := Counter.Exact.empty.foldl_record vs (by simpa using hlt)
    rwa [zero_add] at hseq
  have hrecord := Histogram.recordAll_eq (Histogram.blank offset divider hd) vs
  have htransfer := Histogram.transferAll_eq (Histogram.blank offset divider hd) ws
    (reset_of_count_eq_zero hworkers hlt')
  have hspread' : Histogram.spread offset divider (vs.map fun v => (v, 1)) = some d :=
    (sumOption_perm hvs').trans hspread
  simp only [Histogram.blank_offset, Histogram.blank_divider, hspread', Option.map_some,
    Histogram.blank_toCounter] at hrecord
  simp only [Histogram.blank_offset, Histogram.blank_divider, hcontributions, Option.map_some,
    hreset, Histogram.blank_toCounter, hcounter] at htransfer
  exact ⟨_, hrecord, htransfer⟩

/-- For fewer than `2 ^ 64` values. Workers that are clones of the original: for every way to
share the values, and every order of the transfers, the original becomes the histogram on which
all values were recorded in any order, and the workers become empty. Workers of any scale: the
result of the transfers does not depend on their order. -/
theorem sharded_recording (offset divider : Rat) (hd : divider ≠ 0) :
    (∀ (shards : List (List Rat)) (ws ws' : List Histogram) (vs : List Rat),
      List.Forall₂ (fun shard w => ((Histogram.blank offset divider hd).clone.bind fun clone =>
        clone.recordAll shard) = some w) shards ws →
      ws'.Perm ws → vs.Perm shards.flatten → vs.length < 2 ^ 64 →
      ∃ h, (Histogram.blank offset divider hd).recordAll vs = some h ∧
        (Histogram.blank offset divider hd).transferAll ws'
          = some (h, List.replicate ws'.length (Histogram.blank offset divider hd))) ∧
    (∀ (ps : List Worker) (ws ws' : List Histogram) (h : Histogram) (left : List Histogram),
      List.Forall₂ (fun p w => p.histogram = some w) ps ws →
      (allValues ps).length < 2 ^ 64 → ws'.Perm ws →
      (Histogram.blank offset divider hd).transferAll ws = some (h, left) →
      (Histogram.blank offset divider hd).transferAll ws' = some (h, ws'.map Histogram.reset)) := by
  refine ⟨fun shards ws ws' vs hws hperm hvs hlt => ?_, fun ps ws ws' h left hws hlt hperm ht =>
    transferAll_perm hws hlt hperm rfl ht⟩
  simp only [Histogram.clone_eq, Option.bind_some] at hws
  obtain ⟨shards', hshards, hws'⟩ := forall₂_perm hws hperm
  exact transferAll_eq_recordAll hws' (hvs.trans hshards.symm.flatten) hlt

/-- A histogram in whole units. -/
def unitHistogram : Histogram := .blank 0 1 one_ne_zero

/-- A worker with the scale of `unitHistogram`, and one with an offset and another divider. -/
def twoScales : List Worker :=
  [⟨0, 1, unitHistogram.divider_ne, [3, 1]⟩, ⟨5, 2, two_ne_zero, [9]⟩]

/-- Two clones, and then two workers of which one has another scale, in both orders. -/
theorem sharded_recording_two_workers :
    (∃ w₁ w₂ h : Histogram,
      (unitHistogram.clone.bind fun c => c.recordAll [3, 1]) = some w₁ ∧
      (unitHistogram.clone.bind fun c => c.recordAll [2]) = some w₂ ∧
      unitHistogram.recordAll [1, 2, 3] = some h ∧
      unitHistogram.transferAll [w₂, w₁] = some (h, [unitHistogram, unitHistogram])) ∧
    ∃ w₁ w₂ h left, twoScales.map Worker.histogram = [some w₁, some w₂] ∧
      unitHistogram.transferAll [w₁, w₂] = some (h, left) ∧
      unitHistogram.transferAll [w₂, w₁] = some (h, [w₂.reset, w₁.reset]) := by
  constructor
  · obtain ⟨w₁, hw₁⟩ := Option.isSome_iff_exists.mp
      (show (unitHistogram.clone.bind fun c => c.recordAll [3, 1]).isSome by
        decide +kernel)
    obtain ⟨w₂, hw₂⟩ := Option.isSome_iff_exists.mp
      (show (unitHistogram.clone.bind fun c => c.recordAll [2]).isSome by
        decide +kernel)
    obtain ⟨h, hseq, hshard⟩ := (sharded_recording 0 1 one_ne_zero).1 [[3, 1], [2]] [w₁, w₂]
      [w₂, w₁] [1, 2, 3] (.cons hw₁ (.cons hw₂ .nil)) (.swap _ _ _) (by decide) (by decide)
    exact ⟨w₁, w₂, h, hw₁, hw₂, hseq, hshard⟩
  · have hall : ((twoScales.mapM Worker.histogram).bind fun ws =>
        unitHistogram.transferAll ws).isSome = true := by
      decide +kernel
    obtain ⟨⟨h, left⟩, hboth⟩ := Option.isSome_iff_exists.mp hall
    obtain ⟨ws, hws, htransfer⟩ := Option.bind_eq_some_iff.mp hboth
    have hworkers := mapM_eq_some_iff.mp hws
    obtain ⟨w₁, w₂, hw₁, hw₂, rfl⟩ : ∃ w₁ w₂,
        Worker.histogram ⟨0, 1, unitHistogram.divider_ne, [3, 1]⟩ = some w₁ ∧
        Worker.histogram ⟨5, 2, two_ne_zero, [9]⟩ = some w₂ ∧ ws = [w₁, w₂] := by
      rcases hworkers with _ | ⟨hw₁, _ | ⟨hw₂, _ | _⟩⟩
      exact ⟨_, _, hw₁, hw₂, rfl⟩
    have hswapped := (sharded_recording 0 1 one_ne_zero).2 twoScales [w₁, w₂] [w₂, w₁] h left
      hworkers (by decide) (.swap _ _ _) htransfer
    exact ⟨w₁, w₂, h, left, by simp [twoScales, hw₁, hw₂], htransfer, hswapped⟩

/-! ### A count that comes around -/

/-- A worker whose count has come around to zero is not transferred. -/
theorem transferAll_of_count_zero {n : Nat} (hn : int64 n = 0) :
    ∃ w : Histogram,
      (Histogram.blank 0 1 one_ne_zero).recordAll (List.replicate n 1) = some w ∧ w.sum = n ∧
      (Histogram.blank 0 1 one_ne_zero).transferAll [w]
        = some (Histogram.blank 0 1 one_ne_zero, [w]) := by
  obtain ⟨i, hi⟩ := Option.isSome_iff_exists.mp (show (bucket 0 1 1).isSome by decide +kernel)
  have hspread := sumOption_replicate
    (f := fun e : Rat × Int => (bucket 0 1 e.1).map fun i =>
      Pi.single (M := fun _ => BitVec 32) i (BitVec.ofInt 32 e.2)) (a := (1, 1))
    (by rw [hi, Option.map_some]) n
  have hrecord := Histogram.recordAll_eq (Histogram.blank 0 1 one_ne_zero) (List.replicate n 1)
  simp only [List.map_replicate, Histogram.blank_offset, Histogram.blank_divider,
    Histogram.spread, hspread, Option.map_some] at hrecord
  obtain ⟨hcount, hsum⟩ := Counter.empty.foldl_record_count (List.replicate n 1) 0 (by decide)
  refine ⟨_, hrecord, ?_, ?_⟩
  · refine hsum.trans ?_
    rw [List.sum_replicate, nsmul_one]
    exact zero_add _
  · rw [Histogram.transferAll, Histogram.transfer, if_pos]
    · rfl
    · refine hcount.trans ?_
      rw [List.length_replicate, Nat.zero_add, hn]

/-- One worker records `2 ^ 64` times the value 1. Its count is zero, and `Transfer` leaves the
values where they are. -/
theorem sharded_recording_wraps :
    ∃ w : Histogram,
      ((Histogram.blank 0 1 one_ne_zero).clone.bind fun c =>
        c.recordAll (List.replicate (2 ^ 64) 1)) = some w ∧
      (Histogram.blank 0 1 one_ne_zero).recordAll (List.replicate (2 ^ 64) 1) = some w ∧
      w.sum = 2 ^ 64 ∧
      (Histogram.blank 0 1 one_ne_zero).transferAll [w]
        = some (Histogram.blank 0 1 one_ne_zero, [w]) := by
  obtain ⟨w, hw, hsum, ht⟩ := transferAll_of_count_zero (n := 2 ^ 64) (by decide)
  refine ⟨w, ?_, hw, by rw [hsum]; norm_num, ht⟩
  rw [Histogram.clone_eq, Option.bind_some]
  exact hw

end IstioVendor.Stats
