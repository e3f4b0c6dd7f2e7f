import Mathlib.Algebra.Order.Chebyshev
import Mathlib.Data.Multiset.Fintype
import Mathlib.Tactic.FieldSimp
import IstioVendor.Lib.Simulation
import IstioVendor.Proofs.Stats.Stats

/-!
# `IstioVendor.Proofs.Stats.Variance`: the radicand of `StdDev`

`StdDev` takes the square root of `(sumOfSquares - Sum ^ 2 / Count) / Count` and has a branch for
a negative number there, with the comment "should never happen but it does". `counterStep` runs one
call on the counters of a program, and `recordsStep` keeps the records that each counter stands for:
a value with its number.

A record of `v` for `n` times adds `v * n` to the sum and its square to the sum of squares. This is
not what `n` values add, but by the inequality of Cauchy and Schwarz the radicand is not negative
even so, as the count is at least the number of the records (`Counter.Sums.sq_sum_le`). Without
`RecordN` the radicand is the variance of the values (`Counter.Sums.stdDev_eq`).

The count is an `int64`. When it wraps it is less than the number of the records may ask for, and
the radicand can be negative without any rounding (`negative_variance_wraps`).
-/

set_option autoImplicit false

namespace IstioVendor.Stats

open Lib

/-! ### Calls -/

/-- A call on the counters of a program, which have numbers in the order of their creation. -/
inductive CounterOp where
  | new
  | record (i : Nat) (v : Rat)
  | recordN (i : Nat) (v : Rat) (n : Nat)
  | reset (i : Nat)
  | transfer (i j : Nat)

/-- The call on the counters. `none` is a call that the histories do not make: on a counter that
does not exist, of `RecordN` for no values, or of `Transfer` for one counter in both places. -/
def counterStep (cs : List Counter) : CounterOp → Option (List Counter)
  | .new => some (cs ++ [.empty])
  | .record i v => cs[i]?.map fun c => cs.set i (c.record v)
  | .recordN i v n => if n = 0 then none else cs[i]?.map fun c => cs.set i (c.recordN v n)
  | .reset i => cs[i]?.map fun c => cs.set i c.reset
  | .transfer i j =>
    if i = j then none
    else do
      let c ← cs[i]?
      let src ← cs[j]?
      some ((cs.set i (c.transfer src).1).set j (c.transfer src).2)

/-- The call on the records that the counters stand for. A record is a value and its number. -/
def recordsStep (ms : List (Multiset (Rat × Nat))) : CounterOp → List (Multiset (Rat × Nat))
  | .new => ms ++ [0]
  | .record i v => ms.set i (ms.getD i 0 + {(v, 1)})
  | .recordN i v n => ms.set i (ms.getD i 0 + {(v, n)})
  | .reset i => ms.set i 0
  | .transfer i j => (ms.set i (ms.getD i 0 + ms.getD j 0)).set j 0

/-- The counters after a history, from a program that has none. -/
def runCounters (ops : List CounterOp) : Option (List Counter) := ops.foldlM counterStep []

/-- The records that each counter stands for after a history. -/
def counterRecords (ops : List CounterOp) : List (Multiset (Rat × Nat)) := ops.foldl recordsStep []

/-- The number of the recorded values. -/
def numRecorded (m : Multiset (Rat × Nat)) : Nat := (m.map Prod.snd).sum

/-- The mean of the squared deviations from the mean. -/
def populationVariance (m : Multiset Rat) : Rat :=
  (m.map fun v => (v - m.sum / m.card) ^ 2).sum / m.card

/-! ### One call -/

/-- The counter has the sums of the records `m`. -/
structure Counter.Sums (c : Counter) (m : Multiset (Rat × Nat)) : Prop where
  pos : ∀ e ∈ m, 0 < e.2
  count : c.count = int64 (numRecorded m)
  sum : c.sum = (m.map fun e => e.1 * (e.2 : Rat)).sum
  squares : c.sumOfSquares = (m.map fun e => (e.1 * (e.2 : Rat)) ^ 2).sum

@[simp] theorem numRecorded_add (m m' : Multiset (Rat × Nat)) :
    numRecorded (m + m') = numRecorded m + numRecorded m' := by
  rw [numRecorded, Multiset.map_add, Multiset.sum_add]
  rfl

@[simp] theorem numRecorded_singleton (e : Rat × Nat) : numRecorded {e} = e.2 := by
  rw [numRecorded, Multiset.map_singleton, Multiset.sum_singleton]

namespace Counter.Sums

variable {c src : Counter} {m m' : Multiset (Rat × Nat)}

theorem zero : Counter.empty.Sums 0 :=
  ⟨fun _ h => absurd h (Multiset.notMem_zero _), by decide, rfl, rfl⟩

/-- There are at least as many values as records. -/
theorem card_le (h : c.Sums m) : m.card ≤ numRecorded m := by
  have hle : (m.map fun _ => 1).sum ≤ (m.map Prod.snd).sum :=
    Multiset.sum_map_le_sum_map _ _ fun e he => h.pos e he
  rwa [Multiset.map_const', Multiset.sum_replicate, smul_eq_mul, mul_one] at hle

/-- Below `2 ^ 64` values the count is zero for an empty counter only. -/
theorem count_eq_zero (h : c.Sums m) (hlt : numRecorded m < 2 ^ 64) : c.count = 0 ↔ m = 0 := by
  rw [h.count, int64_eq_zero (by omega), ← Multiset.card_eq_zero]
  constructor
  · intro h0
    have := h.card_le
    omega
  · intro h0
    rw [Multiset.card_eq_zero.mp h0]
    rfl

/-- Below `2 ^ 64` values a positive count is their number: from `2 ^ 63` on it is negative. -/
theorem count_of_pos (h : c.Sums m) (hlt : numRecorded m < 2 ^ 64) (hpos : 0 < c.count) :
    c.count = numRecorded m := by
  rw [h.count] at hpos ⊢
  by_cases hsmall : numRecorded m < 2 ^ 63
  · exact int64_of_nat hsmall
  · rw [int64_of_wrapped (by omega) (by omega)] at hpos
    omega

/-- `RecordN` adds one record, and nothing is said about the size of the count. -/
theorem recordN (h : c.Sums m) (v : Rat) {n : Nat} (hn : n ≠ 0) :
    (c.recordN v n).Sums (m + {(v, n)}) where
  pos := fun e he => by
    rcases Multiset.mem_add.mp he with he | he
    · exact h.pos e he
    · rw [Multiset.mem_singleton.mp he]
      exact Nat.pos_of_ne_zero hn
  count := by
    rw [numRecorded_add, numRecorded_singleton, Counter.recordN, h.count, int64_add_int64_left,
      Nat.cast_add]
  sum := by
    rw [Multiset.map_add, Multiset.sum_add, Multiset.map_singleton, Multiset.sum_singleton,
      Counter.recordN, h.sum, Int.cast_natCast]
  squares := by
    rw [Multiset.map_add, Multiset.sum_add, Multiset.map_singleton, Multiset.sum_singleton,
      Counter.recordN, h.squares, Int.cast_natCast, sq]

/-- `Transfer` adds the records of `src` and leaves it without any. The two tests for a count of
zero are tests for an empty counter. -/
theorem transfer (h : c.Sums m) (h' : src.Sums m') (hlt : numRecorded m < 2 ^ 64)
    (hlt' : numRecorded m' < 2 ^ 64) :
    (c.transfer src).1.Sums (m + m') ∧ (c.transfer src).2.Sums 0 := by
  unfold Counter.transfer
  by_cases hm' : m' = 0
  · subst hm'
    rw [if_pos ((h'.count_eq_zero hlt').mpr rfl), add_zero]
    exact ⟨h, h'⟩
  rw [if_neg (mt (h'.count_eq_zero hlt').mp hm')]
  by_cases hm : m = 0
  · rw [if_pos ((h.count_eq_zero hlt).mpr hm), hm, zero_add]
    exact ⟨h', .zero⟩
  rw [if_neg (mt (h.count_eq_zero hlt).mp hm)]
  refine ⟨⟨fun e he => ?_, ?_, ?_, ?_⟩, .zero⟩
  · exact (Multiset.mem_add.mp he).elim (h.pos e) (h'.pos e)
  · rw [h.count, h'.count, int64_add_int64, numRecorded_add, Nat.cast_add]
  · rw [h.sum, h'.sum, Multiset.map_add, Multiset.sum_add]
  · rw [h.squares, h'.squares, Multiset.map_add, Multiset.sum_add]

end Counter.Sums

/-- No counter holds so many values that its count comes to zero again. -/
def Countable (ms : List (Multiset (Rat × Nat))) : Prop := ∀ m ∈ ms, numRecorded m < 2 ^ 64

/-- The step lemma: a call keeps the counters in agreement with their records. -/
theorem sums_step (op : CounterOp) (cs : List Counter) (ms : List (Multiset (Rat × Nat)))
    (cs' : List Counter) (hR : List.Forall₂ Counter.Sums cs ms)
    (hsmall : Countable (recordsStep ms op)) (hstep : counterStep cs op = some cs') :
    List.Forall₂ Counter.Sums cs' (recordsStep ms op) := by
  cases op with
  | new =>
    cases hstep
    exact forall₂_concat hR .zero
  | record i v =>
    obtain ⟨c, hi, rfl⟩ := Option.map_eq_some_iff.mp hstep
    exact forall₂_set hR i ((forall₂_getD hR hi 0).recordN v Nat.one_ne_zero)
  | recordN i v n =>
    obtain ⟨hn, hstep⟩ := Option.ite_none_left_eq_some.mp hstep
    obtain ⟨c, hi, rfl⟩ := Option.map_eq_some_iff.mp hstep
    exact forall₂_set hR i ((forall₂_getD hR hi 0).recordN v hn)
  | reset i =>
    obtain ⟨c, _, rfl⟩ := Option.map_eq_some_iff.mp hstep
    exact forall₂_set hR i .zero
  | transfer i j =>
    obtain ⟨hij, hstep⟩ := Option.ite_none_left_eq_some.mp hstep
    obtain ⟨c, hi, hstep⟩ := Option.bind_eq_some_iff.mp hstep
    obtain ⟨src, hj, ⟨⟩⟩ := Option.bind_eq_some_iff.mp hstep
    -- What `i` and `j` hold together is small after the call, so each was before it.
    have hlt : numRecorded (ms.getD i 0 + ms.getD j 0) < 2 ^ 64 :=
      hsmall _ (mem_set_set hij (forall₂_lt_length hR hi))
    rw [numRecorded_add] at hlt
    obtain ⟨hc', hsrc'⟩ :=
      (forall₂_getD hR hi 0).transfer (forall₂_getD hR hj 0) (by omega) (by omega)
    exact forall₂_set (forall₂_set hR i hc') j hsrc'

/-! ### The radicand -/

/-- The square of a sum is at most the number of its terms times the sum of their squares. -/
theorem sq_sum_le_card_mul (m : Multiset Rat) :
    m.sum ^ 2 ≤ m.card * (m.map fun x => x ^ 2).sum := by
  have h := sq_sum_le_card_mul_sum_sq (s := (Finset.univ : Finset m)) (f := fun x : m => (x : Rat))
  have hsquares : ∑ x : m, (x : Rat) ^ 2 = (m.map fun x => x ^ 2).sum :=
    congrArg Multiset.sum (Multiset.map_univ m fun x => x ^ 2)
  rwa [Finset.card_univ, Multiset.card_coe, hsquares, Finset.sum_eq_multiset_sum,
    Multiset.map_univ_coe] at h

/-- The sum of the squared deviations from a number. -/
theorem sum_sq_deviation (m : Multiset Rat) (a : Rat) :
    (m.map fun v => (v - a) ^ 2).sum
      = (m.map fun v => v ^ 2).sum - 2 * a * m.sum + m.card * a ^ 2 := by
  induction m using Multiset.induction_on with
  | empty => simp
  | cons v m ih =>
    rw [Multiset.map_cons, Multiset.sum_cons, ih, Multiset.map_cons, Multiset.sum_cons,
      Multiset.sum_cons, Multiset.card_cons]
    push_cast
    ring

namespace Counter.Sums

variable {c : Counter} {m : Multiset (Rat × Nat)}

/-- The inequality of Cauchy and Schwarz for the records, of which there are at most as many as
values. -/
theorem sq_sum_le (h : c.Sums m) (hlt : numRecorded m < 2 ^ 64) (hpos : 0 < c.count) :
    c.sum ^ 2 ≤ c.count * c.sumOfSquares := by
  have hcount := h.count_of_pos hlt hpos
  have hcs := sq_sum_le_card_mul (m.map fun e => e.1 * (e.2 : Rat))
  rw [Multiset.card_map, Multiset.map_map, ← h.sum] at hcs
  have hsquares : (m.map fun e => (e.1 * (e.2 : Rat)) ^ 2).sum = c.sumOfSquares := h.squares.symm
  have hnonneg : 0 ≤ c.sumOfSquares := by
    rw [h.squares]
    refine Multiset.sum_nonneg fun x hx => ?_
    obtain ⟨e, _, rfl⟩ := Multiset.mem_map.mp hx
    exact sq_nonneg _
  have hcard : (m.card : Rat) ≤ numRecorded m := by exact_mod_cast h.card_le
  calc c.sum ^ 2 ≤ m.card * c.sumOfSquares := by rw [← hsquares]; exact hcs
    _ ≤ numRecorded m * c.sumOfSquares := mul_le_mul_of_nonneg_right hcard hnonneg
    _ = c.count * c.sumOfSquares := by rw [hcount, Int.cast_natCast]

/-- The branch of `StdDev` for a negative radicand is not taken. -/
theorem stdDev_ne_none (h : c.Sums m) (hlt : numRecorded m < 2 ^ 64) (hpos : 0 < c.count) :
    c.stdDev ≠ none := by
  have hcount : (0 : Rat) < c.count := by exact_mod_cast hpos
  have hle : c.sum * c.sum / c.count ≤ c.sumOfSquares := by
    rw [div_le_iff₀ hcount, ← sq, mul_comm]
    exact h.sq_sum_le hlt hpos
  rw [stdDev, if_neg (not_lt.mpr (div_nonneg (sub_nonneg.mpr hle) hcount.le))]
  exact Option.some_ne_none _

/-- When every value was recorded by itself, the radicand is the variance of the values. -/
theorem stdDev_eq (h : c.Sums m) (hlt : numRecorded m < 2 ^ 64) (hpos : 0 < c.count)
    (hone : ∀ e ∈ m, e.2 = 1) : c.stdDev = some (populationVariance (m.map Prod.fst)) := by
  -- Recorded by itself, a value has its own square in the sum of squares.
  have hterm : ∀ e ∈ m, e.1 * (e.2 : Rat) = e.1 := fun e he => by
    rw [hone e he, Nat.cast_one, mul_one]
  have hcard : numRecorded m = m.card := by
    rw [numRecorded, Multiset.map_congr rfl hone, Multiset.map_const', Multiset.sum_replicate,
      smul_eq_mul, mul_one]
  have hcount : c.count = m.card := by rw [h.count_of_pos hlt hpos, hcard]
  have hsum : c.sum = (m.map Prod.fst).sum := by rw [h.sum, Multiset.map_congr rfl hterm]
  have hsquares : c.sumOfSquares = ((m.map Prod.fst).map fun v => v ^ 2).sum := by
    rw [h.squares, Multiset.map_map]
    exact congrArg _ (Multiset.map_congr rfl fun e he => by rw [hterm e he]; rfl)
  have hsigma : (c.sumOfSquares - c.sum * c.sum / c.count) / c.count
      = populationVariance (m.map Prod.fst) := by
    rw [populationVariance, sum_sq_deviation, Multiset.card_map, hcount, hsum, hsquares]
    push_cast
    field_simp
    ring
  rw [← hsigma]
  have hnot := h.stdDev_ne_none hlt hpos
  unfold stdDev at hnot ⊢
  dsimp only at hnot ⊢
  split_ifs at hnot ⊢ with hneg
  · exact absurd rfl hnot
  · rfl

end Counter.Sums

/-! ### Histories -/

/-- The call is not one of `RecordN`. -/
def CounterOp.single : CounterOp → Bool
  | .recordN _ _ _ => false
  | _ => true

theorem ones_step {ms : List (Multiset (Rat × Nat))} {op : CounterOp} (hop : op.single = true)
    (h : ∀ m ∈ ms, ∀ e ∈ m, e.2 = 1) : ∀ m ∈ recordsStep ms op, ∀ e ∈ m, e.2 = 1 := by
  have hget : ∀ i, ∀ e ∈ ms.getD i 0, e.2 = 1 := fun i e he => by
    rw [List.getD_eq_getElem?_getD] at he
    cases hi : ms[i]? with
    | none => rw [hi] at he; exact absurd he (Multiset.notMem_zero e)
    | some m => rw [hi] at he; exact h m (List.mem_of_getElem? hi) e he
  have hzero : ∀ e ∈ (0 : Multiset (Rat × Nat)), e.2 = 1 := fun e he =>
    absurd he (Multiset.notMem_zero e)
  have hadd : ∀ {a b : Multiset (Rat × Nat)}, (∀ e ∈ a, e.2 = 1) → (∀ e ∈ b, e.2 = 1) →
      ∀ e ∈ a + b, e.2 = 1 := fun ha hb e he => (Multiset.mem_add.mp he).elim (ha e) (hb e)
  have hset : ∀ {l : List (Multiset (Rat × Nat))} {i : Nat} {a : Multiset (Rat × Nat)},
      (∀ m ∈ l, ∀ e ∈ m, e.2 = 1) → (∀ e ∈ a, e.2 = 1) → ∀ m ∈ l.set i a, ∀ e ∈ m, e.2 = 1 :=
    fun hl ha m hm => (List.mem_or_eq_of_mem_set hm).elim (hl m) (fun heq => heq ▸ ha)
  cases op with
  | new =>
    intro m hm
    rcases List.mem_append.mp hm with hm | hm
    · exact h m hm
    · rw [List.mem_singleton.mp hm]
      exact hzero
  | record i v =>
    refine hset h (hadd (hget i) fun e he => ?_)
    rw [Multiset.mem_singleton.mp he]
  | recordN i v n => cases hop
  | reset i => exact hset h hzero
  | transfer i j => exact hset (hset h (hadd (hget i) (hget j))) hzero

theorem ones_run {ops : List CounterOp} (hops : ∀ op ∈ ops, op.single = true) :
    ∀ m ∈ counterRecords ops, ∀ e ∈ m, e.2 = 1 := by
  suffices hrun : ∀ ms : List (Multiset (Rat × Nat)), (∀ m ∈ ms, ∀ e ∈ m, e.2 = 1) →
      ∀ m ∈ ops.foldl recordsStep ms, ∀ e ∈ m, e.2 = 1 from
    hrun [] fun m hm => absurd hm List.not_mem_nil
  induction ops with
  | nil => exact fun ms h => h
  | cons op ops ih =>
    intro ms h
    exact ih (fun op' hop' => hops op' (List.mem_cons_of_mem _ hop')) _
      (ones_step (hops op List.mem_cons_self) h)

/-- After every history in which no counter comes to hold `2 ^ 64` values: a counter with a
positive count has a radicand that is not negative, and without `RecordN` the radicand is the
variance of the recorded values. -/
theorem history_variance (ops : List CounterOp) (cs : List Counter)
    (hrun : runCounters ops = some cs)
    (hsmall : ∀ pre, pre <+: ops → ∀ m ∈ counterRecords pre, numRecorded m < 2 ^ 64)
    (i : Nat) (c : Counter) (hi : cs[i]? = some c) (hpos : 0 < c.count) :
    c.sum ^ 2 ≤ c.count * c.sumOfSquares ∧ c.stdDev ≠ none ∧
      ((∀ op ∈ ops, op.single = true) → ∃ m, (counterRecords ops)[i]? = some m ∧
        c.stdDev = some (populationVariance (m.map Prod.fst))) := by
  obtain ⟨m, hm, hc⟩ := forall₂_getElem? (simulation sums_step .nil hsmall hrun) hi
  have hlt := hsmall ops List.prefix_rfl m (List.mem_of_getElem? hm)
  refine ⟨hc.sq_sum_le hlt hpos, hc.stdDev_ne_none hlt hpos, fun hops => ⟨m, hm, ?_⟩⟩
  exact hc.stdDev_eq hlt hpos (ones_run hops m (List.mem_of_getElem? hm))

/-- Two counters, one value each, brought together. -/
def sampleCounters : List CounterOp :=
  [.new, .new, .record 0 1, .record 1 3, .transfer 0 1]

theorem history_variance_sample :
    ∃ (cs : List Counter) (c : Counter), runCounters sampleCounters = some cs ∧
      cs[0]? = some c ∧ 0 < c.count ∧ c.sum ^ 2 ≤ (c.count : Rat) * c.sumOfSquares ∧
      c.stdDev = some (populationVariance ({1, 3} : Multiset Rat)) := by
  have hsmall : ∀ pre ∈ sampleCounters.inits, ∀ m ∈ counterRecords pre, numRecorded m < 2 ^ 64 := by
    decide +kernel
  have hrun : runCounters sampleCounters = some [⟨2, 1, 3, 4, 10⟩, .empty] := by decide +kernel
  obtain ⟨hle, _, hvar⟩ := history_variance sampleCounters _ hrun
    (fun pre hpre => hsmall pre ((List.mem_inits _ _).mpr hpre)) 0 _ rfl (by decide)
  obtain ⟨m, hm, hdev⟩ := hvar (by decide)
  have hvalues : (counterRecords sampleCounters)[0]? = some {(1, 1), (3, 1)} := by decide +kernel
  cases hvalues.symm.trans hm
  exact ⟨_, _, hrun, rfl, by decide, hle, hdev⟩

/-- More than `2 ^ 64` values in three calls, so that the count is 1 again. -/
def wrappedCounters : List CounterOp :=
  [.new, .recordN 0 1 (2 ^ 63 - 1), .recordN 0 1 (2 ^ 63 - 1), .recordN 0 1 3]

theorem negative_variance_wraps :
    ∃ (cs : List Counter) (c : Counter), runCounters wrappedCounters = some cs ∧
      cs[0]? = some c ∧ 0 < c.count ∧ (c.count : Rat) * c.sumOfSquares < c.sum ^ 2 ∧
      c.stdDev = none := by
  have hany : (runCounters wrappedCounters).any (fun cs => cs[0]?.any fun (c : Counter) =>
      decide (0 < c.count ∧ (c.count : Rat) * c.sumOfSquares < c.sum ^ 2 ∧ c.stdDev = none))
        = true := by
    decide +kernel
  obtain ⟨cs, hrun, hcs⟩ := (Option.any_eq_true _ _).mp hany
  obtain ⟨c, hi, hc⟩ := (Option.any_eq_true _ _).mp hcs
  exact ⟨cs, c, hrun, hi, of_decide_eq_true hc⟩

end IstioVendor.Stats
