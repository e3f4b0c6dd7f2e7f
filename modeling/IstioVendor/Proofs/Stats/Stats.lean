import Mathlib.Algebra.Order.Field.Rat
import Mathlib.Algebra.BigOperators.Fin
import IstioVendor.Lib.Tally
import IstioVendor.Stats.Stats

/-!
# `IstioVendor.Proofs.Stats.Stats`: what the operations on a histogram do

`Counter.Holds` says that a counter summarises a multiset of values. It is kept by `recordN`
and by `transfer`.

Every write to `Hdata` adds a family of counters. `spread` is the family that a list of
values with their numbers adds at a scale, and `contribution` is what a histogram adds to
another one. With them `record`, `copyHDataFrom` and `transfer` have one form each
(`record_eq`, `copyHDataFrom_eq`, `transfer_eq`), whatever path they take, and the form shows
that what is added does not depend on the receiver.

`Export` lists every bucket that is not empty, with its number (`exportData_counts`). So a
contribution counts as many values as the histogram it comes from (`tally_contribution`),
also when it goes through an export to another scale.
-/

set_option autoImplicit false

namespace IstioVendor.Stats

open Lib

/-! ### Counters -/

/-- The counter summarises the values `m`. -/
structure Counter.Holds (c : Counter) (m : Multiset Rat) : Prop where
  count : c.count = int64 m.card
  sum : c.sum = m.sum
  extremes : m ≠ 0 → Extremes m c.min c.max

variable {n : Nat} {d : Fin numBuckets → BitVec 32}

namespace Counter.Holds

variable {c src : Counter} {m m' : Multiset Rat}

theorem zero : Counter.empty.Holds 0 := ⟨by decide, rfl, fun h => absurd rfl h⟩

/-- A counter is at zero only when it holds nothing, or so much that it has come around. -/
theorem count_eq_zero (h : c.Holds m) (hlt : m.card < 2 ^ 64) : c.count = 0 ↔ m = 0 := by
  rw [h.count]
  exact (int64_eq_zero hlt).trans Multiset.card_eq_zero

theorem recordN (h : c.Holds m) (v : Rat) (hn : n ≠ 0) (hlt : m.card < 2 ^ 64) :
    (c.recordN v n).Holds (m + Multiset.replicate n v) where
  count := by
    rw [Counter.recordN, h.count, int64_add_int64_left, Multiset.card_add,
      Multiset.card_replicate, Nat.cast_add]
  sum := by
    rw [Counter.recordN, h.sum, Multiset.sum_add, Multiset.sum_replicate, nsmul_eq_mul, mul_comm,
      Int.cast_natCast]
  extremes := fun _ => by
    by_cases hm : m = 0
    · subst hm
      simp only [Counter.recordN, (h.count_eq_zero hlt).mpr rfl, if_true, zero_add]
      exact .replicate hn v
    · have hne : ¬ c.count = 0 := fun h0 => hm ((h.count_eq_zero hlt).mp h0)
      have hx := (h.extremes hm).add (.replicate hn v)
      have hle := (h.extremes hm).le _ (h.extremes hm).hi_mem
      convert hx using 1
      · simp only [Counter.recordN, hne, if_false]
        split_ifs with hv
        · rw [min_eq_right hv.le]
        · rw [min_eq_left (not_lt.mp hv)]
      · simp only [Counter.recordN, hne, if_false]
        split_ifs with hv hv'
        · rw [max_eq_left (hv.le.trans hle)]
        · rw [max_eq_right hv'.le]
        · rw [max_eq_left (not_lt.mp hv')]

theorem transfer (h : c.Holds m) (h' : src.Holds m') (hlt : m.card < 2 ^ 64)
    (hlt' : m'.card < 2 ^ 64) : (c.transfer src).1.Holds (m + m') := by
  unfold Counter.transfer
  by_cases hm' : m' = 0
  · rw [if_pos ((h'.count_eq_zero hlt').mpr hm'), hm', add_zero]
    exact h
  rw [if_neg (fun h0 => hm' ((h'.count_eq_zero hlt').mp h0))]
  by_cases hm : m = 0
  · rw [if_pos ((h.count_eq_zero hlt).mpr hm), hm, zero_add]
    exact h'
  rw [if_neg (fun h0 => hm ((h.count_eq_zero hlt).mp h0))]
  refine ⟨?_, ?_, fun _ => ?_⟩
  · rw [h.count, h'.count, Multiset.card_add, Nat.cast_add, int64_add_int64]
  · rw [h.sum, h'.sum, Multiset.sum_add]
  · convert (h.extremes hm).add (h'.extremes hm') using 1
    · rw [min_comm, min_def_lt]
    · rw [max_def_lt]

/-- What bounds the values bounds their extremes and their average, as long as the count has not come
around. -/
theorem within (h : c.Holds m) (hm : m ≠ 0) (hlt : m.card < 2 ^ 63) {lo hi : Rat}
    (hlo : ∀ v ∈ m, lo ≤ v) (hhi : ∀ v ∈ m, v ≤ hi) :
    (lo ≤ c.min ∧ c.max ≤ hi) ∧ lo ≤ c.avg ∧ c.avg ≤ hi := by
  have hext := h.extremes hm
  have hpos : (0 : Rat) < m.card := by exact_mod_cast Multiset.card_pos.mpr hm
  have havg : c.avg = m.sum / m.card := by
    rw [Counter.avg, h.sum, h.count, int64_of_nat hlt]
    rfl
  refine ⟨⟨hlo _ hext.lo_mem, hhi _ hext.hi_mem⟩, ?_, ?_⟩
  · have hsum := Multiset.card_nsmul_le_sum hlo
    rw [havg, le_div_iff₀ hpos, mul_comm]
    exact hsum
  · have hsum := Multiset.sum_le_card_nsmul m hi hhi
    rw [havg, div_le_iff₀ hpos, mul_comm]
    exact hsum

end Counter.Holds

/-- The count and the sum of a counter that recorded a list, of any length. -/
theorem Counter.foldl_record_count (c : Counter) (vs : List Rat) (n : Nat)
    (h : c.count = int64 n) : (vs.foldl Counter.record c).count = int64 (n + vs.length : Nat) ∧
      (vs.foldl Counter.record c).sum = c.sum + vs.sum := by
  induction vs generalizing c n with
  | nil => simp [h]
  | cons v vs ih =>
    obtain ⟨hcount, hsum⟩ := ih (c.record v) (n + 1) (by
      rw [Counter.record, Counter.recordN, h, int64_add_int64_left, Nat.cast_add, Nat.cast_one])
    rw [List.foldl_cons, hcount, hsum, List.length_cons, List.sum_cons]
    refine ⟨by congr 2; omega, ?_⟩
    simp [Counter.record, Counter.recordN, add_assoc]

/-! ### Additions to `Hdata` -/

namespace Histogram

theorem record_eq (h : Histogram) (v : Rat) (n : Int) :
    h.record v n = (bucket h.offset h.divider v).map fun i =>
      { h with hdata := h.hdata + Pi.single i (BitVec.ofInt 32 n) } := by
  unfold record
  congr 1
  funext i
  congr 1
  funext j
  by_cases hj : j = i
  · subst hj
    rw [Function.update_self, Pi.add_apply, Pi.single_eq_same]
  · rw [Function.update_of_ne hj, Pi.add_apply, Pi.single_eq_of_ne hj, add_zero]

/-- The family that the values of the list add, each with its number. -/
def spread (offset divider : Rat) : List (Rat × Int) → Option (Fin numBuckets → BitVec 32) :=
  sumOption fun e => (bucket offset divider e.1).map fun i => Pi.single i (BitVec.ofInt 32 e.2)

theorem foldlM_record (h : Histogram) (l : List (Rat × Int)) :
    l.foldlM (fun h' e => h'.record e.1 e.2) h
      = (spread h.offset h.divider l).map fun d => { h with hdata := h.hdata + d } := by
  induction l generalizing h with
  | nil => simp [spread, sumOption]
  | cons e rest ih =>
    rw [List.foldlM_cons, record_eq, spread, sumOption]
    cases bucket h.offset h.divider e.1 with
    | none => rfl
    | some i =>
      simp only [Option.map_some, Option.bind_eq_bind, Option.bind_some, ih, spread, Option.map_map]
      congr 1
      funext d
      simp only [Function.comp, add_assoc]

/-- The values and numbers that `copyHDataFrom` records at another scale: the middle of each
exported interval. -/
def entries (src : Histogram) : List (Rat × Int) :=
  src.exportData.data.map fun b => ((b.start + b.stop) / 2, b.count)

/-- What `src` adds to a histogram of the given scale. -/
def contribution (src : Histogram) (offset divider : Rat) : Option (Fin numBuckets → BitVec 32) :=
  if divider = src.divider ∧ offset = src.offset then some src.hdata
  else spread offset divider src.entries

theorem copyHDataFrom_eq (h src : Histogram) :
    h.copyHDataFrom src = (src.contribution h.offset h.divider).map fun d =>
      { h with hdata := h.hdata + d } := by
  unfold copyHDataFrom contribution
  split
  · rfl
  · rw [← foldlM_record, entries, List.foldlM_map]

/-- The three paths of `Transfer` in one: the contribution and the counter of `src` are added,
and `src` is cleared. -/
theorem transfer_eq (h src : Histogram) :
    h.transfer src = if src.count = 0 then some (h, src)
      else (src.contribution h.offset h.divider).map fun d =>
        ({ h with
            toCounter := (h.toCounter.transfer src.toCounter).1
            hdata := h.hdata + d }, src.reset) := by
  unfold transfer
  split_ifs with hsrc hcount
  · rfl
  · -- An empty receiver takes the counter of `src` as it is, as `Counter.transfer` does.
    rw [copyFrom, copyHDataFrom_eq, Option.map_map]
    have hc : (h.toCounter.transfer src.toCounter).1 = src.toCounter := by
      rw [Counter.transfer, if_neg hsrc, if_pos hcount]
    rw [hc]
    rfl
  · rw [copyHDataFrom_eq, Option.map_map]
    rfl

@[simp] theorem blank_toCounter (offset divider : Rat) (hd : divider ≠ 0) :
    (blank offset divider hd).toCounter = .empty := rfl

@[simp] theorem blank_offset (offset divider : Rat) (hd : divider ≠ 0) :
    (blank offset divider hd).offset = offset := rfl

@[simp] theorem blank_divider (offset divider : Rat) (hd : divider ≠ 0) :
    (blank offset divider hd).divider = divider := rfl

/-- `Clone` makes an equal histogram. -/
theorem clone_eq (h : Histogram) : h.clone = some h := by
  rw [clone, newHistogram, dif_neg h.divider_ne, Option.bind_some, copyFrom, copyHDataFrom_eq,
    contribution, if_pos ⟨rfl, rfl⟩, Option.map_some]
  congr 1
  obtain ⟨_, _, _, _, _⟩ := h
  simp only [blank, mk.injEq, true_and]
  exact zero_add _

/-! ### `Export` -/

theorem exportStep_counts (h : Histogram) (st : Exporting) (i : Fin numBuckets) :
    (h.exportStep st i).data.map Bucket.count
      = st.data.map Bucket.count ++ if h.hdata i = 0 then [] else [(h.hdata i).toInt] := by
  unfold exportStep
  by_cases h0 : h.hdata i = 0
  · simp [h0]
  · simp only [h0, if_false, List.map_append, List.map_cons, List.map_nil]
    cases histogramBucketValues[i.val]? <;> rfl

theorem foldl_exportStep_counts (h : Histogram) (l : List (Fin numBuckets)) (st : Exporting) :
    (l.foldl h.exportStep st).data.map Bucket.count
      = st.data.map Bucket.count
        ++ (l.filter fun i => h.hdata i ≠ 0).map fun i => (h.hdata i).toInt := by
  induction l generalizing st with
  | nil => simp
  | cons i l ih =>
    rw [List.foldl_cons, ih, exportStep_counts, List.append_assoc]
    by_cases h0 : h.hdata i = 0
    · rw [if_pos h0, List.filter_cons_of_neg (by simp [h0]), List.nil_append]
    · rw [if_neg h0, List.filter_cons_of_pos (by simpa using h0), List.map_cons]
      rfl

theorem map_count_endLast (stop : Rat) (l : List Bucket) :
    (endLast stop l).map Bucket.count = l.map Bucket.count := by
  induction l with
  | nil => rfl
  | cons b l ih =>
    cases l with
    | nil => rfl
    | cons b' l => rw [endLast, List.map_cons, ih, ← List.map_cons]

/-- The exported numbers are those of the buckets that are not empty. -/
theorem exportData_counts (h : Histogram) :
    h.exportData.data.map Bucket.count
      = (h.exported.filter fun i => h.hdata i ≠ 0).map fun i => (h.hdata i).toInt := by
  rw [exportData, map_count_endLast, foldl_exportStep_counts]
  rfl

theorem sum_filter_ne_zero (d : Fin numBuckets → BitVec 32) (l : List (Fin numBuckets)) :
    ((l.filter fun i => d i ≠ 0).map fun i => (d i).toInt).sum
      = (l.map fun i => (d i).toInt).sum := by
  induction l with
  | nil => rfl
  | cons i l ih => by_cases h0 : d i = 0 <;> simp_all

/-- The exported numbers add up to the number of values. -/
theorem sum_exportData_counts {h : Histogram} (ht : Tally h.hdata n) :
    (h.exportData.data.map Bucket.count).sum = n := by
  rw [exportData_counts, sum_filter_ne_zero]
  have hsplit := List.rdropWhile_append_rtakeWhile
    (p := fun i => !decide (0 < (h.hdata i).toInt)) (l := List.finRange numBuckets)
  have hrest : (((List.finRange numBuckets).rtakeWhile
      fun i => !decide (0 < (h.hdata i).toInt)).map fun i => (h.hdata i).toInt).sum = 0 := by
    refine List.sum_eq_zero fun x hx => ?_
    obtain ⟨i, hi, rfl⟩ := List.mem_map.mp hx
    have := List.mem_rtakeWhile_imp hi
    have := ht.nonneg i
    simp at *
    omega
  calc (h.exported.map fun i => (h.hdata i).toInt).sum
      = ((List.finRange numBuckets).map fun i => (h.hdata i).toInt).sum := by
        conv_rhs => rw [← hsplit, List.map_append, List.sum_append, hrest, add_zero]
        rfl
    _ = ∑ i, (h.hdata i).toInt := by rw [← List.ofFn_eq_map, List.sum_ofFn]
    _ = n := ht.total

/-- A list of values with numbers adds a tally of the sum of the numbers. -/
theorem tally_spread {offset divider : Rat} {l : List (Rat × Int)} (hnonneg : ∀ e ∈ l, 0 ≤ e.2)
    (hsum : (l.map Prod.snd).sum = n) (hlt : n < 2 ^ 31) (hd : spread offset divider l = some d) :
    Tally d n := by
  induction l generalizing n d with
  | nil =>
    obtain rfl : 0 = d := Option.some.inj hd
    obtain rfl : n = 0 := by simpa using hsum.symm
    exact .zero
  | cons e rest ih =>
    obtain ⟨v, k⟩ := e
    obtain ⟨x, hx, hrest⟩ := Option.bind_eq_some_iff.mp hd
    obtain ⟨i, _, rfl⟩ := Option.map_eq_some_iff.mp hx
    obtain ⟨d', hd', rfl⟩ := Option.map_eq_some_iff.mp hrest
    have hk := hnonneg (v, k) (by simp)
    have hrest_nonneg := sum_snd_nonneg fun e he => hnonneg e (List.mem_cons_of_mem _ he)
    obtain ⟨a, rfl⟩ := Int.eq_ofNat_of_zero_le hk
    obtain ⟨b, hb⟩ := Int.eq_ofNat_of_zero_le hrest_nonneg
    obtain rfl : a + b = n := by
      simp only [List.map_cons, List.sum_cons, hb] at hsum
      exact_mod_cast hsum
    exact (Tally.single i (by omega)).add
      (ih (fun e he => hnonneg e (by simp [he])) hb (by omega) hd') hlt

/-- A contribution counts the values of the histogram it comes from. -/
theorem tally_contribution {src : Histogram} (ht : Tally src.hdata n) (hlt : n < 2 ^ 31)
    {offset divider : Rat} (hd : src.contribution offset divider = some d) : Tally d n := by
  unfold contribution at hd
  split_ifs at hd
  · cases hd
    exact ht
  · have hcounts : src.entries.map Prod.snd = src.exportData.data.map Bucket.count := by
      rw [entries, List.map_map]
      rfl
    refine tally_spread (fun e he => ?_) ?_ hlt hd
    · have hmem : e.2 ∈ src.exportData.data.map Bucket.count := by
        rw [← hcounts]
        exact List.mem_map_of_mem he
      rw [exportData_counts] at hmem
      obtain ⟨i, _, hi⟩ := List.mem_map.mp hmem
      rw [← hi]
      exact ht.nonneg i
    · rw [hcounts, sum_exportData_counts ht]

end Histogram

end IstioVendor.Stats
