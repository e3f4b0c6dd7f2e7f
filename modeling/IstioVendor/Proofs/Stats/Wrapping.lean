import Mathlib.Algebra.Order.Group.Multiset
import Mathlib.Algebra.BigOperators.Group.List.Lemmas
import IstioVendor.Proofs.Stats.Percents

/-!
# `IstioVendor.Proofs.Stats.Wrapping`: entries of `Hdata` that wrap

The count of a histogram is an `int64`, and an entry of `Hdata` is an `int32`. `counting` are
the calls that keep the values of a bucket together: `NewHistogram`, `Record`, `RecordN`, and
`Transfer` between histograms of one scale. After every history of such calls with fewer than
`2 ^ 63` values, an entry is the number of the values in its bucket modulo `2 ^ 32`
(`Tallied`, `tallied_run`).

So the entries are right, and `Export` reports them, exactly when no bucket holds `2 ^ 31`
values (`counts_exact_iff`). The count stays right much longer, and nothing tells that an entry
has wrapped. A negative entry also hides from `Export`, which ends at the last positive one.
-/

set_option autoImplicit false

namespace IstioVendor.Stats

open Lib

/-! ### The values of a bucket -/

namespace Histogram

/-- The number of the values `m` that belong to the bucket `b`. -/
def numIn (h : Histogram) (m : Multiset Rat) (b : Fin numBuckets) : Nat :=
  m.countP fun v => bucket h.offset h.divider v = some b

/-- The number of the values `m` that belong to one of the first `k` buckets. -/
def numBelow (h : Histogram) (m : Multiset Rat) (k : Nat) : Nat :=
  m.countP fun v => (bucket h.offset h.divider v).any (fun b => decide (b.val < k)) = true

section
variable {h : Histogram} {m m' : Multiset Rat}

theorem numIn_add (h : Histogram) (m m' : Multiset Rat) (b : Fin numBuckets) :
    h.numIn (m + m') b = h.numIn m b + h.numIn m' b :=
  Multiset.countP_add _ _ _

theorem numIn_replicate (h : Histogram) (n : Nat) (v : Rat) (b : Fin numBuckets) :
    h.numIn (Multiset.replicate n v) b = if bucket h.offset h.divider v = some b then n else 0 := by
  rw [numIn, ← Multiset.coe_replicate, Multiset.coe_countP, List.countP_replicate]
  simp only [decide_eq_true_eq]

theorem numIn_le_card (h : Histogram) (m : Multiset Rat) (b : Fin numBuckets) :
    h.numIn m b ≤ m.card :=
  Multiset.countP_le_card _ _

theorem numBelow_le_card (h : Histogram) (m : Multiset Rat) (k : Nat) : h.numBelow m k ≤ m.card :=
  Multiset.countP_le_card _ _

theorem numBelow_zero (h : Histogram) (m : Multiset Rat) : h.numBelow m 0 = 0 :=
  Multiset.countP_eq_zero.mpr fun v _ => by cases bucket h.offset h.divider v <;> simp

theorem numBelow_succ (h : Histogram) (m : Multiset Rat) (b : Fin numBuckets) :
    h.numBelow m (b + 1) = h.numBelow m b + h.numIn m b := by
  unfold numBelow numIn
  induction m using Multiset.induction_on with
  | empty => rfl
  | cons v m ih =>
    rw [Multiset.countP_cons, Multiset.countP_cons, Multiset.countP_cons, ih]
    -- A value below `b + 1` is below `b` or in `b`, and never both.
    cases bucket h.offset h.divider v with
    | none => simp
    | some c =>
      simp only [Option.any_some, decide_eq_true_eq, Option.some.injEq, Fin.ext_iff]
      split_ifs <;> omega

end

/-! ### Calls -/

/-- The entries of `Hdata` are the numbers of the values `m`, as far as 32 bits show them. -/
structure Tallied (h : Histogram) (m : Multiset Rat) : Prop where
  count : h.count = int64 m.card
  entry : ∀ b, h.hdata b = BitVec.ofNat 32 (h.numIn m b)

namespace Tallied

variable {h h' src src' : Histogram} {m m' : Multiset Rat}

theorem of_newHistogram {offset divider : Rat} (hnew : newHistogram offset divider = some h) :
    h.Tallied 0 := by
  unfold newHistogram at hnew
  split_ifs at hnew with hd
  cases hnew
  exact ⟨rfl, fun _ => rfl⟩

theorem recordN (hh : h.Tallied m) {v : Rat} {n : Nat} (hrec : h.recordN v n = some h') :
    h'.Tallied (m + Multiset.replicate n v) := by
  rw [Histogram.recordN, Histogram.record_eq] at hrec
  obtain ⟨i, hi, rfl⟩ := Option.map_eq_some_iff.mp hrec
  constructor
  · change int64 (h.count + n) = _
    rw [hh.count, int64_add_int64_left, Multiset.card_add, Multiset.card_replicate, Nat.cast_add]
  · intro b
    change h.hdata b + Pi.single (M := fun _ => BitVec 32) i (BitVec.ofInt 32 n) b
      = BitVec.ofNat 32 (h.numIn _ b)
    have hi' : bucket h.offset h.divider v = some i := hi
    rw [hh.entry, numIn_add, numIn_replicate, hi', BitVec.ofNat_add]
    by_cases hb : b = i
    · subst hb
      rw [Pi.single_eq_same, if_pos rfl, BitVec.ofInt_natCast]
    · rw [Pi.single_eq_of_ne hb, if_neg fun heq => hb (Option.some.inj heq).symm]
      rfl

theorem transfer (hh : h.Tallied m) (hsrc : src.Tallied m') (hoffset : h.offset = src.offset)
    (hdivider : h.divider = src.divider) (hlt : m'.card < 2 ^ 64)
    (ht : h.transfer src = some (h', src')) : h'.Tallied (m + m') ∧ src'.Tallied 0 := by
  have hcount := transfer_count hh.count hsrc.count ht
  rw [transfer_eq] at ht
  split_ifs at ht with h0
  · cases Option.some.inj ht
    rw [hsrc.count, int64_eq_zero hlt, Multiset.card_eq_zero] at h0
    subst h0
    rw [add_zero]
    exact ⟨hh, hsrc⟩
  · rw [contribution, if_pos ⟨hdivider, hoffset⟩, Option.map_some] at ht
    cases Option.some.inj ht
    refine ⟨⟨by rw [Multiset.card_add]; exact hcount, fun b => ?_⟩, rfl, fun _ => rfl⟩
    have hnum : src.numIn m' b = h.numIn m' b := by
      unfold numIn
      rw [hoffset, hdivider]
    change (h.hdata + src.hdata) b = BitVec.ofNat 32 (h.numIn (m + m') b)
    rw [Pi.add_apply, hh.entry, hsrc.entry, hnum, numIn_add, BitVec.ofNat_add]

end Tallied

end Histogram

/-- The calls that do not move values between scales and that make no copies. -/
def counting (hs : List Histogram) : Op → Bool
  | .new _ _ | .record _ _ | .recordN _ _ _ => true
  | .transfer i j =>
    match hs[i]?, hs[j]? with
    | some h, some src => decide (h.offset = src.offset ∧ h.divider = src.divider)
    | _, _ => false
  | .reset _ | .clone _ | .merge _ _ => false

def countingStep (hs : List Histogram) (op : Op) : Option (List Histogram) :=
  if counting hs op then step hs op else none

/-- The histograms after a history of such calls. -/
def countingRun (ops : List Op) : Option (List Histogram) := ops.foldlM countingStep []

/-- The step lemma. -/
theorem tallied_step (op : Op) (hs : List Histogram) (ms : List (Multiset Rat))
    (hs' : List Histogram) (hR : List.Forall₂ Histogram.Tallied hs ms)
    (hwrap : Unwrapped (valuesStep ms op))
    (hstep : countingStep hs op = some hs') :
    List.Forall₂ Histogram.Tallied hs' (valuesStep ms op) := by
  obtain ⟨hcounting, hstep⟩ := Option.ite_none_right_eq_some.mp hstep
  cases called_of_step hstep with
  | new hnew => exact forall₂_concat hR (.of_newHistogram hnew)
  | record hi hrec => exact forall₂_set hR _ ((forall₂_getD hR hi 0).recordN (n := 1) hrec)
  | recordN _ hi hrec => exact forall₂_set hR _ ((forall₂_getD hR hi 0).recordN hrec)
  | transfer hij hi hj ht =>
    simp only [counting, hi, hj, decide_eq_true_eq] at hcounting
    have hlt := hwrap.of_transfer hij (forall₂_lt_length hR hi)
    rw [Multiset.card_add] at hlt
    obtain ⟨hh', hsrc'⟩ := (forall₂_getD hR hi 0).transfer (forall₂_getD hR hj 0)
      hcounting.1 hcounting.2 (by omega) ht
    exact forall₂_set (forall₂_set hR _ hh') _ hsrc'
  | reset | clone | merge => exact Bool.noConfusion hcounting

/-! ### Numbers of values in a history -/

theorem card_sum_set (ms : List (Multiset Rat)) (i : Nat) (m : Multiset Rat) :
    (ms.set i m).sum.card + (ms.getD i 0).card ≤ ms.sum.card + m.card := by
  induction ms generalizing i with
  | nil => simp
  | cons m₀ ms ih =>
    cases i with
    | zero =>
      simp only [List.set_cons_zero, List.sum_cons, Multiset.card_add, List.getD_cons_zero]
      omega
    | succ i =>
      have := ih i
      simp only [List.set_cons_succ, List.sum_cons, Multiset.card_add, List.getD_cons_succ]
      omega

variable {hs hs' : List Histogram}

/-- A call that is possible adds no more values than it records. -/
theorem card_sum_valuesStep {op : Op} (hstep : countingStep hs op = some hs')
    (ms : List (Multiset Rat)) : (valuesStep ms op).sum.card ≤ ms.sum.card + op.recorded := by
  obtain ⟨hcounting, hstep⟩ := Option.ite_none_right_eq_some.mp hstep
  cases op with
  | new offset divider => simp [valuesStep, Op.recorded]
  | record i v =>
    have := card_sum_set ms i (ms.getD i 0 + {v})
    simp only [valuesStep, Op.recorded, Multiset.card_add, Multiset.card_singleton] at *
    omega
  | recordN i v n =>
    have := card_sum_set ms i (ms.getD i 0 + Multiset.replicate n v)
    simp only [valuesStep, Op.recorded, Multiset.card_add, Multiset.card_replicate] at *
    omega
  | transfer i j =>
    obtain ⟨hij, _⟩ := Option.ite_none_left_eq_some.mp hstep
    have hto := card_sum_set ms i (ms.getD i 0 + ms.getD j 0)
    have hfrom := card_sum_set (ms.set i (ms.getD i 0 + ms.getD j 0)) j 0
    have hj : (ms.set i (ms.getD i 0 + ms.getD j 0)).getD j 0 = ms.getD j 0 := by
      rw [List.getD_eq_getElem?_getD, List.getElem?_set_ne hij, List.getD_eq_getElem?_getD]
    rw [hj] at hfrom
    simp only [valuesStep, Op.recorded, Multiset.card_add, Multiset.card_zero] at *
    omega
  | reset i | clone i | merge i j => exact Bool.noConfusion hcounting

/-- No histogram holds more values than were recorded in the whole history. -/
theorem card_sum_values_le {ops pre : List Op} (hrun : ops.foldlM countingStep hs = some hs')
    (hpre : pre <+: ops) (ms : List (Multiset Rat)) :
    (pre.foldl valuesStep ms).sum.card ≤ ms.sum.card + (ops.map Op.recorded).sum := by
  induction ops generalizing hs ms pre with
  | nil =>
    obtain rfl := List.prefix_nil.mp hpre
    exact Nat.le_add_right _ _
  | cons op ops ih =>
    obtain ⟨hs₁, hstep, hrest⟩ := Option.bind_eq_some_iff.mp hrun
    rcases List.prefix_cons_iff.mp hpre with rfl | ⟨pre', rfl, hpre'⟩
    · exact Nat.le_add_right _ _
    · have hone := card_sum_valuesStep hstep ms
      have hmore := ih hrest hpre' (valuesStep ms op)
      rw [List.foldl_cons, List.map_cons, List.sum_cons]
      omega

theorem card_le_of_countingRun {ops pre : List Op} (hrun : countingRun ops = some hs)
    (hpre : pre <+: ops) {m : Multiset Rat} (hm : m ∈ values pre) :
    m.card ≤ (ops.map Op.recorded).sum := by
  have hsum := card_sum_values_le hrun hpre []
  have hle := Multiset.card_le_card (List.le_sum_of_mem hm)
  unfold values at hle
  simp only [List.sum_nil, Multiset.card_zero, Nat.zero_add] at hsum
  omega

/-- The run lemma. -/
theorem tallied_run {ops : List Op} (hrun : countingRun ops = some hs)
    (htotal : (ops.map Op.recorded).sum < 2 ^ 63) :
    List.Forall₂ Histogram.Tallied hs (values ops) := by
  refine simulation tallied_step .nil (fun pre hpre m hm => ?_) hrun
  have := card_le_of_countingRun hrun hpre hm
  omega

/-! ### Exact counts -/

namespace Histogram

/-- The entries of `Hdata` are the numbers of the values `m`, and `Export` reports them with the
percents of the values so far. -/
structure CountsExact (h : Histogram) (m : Multiset Rat) : Prop where
  entry : ∀ b, (h.hdata b).toInt = h.numIn m b
  exported : h.exportData.data.map (fun e => (e.count, e.percent))
    = ((List.finRange numBuckets).filter fun b => 0 < h.numIn m b).map fun b =>
        ((h.numIn m b : Int), 100 * (h.numBelow m (b.val + 1) : Rat) / m.card)

variable {h : Histogram} {m : Multiset Rat}

theorem below_eq_numBelow (hentry : ∀ b, (h.hdata b).toInt = h.numIn m b) {k : Nat}
    (hk : k ≤ numBuckets) : h.below k = h.numBelow m k := by
  induction k with
  | zero => rw [numBelow_zero]; rfl
  | succ k ih =>
    have hbelow := h.below_succ ⟨k, hk⟩
    have hnum := h.numBelow_succ m ⟨k, hk⟩
    rw [hentry] at hbelow
    simp only at hbelow hnum
    omega

theorem countsExact_of_entry (hcount : h.count = m.card) (hlt : m.card < 2 ^ 63)
    (hentry : ∀ b, (h.hdata b).toInt = h.numIn m b) : h.CountsExact m := by
  have htally : Tally h.hdata (h.numBelow m numBuckets) := by
    refine ⟨fun b => ?_, ?_⟩
    · rw [hentry]
      exact Int.natCast_nonneg _
    · rw [← below_all, below_eq_numBelow hentry le_rfl]
  have hfilled : h.filled = (List.finRange numBuckets).filter fun b => 0 < h.numIn m b := by
    refine List.filter_congr fun b _ => ?_
    have hb := hentry b
    rw [decide_eq_decide, ne_eq, ← toInt_eq_zero_iff, hb]
    omega
  refine ⟨hentry, ?_⟩
  rw [exportData_data htally ((h.numBelow_le_card m _).trans_lt hlt), hfilled, List.map_map]
  refine List.map_congr_left fun b _ => ?_
  change ((h.hdata b).toInt, 100 * (h.below (b.val + 1) : Rat) / h.count) = _
  rw [hentry, below_eq_numBelow hentry b.isLt, hcount, Int.cast_natCast, Int.cast_natCast]

end Histogram

/-- After every history of records and of transfers within a scale, of fewer than `2 ^ 63` values,
the entries of a histogram are exact and exported exactly when none of its buckets holds
`2 ^ 31` values. -/
theorem counts_exact_iff (ops : List Op) (hs : List Histogram) (hrun : countingRun ops = some hs)
    (htotal : (ops.map Op.recorded).sum < 2 ^ 63) (i : Nat) (h : Histogram)
    (hi : hs[i]? = some h) (m : Multiset Rat) (hm : (values ops)[i]? = some m) :
    h.CountsExact m ↔ ∀ b, h.numIn m b < 2 ^ 31 := by
  obtain ⟨m', hm', htallied⟩ := forall₂_getElem? (tallied_run hrun htotal) hi
  obtain rfl : m' = m := Option.some.inj (hm'.symm.trans hm)
  have hcard := card_le_of_countingRun hrun List.prefix_rfl (List.mem_of_getElem? hm)
  constructor
  · intro hexact b
    have hb := hexact.entry b
    have := (h.hdata b).toInt_lt
    omega
  · intro hlt
    refine Histogram.countsExact_of_entry ?_ (by omega) fun b => ?_
    · exact htallied.count.trans (int64_of_nat (by omega))
    · have := hlt b
      rw [htallied.entry, BitVec.toInt_ofNat']
      exact Int.bmod_eq_of_le (by omega) (by omega)

/-- Two histograms of one scale, with a transfer. -/
def transferHistory : List Op :=
  [.new 0 1, .recordN 0 5 3, .new 0 1, .record 1 5, .record 1 9, .transfer 0 1]

theorem counts_exact_transfer :
    ∃ hs h, countingRun transferHistory = some hs ∧ hs[0]? = some h ∧
      h.CountsExact {5, 5, 5, 5, 9} ∧ h.exportData.data.map Bucket.count = [4, 1] := by
  obtain ⟨hs, hrun, hlen⟩ := (Option.any_eq_true _ _).mp
    (show (countingRun transferHistory).any (fun hs => hs[0]?.any fun h =>
      decide (h.exportData.data.map Bucket.count = [4, 1])) = true by decide +kernel)
  obtain ⟨h, hh, hcounts⟩ := (Option.any_eq_true _ _).mp hlen
  have hlt : ∀ b, h.numIn {5, 5, 5, 5, 9} b < 2 ^ 31 := fun b =>
    (h.numIn_le_card _ b).trans_lt (by decide)
  exact ⟨hs, h, hrun, hh, (counts_exact_iff transferHistory hs hrun (by decide) 0 h hh
    {5, 5, 5, 5, 9} (by decide +kernel)).mpr hlt, of_decide_eq_true hcounts⟩

/-- A bucket that is filled with one call. -/
def fullHistory : List Op := [.new 0 1, .record 0 1, .recordN 0 5 (2 ^ 31)]

/-- The entry is negative, while the count is right. The export lists one value of all of them. -/
theorem full_bucket_wraps :
    (fullHistory.map Op.recorded).sum < 2 ^ 63 ∧
      ∃ hs h m b, countingRun fullHistory = some hs ∧ hs[0]? = some h ∧
        (values fullHistory)[0]? = some m ∧ h.count = 2 ^ 31 + 1 ∧
        (h.hdata b).toInt = - 2 ^ 31 ∧ (h.hdata b).toInt ≠ h.numIn m b ∧
        h.exportData.data.map Bucket.count = [1] ∧ ¬ h.CountsExact m := by
  refine ⟨by decide +kernel, ?_⟩
  have hany : (countingRun fullHistory).any (fun hs => hs[0]?.any fun h =>
      decide (h.count = 2 ^ 31 + 1 ∧ (h.hdata ⟨5, by decide⟩).toInt = - 2 ^ 31 ∧
        h.exportData.data.map Bucket.count = [1])) = true := by decide +kernel
  obtain ⟨hs, hrun, hh⟩ := (Option.any_eq_true _ _).mp hany
  obtain ⟨h, hi, hcheck⟩ := (Option.any_eq_true _ _).mp hh
  obtain ⟨hcount, hneg, hlisted⟩ := of_decide_eq_true hcheck
  have hne : ∀ m, (h.hdata ⟨5, by decide⟩).toInt ≠ h.numIn m ⟨5, by decide⟩ := fun m heq => by
    omega
  exact ⟨hs, h, _, _, hrun, hi, rfl, hcount, hneg, hne _, hlisted,
    fun hexact => hne _ (hexact.entry _)⟩

end IstioVendor.Stats
