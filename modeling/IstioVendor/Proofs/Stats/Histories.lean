import IstioVendor.Proofs.Stats.Counts

/-!
# `IstioVendor.Proofs.Stats.Histories`: histograms over whole histories

A program makes histograms and calls their methods. `step` runs one call on the list of its
histograms. `valuesStep` is what the call should mean for the values: each histogram stands
for a multiset of values, and a call adds, moves, copies or drops values.

`follows_run` is the refinement. A histogram with fewer than `2 ^ 31` values stands for them,
whatever the other ones hold. `history_invariant` reads it off: the entries of `Hdata` are not
negative and add up to the count, and the counter has the extremes and the sum of the values.
`Clone` copies values without a new record, and so a few recorded values are enough to wrap an
entry (`history_wraps_by_clone`).
-/

set_option autoImplicit false

namespace IstioVendor.Stats

open Lib

/-! ### Calls -/

/-- A call on the histograms of a program, which have numbers in the order of their
creation. -/
inductive Op where
  | new (offset divider : Rat)
  | record (i : Nat) (v : Rat)
  | recordN (i : Nat) (v : Rat) (n : Nat)
  | reset (i : Nat)
  | clone (i : Nat)
  | transfer (i j : Nat)
  | merge (i j : Nat)

/-- The call on the histograms. `none` is a call that ends the process, or one that the
histories do not make: on a histogram that does not exist, of `RecordN` for no values, or of
`Transfer` and `Merge` for one histogram in both places. -/
def step (hs : List Histogram) : Op → Option (List Histogram)
  | .new offset divider => (newHistogram offset divider).map fun h => hs ++ [h]
  | .record i v => do
      let h ← hs[i]?
      let h' ← h.recordOne v
      some (hs.set i h')
  | .recordN i v n =>
    if n = 0 then none
    else do
      let h ← hs[i]?
      let h' ← h.recordN v n
      some (hs.set i h')
  | .reset i => hs[i]?.map fun h => hs.set i h.reset
  | .clone i => do
      let h ← hs[i]?
      let h' ← h.clone
      some (hs ++ [h'])
  | .transfer i j =>
    if i = j then none
    else do
      let h ← hs[i]?
      let src ← hs[j]?
      let (h', src') ← h.transfer src
      some ((hs.set i h').set j src')
  | .merge i j =>
    if i = j then none
    else do
      let h1 ← hs[i]?
      let h2 ← hs[j]?
      let (newH, h1', h2') ← merge h1 h2
      some ((hs.set i h1').set j h2' ++ [newH])

/-- What each call does when it is made. -/
inductive Called (hs : List Histogram) : Op → List Histogram → Prop where
  | new {offset divider : Rat} {h : Histogram} (hnew : newHistogram offset divider = some h) :
      Called hs (.new offset divider) (hs ++ [h])
  | record {i : Nat} {v : Rat} {h h' : Histogram} (hi : hs[i]? = some h)
      (hrec : h.recordN v 1 = some h') : Called hs (.record i v) (hs.set i h')
  | recordN {i : Nat} {v : Rat} {n : Nat} {h h' : Histogram} (hn : n ≠ 0) (hi : hs[i]? = some h)
      (hrec : h.recordN v n = some h') : Called hs (.recordN i v n) (hs.set i h')
  | reset {i : Nat} {h : Histogram} (hi : hs[i]? = some h) : Called hs (.reset i) (hs.set i h.reset)
  | clone {i : Nat} {h h' : Histogram} (hi : hs[i]? = some h) (hclone : h.clone = some h') :
      Called hs (.clone i) (hs ++ [h'])
  | transfer {i j : Nat} {h src h' src' : Histogram} (hij : i ≠ j) (hi : hs[i]? = some h)
      (hj : hs[j]? = some src) (ht : h.transfer src = some (h', src')) :
      Called hs (.transfer i j) ((hs.set i h').set j src')
  | merge {i j : Nat} {h1 h2 newH h1' h2' : Histogram} (hij : i ≠ j) (hi : hs[i]? = some h1)
      (hj : hs[j]? = some h2) (hmerge : merge h1 h2 = some (newH, h1', h2')) :
      Called hs (.merge i j) ((hs.set i h1').set j h2' ++ [newH])

theorem called_of_step {hs hs' : List Histogram} {op : Op} (hstep : step hs op = some hs') :
    Called hs op hs' := by
  cases op with
  | new offset divider =>
    obtain ⟨h, hnew, rfl⟩ := Option.map_eq_some_iff.mp hstep
    exact .new hnew
  | record i v =>
    obtain ⟨h, hi, hstep⟩ := Option.bind_eq_some_iff.mp hstep
    obtain ⟨h', hrec, ⟨⟩⟩ := Option.bind_eq_some_iff.mp hstep
    exact .record hi hrec
  | recordN i v n =>
    obtain ⟨hn, hstep⟩ := Option.ite_none_left_eq_some.mp hstep
    obtain ⟨h, hi, hstep⟩ := Option.bind_eq_some_iff.mp hstep
    obtain ⟨h', hrec, ⟨⟩⟩ := Option.bind_eq_some_iff.mp hstep
    exact .recordN hn hi hrec
  | reset i =>
    obtain ⟨h, hi, rfl⟩ := Option.map_eq_some_iff.mp hstep
    exact .reset hi
  | clone i =>
    obtain ⟨h, hi, hstep⟩ := Option.bind_eq_some_iff.mp hstep
    obtain ⟨h', hclone, ⟨⟩⟩ := Option.bind_eq_some_iff.mp hstep
    exact .clone hi hclone
  | transfer i j =>
    obtain ⟨hij, hstep⟩ := Option.ite_none_left_eq_some.mp hstep
    obtain ⟨h, hi, hstep⟩ := Option.bind_eq_some_iff.mp hstep
    obtain ⟨src, hj, hstep⟩ := Option.bind_eq_some_iff.mp hstep
    obtain ⟨⟨h', src'⟩, ht, ⟨⟩⟩ := Option.bind_eq_some_iff.mp hstep
    exact .transfer hij hi hj ht
  | merge i j =>
    obtain ⟨hij, hstep⟩ := Option.ite_none_left_eq_some.mp hstep
    obtain ⟨h1, hi, hstep⟩ := Option.bind_eq_some_iff.mp hstep
    obtain ⟨h2, hj, hstep⟩ := Option.bind_eq_some_iff.mp hstep
    obtain ⟨⟨newH, h1', h2'⟩, hmerge, ⟨⟩⟩ := Option.bind_eq_some_iff.mp hstep
    exact .merge hij hi hj hmerge

/-- The call on the values that the histograms stand for. -/
def valuesStep (ms : List (Multiset Rat)) : Op → List (Multiset Rat)
  | .new _ _ => ms ++ [0]
  | .record i v => ms.set i (ms.getD i 0 + {v})
  | .recordN i v n => ms.set i (ms.getD i 0 + Multiset.replicate n v)
  | .reset i => ms.set i 0
  | .clone i => ms ++ [ms.getD i 0]
  | .transfer i j => (ms.set i (ms.getD i 0 + ms.getD j 0)).set j 0
  | .merge i j => (ms.set i 0).set j 0 ++ [ms.getD i 0 + ms.getD j 0]

/-- The histograms after a history, from a program that has none. -/
def run (ops : List Op) : Option (List Histogram) := ops.foldlM step []

/-- The values that each histogram stands for after a history. -/
def values (ops : List Op) : List (Multiset Rat) := ops.foldl valuesStep []

/-! ### One call -/

/-- The histogram stands for the values `m`. -/
structure Histogram.Holds (h : Histogram) (m : Multiset Rat) : Prop where
  counter : h.toCounter.Holds m
  tally : Tally h.hdata m.card

namespace Histogram.Holds

variable {h h' src src' : Histogram} {m m' : Multiset Rat}

theorem blank (offset divider : Rat) (hd : divider ≠ 0) :
    (Histogram.blank offset divider hd).Holds 0 :=
  ⟨.zero, .zero⟩

theorem of_newHistogram {offset divider : Rat} (hnew : newHistogram offset divider = some h) :
    h.Holds 0 := by
  unfold newHistogram at hnew
  split_ifs at hnew with hd
  cases hnew
  exact .blank _ _ hd

theorem recordN (hh : h.Holds m) {v : Rat} {n : Nat} (hn : n ≠ 0) (hlt : m.card + n < 2 ^ 31)
    (hrec : h.recordN v n = some h') : h'.Holds (m + Multiset.replicate n v) := by
  rw [Histogram.recordN, Histogram.record_eq] at hrec
  obtain ⟨i, _, rfl⟩ := Option.map_eq_some_iff.mp hrec
  refine ⟨hh.counter.recordN v hn (by omega), ?_⟩
  rw [Multiset.card_add, Multiset.card_replicate]
  exact hh.tally.add (.single i (by omega)) hlt

theorem transfer (hh : h.Holds m) (hsrc : src.Holds m') (hlt : m.card + m'.card < 2 ^ 31)
    (ht : h.transfer src = some (h', src')) : h'.Holds (m + m') := by
  rw [Histogram.transfer_eq] at ht
  split_ifs at ht with h0
  · cases Option.some.inj ht
    obtain rfl := (hsrc.counter.count_eq_zero (by omega)).mp h0
    rw [add_zero]
    exact hh
  · obtain ⟨d, hd, ⟨⟩⟩ := Option.map_eq_some_iff.mp ht
    refine ⟨hh.counter.transfer hsrc.counter (by omega) (by omega), ?_⟩
    rw [Multiset.card_add]
    exact hh.tally.add (Histogram.tally_contribution hsrc.tally (by omega) hd) hlt

end Histogram.Holds

/-- The count is that of the values `m`, however many they are, and the histogram stands for them
while they are fewer than `2 ^ 31`. -/
structure Histogram.Follows (h : Histogram) (m : Multiset Rat) : Prop where
  count : h.count = int64 m.card
  holds : m.card < 2 ^ 31 → h.Holds m

theorem Histogram.Holds.follows {h : Histogram} {m : Multiset Rat} (hh : h.Holds m) : h.Follows m :=
  ⟨hh.counter.count, fun _ => hh⟩

namespace Histogram.Follows

variable {h h' src src' : Histogram} {m m' : Multiset Rat}

theorem recordN (hh : h.Follows m) {v : Rat} {n : Nat} (hn : n ≠ 0)
    (hrec : h.recordN v n = some h') : h'.Follows (m + Multiset.replicate n v) := by
  constructor
  · rw [Histogram.recordN, Histogram.record_eq] at hrec
    obtain ⟨i, _, rfl⟩ := Option.map_eq_some_iff.mp hrec
    change int64 (h.count + n) = _
    rw [hh.count, int64_add_int64_left, Multiset.card_add, Multiset.card_replicate, Nat.cast_add]
  · intro hlt
    rw [Multiset.card_add, Multiset.card_replicate] at hlt
    exact (hh.holds (by omega)).recordN hn hlt hrec

/-- `Transfer` leaves nothing behind, unless the count of `src` has come around to zero. -/
theorem transfer_left (hsrc : src.Follows m') (hlt : m'.card < 2 ^ 64)
    (ht : h.transfer src = some (h', src')) : src'.Follows 0 := by
  rw [Histogram.transfer_eq] at ht
  split_ifs at ht with h0
  · cases Option.some.inj ht
    rw [hsrc.count, int64_eq_zero hlt, Multiset.card_eq_zero] at h0
    exact h0 ▸ hsrc
  · obtain ⟨d, _, ⟨⟩⟩ := Option.map_eq_some_iff.mp ht
    exact (Holds.blank _ _ src.divider_ne).follows

theorem transfer (hh : h.Follows m) (hsrc : src.Follows m')
    (ht : h.transfer src = some (h', src')) : h'.Follows (m + m') := by
  constructor
  · rw [Multiset.card_add]
    exact Histogram.transfer_count hh.count hsrc.count ht
  · intro hlt
    rw [Multiset.card_add] at hlt
    exact (hh.holds (by omega)).transfer (hsrc.holds (by omega)) hlt ht

theorem merge {h1 h2 newH h1' h2' : Histogram} (hh1 : h1.Follows m) (hh2 : h2.Follows m')
    (hlt : m.card + m'.card < 2 ^ 64) (hm : Stats.merge h1 h2 = some (newH, h1', h2')) :
    newH.Follows (m + m') ∧ h1'.Follows 0 ∧ h2'.Follows 0 := by
  obtain ⟨h₀, hnew, hm⟩ := Option.bind_eq_some_iff.mp hm
  obtain ⟨⟨h₁, h1''⟩, ht1, hm⟩ := Option.bind_eq_some_iff.mp hm
  obtain ⟨⟨h₂, h2''⟩, ht2, hm⟩ := Option.bind_eq_some_iff.mp hm
  obtain ⟨rfl, ⟨⟩⟩ := Prod.mk.inj (Option.some.inj hm)
  have hfirst := (Holds.of_newHistogram hnew).follows.transfer hh1 ht1
  rw [zero_add] at hfirst
  exact ⟨hfirst.transfer hh2 ht2, hh1.transfer_left (by omega) ht1,
    hh2.transfer_left (by omega) ht2⟩

end Histogram.Follows

/-- No count has come around to zero. -/
def Unwrapped (ms : List (Multiset Rat)) : Prop := ∀ m ∈ ms, m.card < 2 ^ 64

section
variable {hs hs' : List Histogram} {ms : List (Multiset Rat)} {op : Op}

/-- The values that a transfer brings together. -/
theorem Unwrapped.of_transfer {i j : Nat} {moved : Multiset Rat}
    (hwrap : Unwrapped ((ms.set i moved).set j 0)) (hij : i ≠ j) (hi : i < ms.length) :
    moved.card < 2 ^ 64 :=
  hwrap moved (mem_set_set hij hi)

/-- A call keeps the histograms in agreement with their values. -/
theorem Called.follows (hcall : Called hs op hs') (hR : List.Forall₂ Histogram.Follows hs ms)
    (hwrap : Unwrapped (valuesStep ms op)) :
    List.Forall₂ Histogram.Follows hs' (valuesStep ms op) := by
  cases hcall with
  | new hnew => exact forall₂_concat hR (Histogram.Holds.of_newHistogram hnew).follows
  | record hi hrec => exact forall₂_set hR _ ((forall₂_getD hR hi 0).recordN Nat.one_ne_zero hrec)
  | recordN hn hi hrec => exact forall₂_set hR _ ((forall₂_getD hR hi 0).recordN hn hrec)
  | @reset i h hi => exact forall₂_set hR i (Histogram.Holds.blank _ _ h.divider_ne).follows
  | @clone i h h' hi hclone =>
    cases h.clone_eq.symm.trans hclone
    exact forall₂_concat hR (forall₂_getD hR hi 0)
  | transfer hij hi hj ht =>
    have hh := forall₂_getD hR hi 0
    have hsrc := forall₂_getD hR hj 0
    have hlt := hwrap.of_transfer hij (forall₂_lt_length hR hi)
    rw [Multiset.card_add] at hlt
    have hsrc' := hsrc.transfer_left (by omega) ht
    exact forall₂_set (forall₂_set hR _ (hh.transfer hsrc ht)) _ hsrc'
  | @merge i j _ _ _ _ _ hij hi hj hmerge =>
    have hlt := hwrap (ms.getD i 0 + ms.getD j 0) (by simp [valuesStep])
    rw [Multiset.card_add] at hlt
    obtain ⟨hnew, h1Empty, h2Empty⟩ :=
      (forall₂_getD hR hi 0).merge (forall₂_getD hR hj 0) hlt hmerge
    exact forall₂_concat (forall₂_set (forall₂_set hR _ h1Empty) _ h2Empty) hnew

end

/-- The step lemma. -/
theorem follows_step (op : Op) (hs : List Histogram) (ms : List (Multiset Rat))
    (hs' : List Histogram) (hR : List.Forall₂ Histogram.Follows hs ms)
    (hwrap : Unwrapped (valuesStep ms op)) (hstep : step hs op = some hs') :
    List.Forall₂ Histogram.Follows hs' (valuesStep ms op) :=
  (called_of_step hstep).follows hR hwrap

/-! ### Histories -/

/-- The run lemma: after a history, every histogram agrees with its values. -/
theorem follows_run {ops : List Op} {hs : List Histogram} (hrun : run ops = some hs)
    (hwrap : ∀ pre, pre <+: ops → Unwrapped (values pre)) :
    List.Forall₂ Histogram.Follows hs (values ops) :=
  simulation follows_step .nil hwrap hrun

/-- After every history in which no histogram comes to hold `2 ^ 31` values: the entries of
`Hdata` are not negative and add up to the count, and the minimum, the maximum and the sum
are those of the values. -/
theorem history_invariant (ops : List Op) (hs : List Histogram) (hrun : run ops = some hs)
    (hsmall : ∀ pre, pre <+: ops → ∀ m ∈ values pre, m.card < 2 ^ 31)
    (i : Nat) (h : Histogram) (hi : hs[i]? = some h) :
    ∃ m, (values ops)[i]? = some m ∧
      (∀ b, 0 ≤ (h.hdata b).toInt) ∧ ∑ b, (h.hdata b).toInt = h.count ∧ h.count = m.card ∧
      (0 < h.count → IsLeast {v | v ∈ m} h.min ∧ IsGreatest {v | v ∈ m} h.max ∧ h.sum = m.sum) := by
  have hwrap : ∀ pre, pre <+: ops → Unwrapped (values pre) := fun pre hpre m hm =>
    (hsmall pre hpre m hm).trans (by decide)
  obtain ⟨m, hm, hfollows⟩ := forall₂_getElem? (follows_run hrun hwrap) hi
  have hcard := hsmall ops List.prefix_rfl m (List.mem_of_getElem? hm)
  have hh := hfollows.holds hcard
  have hcount : h.count = m.card := hh.counter.count.trans (int64_of_nat (by omega))
  refine ⟨m, hm, hh.tally.nonneg, hh.tally.total.trans hcount.symm, hcount, fun hpos => ?_⟩
  have hx := hh.counter.extremes fun h0 =>
    hpos.ne' ((hh.counter.count_eq_zero (by omega)).mpr h0)
  exact ⟨⟨hx.lo_mem, hx.le⟩, ⟨hx.hi_mem, hx.ge⟩, hh.counter.sum⟩

/-- A history with a transfer to another scale and a merge. -/
def sampleHistory : List Op :=
  [.new 0 1, .record 0 3, .new 1 2, .recordN 1 5 2, .clone 0, .transfer 0 1, .merge 0 2]

theorem history_invariant_sample :
    ∃ hs h, run sampleHistory = some hs ∧ hs[3]? = some h ∧
      (∀ b, 0 ≤ (h.hdata b).toInt) ∧ ∑ b, (h.hdata b).toInt = h.count ∧ h.count = 4 ∧
      IsLeast {v : Rat | v ∈ ({3, 5, 5, 3} : Multiset Rat)} h.min ∧
      IsGreatest {v : Rat | v ∈ ({3, 5, 5, 3} : Multiset Rat)} h.max ∧ h.sum = 16 := by
  have hsmall : ∀ pre ∈ sampleHistory.inits, ∀ m ∈ values pre, m.card < 2 ^ 31 := by decide +kernel
  obtain ⟨hs, hrun, hlen⟩ := (Option.any_eq_true _ _).mp
    (show (run sampleHistory).any (fun hs => decide (3 < hs.length)) = true by decide +kernel)
  have hh : hs[3]? = some _ := List.getElem?_eq_getElem (of_decide_eq_true hlen)
  obtain ⟨m, hm, hnonneg, hsum, hcount, hrest⟩ := history_invariant sampleHistory hs hrun
    (fun pre hpre => hsmall pre ((List.mem_inits _ _).mpr hpre)) 3 _ hh
  obtain rfl : ({3, 5, 5, 3} : Multiset Rat) = m :=
    Option.some.inj ((show some _ = (values sampleHistory)[3]? by decide +kernel).trans hm)
  obtain ⟨hmin, hmax, htotal⟩ := hrest (by rw [hcount]; decide)
  exact ⟨hs, _, hrun, hh, hnonneg, hsum, hcount.trans (by decide), hmin, hmax,
    htotal.trans (by decide +kernel)⟩

/-- The number of values that a call records. -/
def Op.recorded : Op → Nat
  | .record _ _ => 1
  | .recordN _ _ n => n
  | _ => 0

/-- Half of `2 ^ 31` values are recorded, copied by `Clone`, and brought back. -/
def cloneHistory : List Op := [.new 0 1, .recordN 0 1 (2 ^ 30), .clone 0, .transfer 0 1]

theorem history_wraps_by_clone :
    (cloneHistory.map Op.recorded).sum < 2 ^ 31 ∧
      ∃ hs h b, run cloneHistory = some hs ∧ hs[0]? = some h ∧ (h.hdata b).toInt < 0 := by
  refine ⟨by decide, ?_⟩
  have hany : (run cloneHistory).any (fun hs => hs[0]?.any fun h =>
      decide ((h.hdata ⟨1, by decide⟩).toInt < 0)) = true := by decide +kernel
  obtain ⟨hs, hrun, hh⟩ := (Option.any_eq_true _ _).mp hany
  obtain ⟨h, hi, hneg⟩ := (Option.any_eq_true _ _).mp hh
  exact ⟨hs, h, _, hrun, hi, of_decide_eq_true hneg⟩

end IstioVendor.Stats
