import IstioVendor.Proofs.Stats.Histories

/-!
# `IstioVendor.Proofs.Stats.Copies`: what `CopyFrom` leaves in its receiver

`CopyFrom` is documented to set the content of the receiver to a copy of `src`. It overwrites the
counter, and it leaves the buckets to `copyHDataFrom`, which appends. So the receiver becomes
a copy exactly when its own buckets were all zero (`copyFrom_isCopy_iff`).

The callers in the package are on the safe side: `Clone` copies to a new histogram, and
`Transfer` to one whose count is zero. `history_transfer_copies` says that a count of zero is
enough in every history in which no histogram holds `2 ^ 31` values.
-/

set_option autoImplicit false

namespace IstioVendor.Stats

open Lib

namespace Histogram

/-- The entries of `Hdata` add up to the count. -/
def Balanced (h : Histogram) : Prop := ∑ i, (h.hdata i).toInt = h.count

instance decidableBalanced (h : Histogram) : Decidable h.Balanced := Int.instDecidableEq _ _

/-- The content of `h` is a copy of the content of `src`. -/
structure IsCopy (h src : Histogram) : Prop where
  counter : h.toCounter = src.toCounter
  hdata : h.hdata = src.hdata
  balanced : src.Balanced → h.Balanced
  exported : h.exportData = src.exportData

theorem IsCopy.refl (h : Histogram) : h.IsCopy h := ⟨rfl, rfl, id, rfl⟩

/-- At the same scale, `CopyFrom` takes the counter of `src` and adds its buckets. -/
theorem copyFrom_eq {h src : Histogram} (hoffset : h.offset = src.offset)
    (hdivider : h.divider = src.divider) :
    h.copyFrom src = some { src with hdata := h.hdata + src.hdata } := by
  rw [copyFrom, copyHDataFrom_eq, contribution, if_pos ⟨hdivider, hoffset⟩, Option.map_some]
  simp only [hoffset, hdivider]

theorem isCopy_of_zero {h src : Histogram} (hoffset : h.offset = src.offset)
    (hdivider : h.divider = src.divider) (hzero : ∀ i, h.hdata i = 0) :
    ∃ h', h.copyFrom src = some h' ∧ h'.IsCopy src := by
  have hcopied := copyFrom_eq hoffset hdivider
  rw [show h.hdata = 0 from funext hzero, zero_add] at hcopied
  exact ⟨src, hcopied, .refl src⟩

/-- `CopyFrom` makes its receiver a copy exactly when the buckets of the receiver are zero. -/
theorem copyFrom_isCopy_iff (h src : Histogram) (hoffset : h.offset = src.offset)
    (hdivider : h.divider = src.divider) :
    (∃ h', h.copyFrom src = some h' ∧ h'.IsCopy src) ↔ ∀ i, h.hdata i = 0 := by
  constructor
  · rintro ⟨h', heq, hcopy⟩ i
    rw [copyFrom_eq hoffset hdivider] at heq
    cases heq
    have hi : h.hdata i + src.hdata i = src.hdata i := congrFun hcopy.hdata i
    exact add_eq_right.mp hi
  · exact isCopy_of_zero hoffset hdivider

/-- A new histogram becomes a copy. -/
theorem copyFrom_isCopy_blank :
    ∃ src h, (blank 0 1 one_ne_zero).recordN 5 2 = some src ∧
      (blank 0 1 one_ne_zero).copyFrom src = some h ∧ h.IsCopy src ∧ h.count = 2 := by
  obtain ⟨src, hsrc, hcheck⟩ := (Option.any_eq_true _ _).mp
    (show ((blank 0 1 one_ne_zero).recordN 5 2).any (fun src =>
      decide (src.offset = 0 ∧ src.divider = 1 ∧ src.count = 2)) = true by decide +kernel)
  obtain ⟨hoffset, hdivider, hcount⟩ := of_decide_eq_true hcheck
  obtain ⟨h, heq, hcopy⟩ := (copyFrom_isCopy_iff (blank 0 1 one_ne_zero) src hoffset.symm
    hdivider.symm).mpr fun _ => rfl
  exact ⟨src, h, hsrc, heq, hcopy, (congrArg Counter.count hcopy.counter).trans hcount⟩

/-- One value is copied over another one. The counter says one value, and the buckets two. -/
theorem copyFrom_keeps_old_buckets :
    ∃ h src h', (blank 0 1 one_ne_zero).recordOne 5 = some h ∧
      (blank 0 1 one_ne_zero).recordOne 30 = some src ∧ h.copyFrom src = some h' ∧
      src.Balanced ∧ h'.count = 1 ∧ ∑ i, (h'.hdata i).toInt = 2 ∧ h'.hdata ≠ src.hdata ∧
      h'.exportData.data.length = 2 ∧ src.exportData.data.length = 1 := by
  have hrun : ((blank 0 1 one_ne_zero).recordOne 5).any (fun h =>
      ((blank 0 1 one_ne_zero).recordOne 30).any fun src => (h.copyFrom src).any fun h' =>
        decide (src.Balanced ∧ h'.count = 1 ∧
          ∑ i, (h'.hdata i).toInt = 2 ∧ h'.hdata ≠ src.hdata ∧
          h'.exportData.data.length = 2 ∧ src.exportData.data.length = 1)) = true := by
    decide +kernel
  obtain ⟨h, hh, hrun⟩ := (Option.any_eq_true _ _).mp hrun
  obtain ⟨src, hsrc, hrun⟩ := (Option.any_eq_true _ _).mp hrun
  obtain ⟨h', hcopy, hcheck⟩ := (Option.any_eq_true _ _).mp hrun
  exact ⟨h, src, h', hh, hsrc, hcopy, of_decide_eq_true hcheck⟩

end Histogram

/-- In a history, `Transfer` calls `CopyFrom` on a histogram that has nothing in its buckets. -/
theorem history_transfer_copies {ops : List Op} {hs : List Histogram} (hrun : run ops = some hs)
    (hsmall : ∀ pre, pre <+: ops → ∀ m ∈ values pre, m.card < 2 ^ 31) {h src : Histogram}
    (hh : h ∈ hs) (hzero : h.count = 0) (hoffset : h.offset = src.offset)
    (hdivider : h.divider = src.divider) : ∃ h', h.copyFrom src = some h' ∧ h'.IsCopy src := by
  have hwrap : ∀ pre, pre <+: ops → Unwrapped (values pre) := fun pre hpre m hm =>
    (hsmall pre hpre m hm).trans (by decide)
  obtain ⟨i, hi⟩ := List.mem_iff_getElem?.mp hh
  obtain ⟨m, hm, hfollows⟩ := forall₂_getElem? (follows_run hrun hwrap) hi
  have hcard := hsmall ops List.prefix_rfl m (List.mem_of_getElem? hm)
  have htally := (hfollows.holds hcard).tally
  -- The counters of an empty histogram are not negative and add up to zero.
  have hempty : m.card = 0 := (int64_eq_zero (by omega)).mp (hfollows.count.symm.trans hzero)
  refine Histogram.isCopy_of_zero hoffset hdivider fun b => ?_
  have hle := htally.le b
  have hge := htally.nonneg b
  have hb : (h.hdata b).toInt = 0 := by omega
  exact BitVec.toInt_inj.mp (hb.trans BitVec.toInt_zero.symm)

end IstioVendor.Stats
