import IstioVendor.Proofs.Stats.Sharding

/-!
# `IstioVendor.Proofs.Stats.Counts`: the count of a histogram

Whatever the values are, and also when a count wraps, `recordAll` adds the number of the values
to the count (`recordAll_count`), and `transferAll` adds the counts of the workers
(`transferAll_count`). A worker that is skipped because its count is zero has nothing to add.
-/

set_option autoImplicit false

namespace IstioVendor.Stats

open Lib

theorem Counter.transfer_count {c src : Counter} {a b : Nat} (hc : c.count = int64 a)
    (hsrc : src.count = int64 b) : (c.transfer src).1.count = int64 (a + b : Nat) := by
  rw [Nat.cast_add, ← int64_add_int64, ← hc, ← hsrc]
  unfold Counter.transfer
  by_cases h0 : src.count = 0
  · rw [if_pos h0, h0, add_zero, hc, int64_int64]
  by_cases h1 : c.count = 0
  · rw [if_neg h0, if_pos h1, h1, zero_add, hsrc, int64_int64]
  · rw [if_neg h0, if_neg h1]

namespace Histogram

variable {h h' src : Histogram}

theorem recordAll_count {vs : List Rat} {n : Nat} (hc : h.count = int64 n)
    (hrec : h.recordAll vs = some h') : h'.count = int64 (n + vs.length : Nat) := by
  rw [recordAll_eq] at hrec
  obtain ⟨d, _, rfl⟩ := Option.map_eq_some_iff.mp hrec
  exact (h.toCounter.foldl_record_count vs n hc).1

theorem recordOne_count {v : Rat} {n : Nat} (hc : h.count = int64 n)
    (hrec : h.recordOne v = some h') : h'.count = int64 (n + 1 : Nat) := by
  have hall : h.recordAll [v] = some h' := by simp [recordAll, hrec]
  have hcount := recordAll_count hc hall
  rwa [List.length_singleton] at hcount

theorem transfer_count {left : Histogram} {a b : Nat} (hc : h.count = int64 a)
    (hsrc : src.count = int64 b) (ht : h.transfer src = some (h', left)) :
    h'.count = int64 (a + b : Nat) := by
  have hcount := Counter.transfer_count hc hsrc
  rw [transfer_eq] at ht
  split_ifs at ht with h0
  · rw [Counter.transfer, if_pos h0] at hcount
    cases Option.some.inj ht
    exact hcount
  · obtain ⟨d, _, ⟨⟩⟩ := Option.map_eq_some_iff.mp ht
    exact hcount

theorem transferAll_count {ws left : List Histogram} {ns : List Nat} {a : Nat}
    (hc : h.count = int64 a) (hws : List.Forall₂ (fun w n => w.count = int64 (n : Nat)) ws ns)
    (ht : h.transferAll ws = some (h', left)) : h'.count = int64 (a + ns.sum : Nat) := by
  induction hws generalizing h a left with
  | nil =>
    cases Option.some.inj ht
    exact hc
  | cons hw _ ih =>
    obtain ⟨⟨h₁, w'⟩, h₁_eq, hrest⟩ := Option.bind_eq_some_iff.mp ht
    obtain ⟨⟨h₂, ws'⟩, h₂_eq, heq⟩ := Option.bind_eq_some_iff.mp hrest
    cases Option.some.inj heq
    rw [List.sum_cons, ← Nat.add_assoc]
    exact ih (transfer_count hc hw h₁_eq) h₂_eq

/-! ### Success -/

theorem recordAll_append (h : Histogram) (us vs : List Rat) :
    h.recordAll (us ++ vs) = (h.recordAll us).bind fun h' => h'.recordAll vs := by
  exact List.foldlM_append

/-- A value with a bucket can be recorded, at the scale of the histogram. -/
theorem exists_recordOne {v : Rat} (hv : (bucket h.offset h.divider v).isSome) :
    ∃ h', h.recordOne v = some h' ∧ h'.offset = h.offset ∧ h'.divider = h.divider := by
  obtain ⟨i, hi⟩ := Option.isSome_iff_exists.mp hv
  rw [recordOne, recordN, record_eq]
  simp only [hi, Option.map_some]
  exact ⟨_, rfl, rfl, rfl⟩

theorem exists_recordAll {vs : List Rat} (hvs : ∀ v ∈ vs, (bucket h.offset h.divider v).isSome) :
    ∃ h', h.recordAll vs = some h' := by
  induction vs generalizing h with
  | nil => exact ⟨h, rfl⟩
  | cons v vs ih =>
    obtain ⟨h₁, h₁_eq, hoffset, hdivider⟩ := exists_recordOne (hvs v List.mem_cons_self)
    obtain ⟨h₂, h₂_eq⟩ := ih (h := h₁) fun v' hv' => by
      rw [hoffset, hdivider]
      exact hvs v' (List.mem_cons_of_mem _ hv')
    exact ⟨h₂, by rw [recordAll, List.foldlM_cons, h₁_eq]; exact h₂_eq⟩

/-- A histogram of the same scale can be transferred. -/
theorem exists_transferAll_one (hoffset : h.offset = src.offset)
    (hdivider : h.divider = src.divider) :
    ∃ h' left, h.transferAll [src] = some (h', left) := by
  have ht : ∃ p, h.transfer src = some p := by
    have hcontribution : src.contribution h.offset h.divider = some src.hdata :=
      if_pos ⟨hdivider, hoffset⟩
    rw [transfer_eq, hcontribution]
    split
    · exact ⟨_, rfl⟩
    · exact ⟨_, rfl⟩
  obtain ⟨⟨h', src'⟩, ht⟩ := ht
  exact ⟨h', [src'], by rw [transferAll, ht]; rfl⟩

end Histogram

end IstioVendor.Stats
