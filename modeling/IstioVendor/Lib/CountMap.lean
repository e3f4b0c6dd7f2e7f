import IstioVendor.Lib.GoInt
import IstioVendor.Lib.Tally

/-!
# `IstioVendor.Lib.CountMap`: maps of counters

A map from keys to 64-bit counters, as a list of entries with one entry for each key. `add` adds
to the counter of a key, and makes the entry when there is none. `merge` adds all counters of
another map.

`total` is the sum of the counters. Below `2 ^ 63` no counter wraps, and `add` and `merge` add
to the total (`Counts.add`, `Counts.merge`). Beyond that the total is right up to a wrap
(`int64_total_add`, `int64_total_merge`). `Counted` says both.
-/

set_option autoImplicit false

namespace IstioVendor.Lib

variable {κ : Type} [DecidableEq κ] {d n : Nat}

/-- Add `d` to the counter of the key `k`. -/
def addEntry (k : κ) (d : Int) : List (κ × Int) → List (κ × Int)
  | [] => [(k, int64 d)]
  | e :: m => if e.1 = k then (e.1, int64 (e.2 + d)) :: m else e :: addEntry k d m

theorem map_fst_addEntry (k : κ) (d : Int) (m : List (κ × Int)) :
    (addEntry k d m).map Prod.fst
      = if k ∈ m.map Prod.fst then m.map Prod.fst else m.map Prod.fst ++ [k] := by
  induction m with
  | nil => rfl
  | cons e m ih =>
    rw [addEntry]
    by_cases h : e.1 = k
    · rw [if_pos h, if_pos (by simp [h]), List.map_cons, List.map_cons]
    · have hne : ¬ k = e.1 := fun h' => h h'.symm
      rw [if_neg h, List.map_cons, List.map_cons, ih]
      simp only [List.mem_cons, hne, false_or]
      split <;> simp

/-- A map from keys to counters. -/
structure CountMap (κ : Type) where
  entries : List (κ × Int)
  nodup : (entries.map Prod.fst).Nodup

variable {m : CountMap κ}

namespace CountMap

def empty : CountMap κ := ⟨[], List.nodup_nil⟩

def add (m : CountMap κ) (k : κ) (d : Int) : CountMap κ where
  entries := addEntry k d m.entries
  nodup := by
    rw [map_fst_addEntry]
    split_ifs with h
    · exact m.nodup
    · have hone : [k].Nodup := List.nodup_cons.mpr ⟨List.not_mem_nil, List.nodup_nil⟩
      exact List.nodup_append.mpr ⟨m.nodup, hone, fun a ha b hb => by
        rintro rfl
        exact h (List.mem_singleton.mp hb ▸ ha)⟩

def merge (m src : CountMap κ) : CountMap κ :=
  src.entries.foldl (fun m e => m.add e.1 e.2) m

/-- The sum of the counters. -/
def total (m : CountMap κ) : Int := (m.entries.map Prod.snd).sum

/-! ### The total up to a wrap -/

theorem int64_sum_addEntry (k : κ) (d : Int) (m : List (κ × Int)) :
    int64 ((addEntry k d m).map Prod.snd).sum = int64 ((m.map Prod.snd).sum + d) := by
  induction m with
  | nil =>
    simp only [addEntry, List.map_cons, List.map_nil, List.sum_cons, List.sum_nil, add_zero,
      zero_add, int64_int64]
  | cons e m ih =>
    rw [addEntry]
    split_ifs
    · rw [List.map_cons, List.sum_cons, int64_add_int64_left, List.map_cons, List.sum_cons]
      congr 1
      ring
    · rw [List.map_cons, List.sum_cons, List.map_cons, List.sum_cons, add_assoc,
        ← int64_add_int64, ih, int64_add_int64]

theorem int64_total_add (m : CountMap κ) (k : κ) (d : Int) :
    int64 (m.add k d).total = int64 (m.total + d) :=
  int64_sum_addEntry k d m.entries

theorem int64_total_foldl_add (m : CountMap κ) (l : List (κ × Int)) :
    int64 (l.foldl (fun m e => m.add e.1 e.2) m).total
      = int64 (m.total + (l.map Prod.snd).sum) := by
  induction l generalizing m with
  | nil => simp
  | cons e l ih =>
    rw [List.foldl_cons, ih, List.map_cons, List.sum_cons, ← int64_add_int64,
      int64_total_add, int64_add_int64]
    congr 1
    ring

theorem int64_total_merge (m src : CountMap κ) :
    int64 (m.merge src).total = int64 (m.total + src.total) :=
  int64_total_foldl_add m src.entries

/-! ### The total without a wrap -/

/-- The counters are not negative and count `n` between them. -/
structure Counts (m : CountMap κ) (n : Nat) : Prop where
  nonneg : ∀ e ∈ m.entries, 0 ≤ e.2
  total : m.total = n

omit [DecidableEq κ] in
theorem Counts.empty : Counts (empty : CountMap κ) 0 := ⟨nofun, rfl⟩

theorem addEntry_counts {k : κ} {m : List (κ × Int)} (hnonneg : ∀ e ∈ m, 0 ≤ e.2)
    (hsum : (m.map Prod.snd).sum = n) (hlt : n + d < 2 ^ 63) :
    (∀ e ∈ addEntry k d m, 0 ≤ e.2) ∧ ((addEntry k d m).map Prod.snd).sum = (n + d : Nat) := by
  induction m generalizing n with
  | nil =>
    have hd : int64 d = d := int64_of_nat (by omega)
    simp only [List.map_nil, List.sum_nil] at hsum
    refine ⟨fun e he => ?_, ?_⟩
    · obtain rfl := List.mem_singleton.mp he
      omega
    · simp only [addEntry, List.map_cons, List.map_nil, List.sum_cons, List.sum_nil, hd]
      omega
  | cons e m ih =>
    have he := hnonneg e List.mem_cons_self
    have hm : ∀ e' ∈ m, 0 ≤ e'.2 := fun e' he' => hnonneg e' (List.mem_cons_of_mem _ he')
    have hrest := sum_snd_nonneg hm
    rw [List.map_cons, List.sum_cons] at hsum
    rw [addEntry]
    split_ifs
    · -- An entry is at most the sum, which is why it does not wrap.
      have hval : int64 (e.2 + d) = e.2 + d := int64_of_range (by omega) (by omega)
      refine ⟨fun e' he' => ?_, ?_⟩
      · rcases List.mem_cons.mp he' with rfl | he'
        · simp only
          omega
        · exact hm e' he'
      · rw [List.map_cons, List.sum_cons]
        omega
    · obtain ⟨a, ha⟩ := Int.eq_ofNat_of_zero_le hrest
      obtain ⟨ih₁, ih₂⟩ := ih hm ha (by omega)
      refine ⟨fun e' he' => ?_, ?_⟩
      · rcases List.mem_cons.mp he' with rfl | he'
        · exact he
        · exact ih₁ e' he'
      · rw [List.map_cons, List.sum_cons, ih₂]
        omega

theorem Counts.add (h : Counts m n) (k : κ) (hlt : n + d < 2 ^ 63) :
    Counts (m.add k d) (n + d) := by
  obtain ⟨h₁, h₂⟩ := addEntry_counts (k := k) h.nonneg h.total hlt
  exact ⟨h₁, h₂⟩

theorem Counts.foldl_add (h : Counts m n) {l : List (κ × Int)} (hnonneg : ∀ e ∈ l, 0 ≤ e.2)
    (hsum : (l.map Prod.snd).sum = d) (hlt : n + d < 2 ^ 63) :
    Counts (l.foldl (fun m e => m.add e.1 e.2) m) (n + d) := by
  induction l generalizing m n d with
  | nil =>
    obtain rfl : d = 0 := by simpa using hsum.symm
    exact h
  | cons e l ih =>
    have htail : ∀ e' ∈ l, 0 ≤ e'.2 := fun e' he' => hnonneg e' (List.mem_cons_of_mem _ he')
    -- The first entry and the rest are natural numbers, which add up to `d`.
    obtain ⟨a, ha⟩ := Int.eq_ofNat_of_zero_le (hnonneg e List.mem_cons_self)
    obtain ⟨b, hb⟩ := Int.eq_ofNat_of_zero_le (sum_snd_nonneg htail)
    obtain rfl : a + b = d := by
      rw [List.map_cons, List.sum_cons, ha, hb] at hsum
      exact_mod_cast hsum
    rw [List.foldl_cons, ← Nat.add_assoc, ha]
    exact ih (h.add e.1 (by omega)) htail hb (by omega)

theorem Counts.merge {src : CountMap κ} (h : Counts m n) (hsrc : Counts src d)
    (hlt : n + d < 2 ^ 63) : Counts (m.merge src) (n + d) :=
  h.foldl_add hsrc.nonneg hsrc.total hlt

/-! ### Both -/

/-- The map counts `n`: exactly when `n` fits, and up to a wrap in any case. -/
structure Counted (m : CountMap κ) (n : Nat) : Prop where
  wrapped : int64 m.total = int64 n
  exact : n < 2 ^ 63 → Counts m n

omit [DecidableEq κ] in
theorem Counted.empty : Counted (empty : CountMap κ) 0 := ⟨rfl, fun _ => .empty⟩

theorem Counted.add (h : Counted m n) (k : κ) : Counted (m.add k 1) (n + 1) where
  wrapped := by
    rw [int64_total_add, ← int64_add_int64_left, h.wrapped, int64_add_int64_left, Nat.cast_add,
      Nat.cast_one]
  exact := fun hlt => (h.exact (by omega)).add k hlt

theorem Counted.merge {src : CountMap κ} (h : Counted m n) (hsrc : Counted src d) :
    Counted (m.merge src) (n + d) where
  wrapped := by
    rw [int64_total_merge, ← int64_add_int64, h.wrapped, hsrc.wrapped, int64_add_int64,
      Nat.cast_add]
  exact := fun hlt => (h.exact (by omega)).merge (hsrc.exact (by omega)) hlt

theorem Counted.foldl_merge (h : Counted m n) {srcs : List (CountMap κ)} {ds : List Nat}
    (hsrcs : List.Forall₂ Counted srcs ds) :
    Counted (srcs.foldl CountMap.merge m) (n + ds.sum) := by
  induction hsrcs generalizing m n with
  | nil => exact h
  | cons hsrc _ ih =>
    rw [List.foldl_cons, List.sum_cons, ← Nat.add_assoc]
    exact ih (h.merge hsrc)

end CountMap

end IstioVendor.Lib
