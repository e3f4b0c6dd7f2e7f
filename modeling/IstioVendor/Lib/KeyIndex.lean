import Mathlib.Data.List.AList
import Mathlib.Data.List.Induction

/-!
# `IstioVendor.Lib.KeyIndex`: a map from keys to the newest entry of a queue

The entries of a queue are numbered in the order in which they were added, and the numbers stay when
old entries are dropped at the front. `newest` is the number of the newest entry with a key. A map
`Indexes` the queue when it gives these numbers. To add an entry (`Indexes.add`) and to drop the
oldest one (`Indexes.evict`) each touch one key.
-/

set_option autoImplicit false

namespace IstioVendor.Lib

variable {α κ : Type} [DecidableEq κ]

/-- A map from keys to numbers. -/
abbrev Ids (κ : Type) := AList fun _ : κ => Nat

/-- The number of the newest entry with the key `x`, when the first entry has the number
`base + 1`. -/
def newest (key : α → κ) (x : κ) : Nat → List α → Option Nat
  | _, [] => none
  | base, f :: fs =>
    (newest key x (base + 1) fs).or (if key f = x then some (base + 1) else none)

/-- Drops a key whose number is `id`. -/
def forget (m : Ids κ) (x : κ) (id : Nat) : Ids κ :=
  if (m.lookup x).getD 0 = id then m.erase x else m

def Indexes (key : α → κ) (m : Ids κ) (base : Nat) (fs : List α) : Prop :=
  ∀ x, m.lookup x = newest key x base fs

variable {key : α → κ} {x : κ} {base id : Nat} {fs : List α}

theorem newest_append (f : α) :
    newest key x base (fs ++ [f])
      = if key f = x then some (base + fs.length + 1) else newest key x base fs := by
  induction fs generalizing base with
  | nil => simp [newest]
  | cons g fs ih =>
    rw [List.cons_append, newest, ih, newest, List.length_cons]
    split
    · simp [Nat.add_comm, Nat.add_left_comm]
    · rfl

/-- The number leads to an entry with the key, and no newer entry has it. -/
theorem newest_eq_some (h : newest key x base fs = some id) :
    ∃ old f new, fs = old ++ f :: new ∧ id = base + old.length + 1 ∧ key f = x ∧
      ∀ g ∈ new, key g ≠ x := by
  induction fs using List.reverseRecOn with
  | nil => cases h
  | append_singleton fs g ih =>
    rw [newest_append] at h
    split at h
    · rename_i hg
      cases h
      exact ⟨fs, g, [], rfl, rfl, hg, nofun⟩
    · rename_i hg
      obtain ⟨old, f, new, rfl, hid, hf, hnew⟩ := ih h
      refine ⟨old, f, new ++ [g], by simp, hid, hf, fun y hy => ?_⟩
      rcases List.mem_append.mp hy with hy | hy
      · exact hnew y hy
      · exact List.mem_singleton.mp hy ▸ hg

theorem newest_eq_none : newest key x base fs = none ↔ ∀ f ∈ fs, key f ≠ x := by
  induction fs generalizing base with
  | nil => simp [newest]
  | cons f fs ih => simp [newest, ih, and_comm]

theorem lt_of_newest (h : newest key x base fs = some id) : base < id := by
  obtain ⟨old, -, -, -, rfl, -⟩ := newest_eq_some h
  omega

theorem indexes_empty : Indexes key (∅ : Ids κ) base [] := fun x => AList.lookup_empty x

theorem Indexes.add {m : Ids κ} (h : Indexes key m base fs) (f : α) :
    Indexes key (m.insert (key f) (base + fs.length + 1)) base (fs ++ [f]) := by
  intro x
  rw [newest_append]
  by_cases hx : key f = x
  · rw [if_pos hx, ← hx, AList.lookup_insert]
  · rw [if_neg hx, AList.lookup_insert_ne (Ne.symm hx), h x]

theorem Indexes.evict {m : Ids κ} {f : α} (h : Indexes key m base (f :: fs)) :
    Indexes key (forget m (key f) (base + 1)) (base + 1) fs := by
  intro x
  have hx := h x
  rw [newest] at hx
  by_cases hf : key f = x
  · subst hf
    rw [forget, hx]
    cases hnew : newest key (key f) (base + 1) fs with
    | none => simp
    | some id =>
      -- A newer entry has the key, so that the number is not that of the dropped one.
      have hlt := lt_of_newest hnew
      rw [Option.some_or, Option.getD_some, if_neg (by omega), hx, hnew, Option.some_or]
  · rw [if_neg hf, Option.or_none] at hx
    rw [forget]
    split
    · rw [AList.lookup_erase_ne (Ne.symm hf), hx]
    · exact hx

end IstioVendor.Lib
