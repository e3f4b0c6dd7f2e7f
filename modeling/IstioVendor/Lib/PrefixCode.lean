import Mathlib.Data.List.Basic

/-!
# `IstioVendor.Lib.PrefixCode`: codes in which no word is the start of another one

A code gives each symbol a word of bits. When no word is the start of another one, at most one word
stands at the front of a text (`PrefixFree.eq_of_common`).

`separate` checks this for a list of words, bit by bit: where a word ends no other word goes on. It
looks at each bit of each word once, so that it can be evaluated for a table of code words.
-/

set_option autoImplicit false

namespace IstioVendor.Lib

variable {σ : Type} {word : σ → List Bool} {ws : List (List Bool × σ)}

/-- No word is the start of another one. -/
def PrefixFree (word : σ → List Bool) : Prop := ∀ c d, word c <+: word d → c = d

theorem PrefixFree.eq_of_common (h : PrefixFree word) {c d : σ} {text : List Bool}
    (hc : word c <+: text) (hd : word d <+: text) : c = d := by
  rcases List.prefix_or_prefix_of_prefix hc hd with hcd | hdc
  · exact h c d hcd
  · exact (h d c hdc).symm

/-- The words that start with the bit, without it. -/
def tailsAfter (b : Bool) (ws : List (List Bool × σ)) : List (List Bool × σ) :=
  ws.filterMap fun w =>
    match w.1 with
    | [] => none
    | x :: rest => if x = b then some (rest, w.2) else none

theorem mem_tailsAfter {b : Bool} {rest : List Bool} {c : σ} (h : (b :: rest, c) ∈ ws) :
    (rest, c) ∈ tailsAfter b ws :=
  List.mem_filterMap.mpr ⟨_, h, if_pos rfl⟩

/-- Where a word ends there is no other one, up to the length `n`. -/
def separate : Nat → List (List Bool × σ) → Bool
  | _, [] => true
  | _, [_] => true
  | 0, _ => false
  | n + 1, ws =>
    ws.all (fun w => !w.1.isEmpty) && separate n (tailsAfter false ws)
      && separate n (tailsAfter true ws)

theorem eq_of_separate {n : Nat} (h : separate n ws = true) {v w : List Bool × σ} (hv : v ∈ ws)
    (hw : w ∈ ws) (hstarts : v.1 <+: w.1) : v = w := by
  fun_induction separate n ws generalizing v w with
  | case1 => exact absurd hv List.not_mem_nil
  | case2 => rw [List.mem_singleton.mp hv, List.mem_singleton.mp hw]
  | case3 => cases h
  | case4 n ws _ _ ihfalse ihtrue =>
    simp only [Bool.and_eq_true, List.all_eq_true] at h
    obtain ⟨⟨hne, hfalse⟩, htrue⟩ := h
    obtain ⟨v, c⟩ := v
    obtain ⟨w, d⟩ := w
    cases v with
    | nil => exact absurd (hne _ hv) (by simp)
    | cons b v =>
      -- Both words go on with the same bit.
      obtain ⟨w, rfl, hrest⟩ : ∃ w', w = b :: w' ∧ v <+: w' := by
        cases w with
        | nil => exact absurd (List.prefix_nil.mp hstarts) (List.cons_ne_nil b v)
        | cons x w =>
          obtain ⟨rfl, hrest⟩ := List.cons_prefix_cons.mp hstarts
          exact ⟨w, rfl, hrest⟩
      have heq : (v, c) = (w, d) := by
        cases b with
        | false => exact ihfalse hfalse (mem_tailsAfter hv) (mem_tailsAfter hw) hrest
        | true => exact ihtrue htrue (mem_tailsAfter hv) (mem_tailsAfter hw) hrest
      cases heq
      rfl

/-- The check of a table that has all words. -/
theorem prefixFree_of_separate {n : Nat} (h : separate n ws = true) (hall : ∀ c, (word c, c) ∈ ws) :
    PrefixFree word :=
  fun c d hstarts => congrArg Prod.snd (eq_of_separate h (hall c) (hall d) hstarts)

end IstioVendor.Lib
