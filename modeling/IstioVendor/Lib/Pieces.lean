import Mathlib.Data.List.Basic

/-!
# `IstioVendor.Lib.Pieces`: a stream cut into pieces

A stream that arrives in pieces is a list of lists. `IsCut pieces n` says that a piece ends
after the first `n` elements of the stream. The start of the stream counts as a cut.
`ReadEnd pieces len n` says that a reader with a buffer of `len` elements can hold exactly
`n` elements after one of its reads: it reads whole pieces, except for the last one that
fills the buffer.
-/

set_option autoImplicit false

namespace IstioVendor.Lib

variable {α : Type} {n : Nat} {pieces : List (List α)}

/-- More of a list begins with less of it. -/
theorem take_eq_take_append (l : List α) {m : Nat} (h : m ≤ n) :
    l.take n = l.take m ++ (l.take n).drop m := by
  have htake : (l.take n).take m = l.take m := by rw [List.take_take, Nat.min_eq_left h]
  rw [← htake, List.take_append_drop]

/-- The first `n` elements of the stream are the first pieces, whole. -/
def IsCut (pieces : List (List α)) (n : Nat) : Prop :=
  ∃ k, (pieces.take k).flatten.length = n

theorem isCut_iff_range (pieces : List (List α)) (n : Nat) :
    IsCut pieces n ↔ ∃ k ∈ List.range (pieces.length + 1), (pieces.take k).flatten.length = n := by
  constructor
  · rintro ⟨k, hk⟩
    rcases Nat.lt_or_ge pieces.length k with hlt | hge
    · refine ⟨pieces.length, by simp, ?_⟩
      rw [← hk, List.take_length, List.take_of_length_le (Nat.le_of_lt hlt)]
    · exact ⟨k, by simpa using Nat.lt_succ_of_le hge, hk⟩
  · rintro ⟨k, _, hk⟩
    exact ⟨k, hk⟩

instance (pieces : List (List α)) (n : Nat) : Decidable (IsCut pieces n) :=
  decidable_of_iff _ (isCut_iff_range pieces n).symm

/-- The end of the stream is a cut. -/
theorem isCut_length (pieces : List (List α)) : IsCut pieces pieces.flatten.length :=
  ⟨pieces.length, by rw [List.take_length]⟩

/-- The end of the first pieces is a cut. -/
theorem isCut_append (pre post : List (List α)) : IsCut (pre ++ post) pre.flatten.length :=
  ⟨pre.length, by rw [List.take_left]⟩

theorem length_flatten_take_mono (pieces : List (List α)) {j k : Nat} (h : j ≤ k) :
    (pieces.take j).flatten.length ≤ (pieces.take k).flatten.length := by
  have htake : (pieces.take k).take j = pieces.take j := by
    rw [List.take_take, Nat.min_eq_left h]
  have hsplit := congrArg List.length
    (congrArg List.flatten (List.take_append_drop j (pieces.take k)))
  rw [List.flatten_append, List.length_append, htake] at hsplit
  omega

/-- No piece ends strictly inside a piece. -/
theorem not_isCut_inside {pre post : List (List α)} {p : List α} (hlo : pre.flatten.length < n)
    (hhi : n < pre.flatten.length + p.length) : ¬ IsCut (pre ++ p :: post) n := by
  rintro ⟨k, hk⟩
  rcases Nat.lt_or_ge pre.length k with hlt | hge
  · -- The first `k` pieces contain `p`.
    have hmono := length_flatten_take_mono (pre ++ p :: post)
      (show pre.length + 1 ≤ k from hlt)
    have hp : ((pre ++ p :: post).take (pre.length + 1)).flatten.length
        = pre.flatten.length + p.length := by
      rw [List.take_append, List.take_of_length_le (Nat.le_succ _), Nat.add_sub_cancel_left]
      simp
    omega
  · have hmono := length_flatten_take_mono (pre ++ p :: post) hge
    rw [List.take_left] at hmono
    omega

/-- The number of elements that a reader with room for `len` holds after a read. -/
def ReadEnd (pieces : List (List α)) (len n : Nat) : Prop :=
  IsCut pieces n ∧ n ≤ len ∨ n = len ∧ len ≤ pieces.flatten.length

instance (pieces : List (List α)) (len n : Nat) : Decidable (ReadEnd pieces len n) :=
  inferInstanceAs (Decidable (_ ∨ _))

theorem IsCut.le (h : IsCut pieces n) : n ≤ pieces.flatten.length := by
  obtain ⟨k, rfl⟩ := h
  rcases Nat.le_total k pieces.length with hk | hk
  · have := length_flatten_take_mono pieces hk
    rwa [List.take_length] at this
  · exact Nat.le_of_eq (by rw [List.take_of_length_le hk])

theorem ReadEnd.le_length {len : Nat} (h : ReadEnd pieces len n) : n ≤ pieces.flatten.length := by
  rcases h with ⟨h, _⟩ | ⟨rfl, h⟩
  · exact h.le
  · exact h

theorem ReadEnd.le {len : Nat} (h : ReadEnd pieces len n) : n ≤ len := by
  rcases h with ⟨_, h⟩ | ⟨rfl, _⟩
  · exact h
  · exact Nat.le_refl _

/-- Before the buffer is full, the reads end where the pieces end. -/
theorem ReadEnd.isCut {len : Nat} (h : ReadEnd pieces len n) (hlt : n < len) : IsCut pieces n := by
  rcases h with ⟨h, _⟩ | ⟨rfl, _⟩
  · exact h
  · omega

/-- The last read fills the buffer or ends the stream. -/
theorem readEnd_min (pieces : List (List α)) (len : Nat) :
    ReadEnd pieces len (min len pieces.flatten.length) := by
  rcases Nat.le_total len pieces.flatten.length with h | h
  · rw [Nat.min_eq_left h]
    exact .inr ⟨rfl, h⟩
  · rw [Nat.min_eq_right h]
    exact .inl ⟨isCut_length pieces, h⟩

end IstioVendor.Lib
