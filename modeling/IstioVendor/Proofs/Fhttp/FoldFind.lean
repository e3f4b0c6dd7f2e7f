import IstioVendor.Fhttp.HttpClient
import IstioVendor.Proofs.Fhttp.HttpUtils
import Mathlib.Order.Bounds.Basic

/-!
# `IstioVendor.Proofs.Fhttp.FoldFind`: the search for a header

`foldFind` is the search as the client model uses it. `foldFindRun` is the loop of the source with
its index expressions and its counters, which may run for any number of passes.
`foldFindRun_eq_foldFind` brings the two together: the loop comes to its end, and every index on
the way is inside of its slice.

`FoldSame` and `UpperSame` are two ways to compare bytes. The first one is what the test with the
mask comes to, and the second one is the comparison through `toUpper` that it replaces. They
agree on the needles that the client looks for (`foldSame_iff_upperSame`), and so do the results of
the search (`foldFind_search`). On other needles they do not: the mask takes `@` and a backquote
for the two cases of one letter.
-/

set_option autoImplicit false

namespace IstioVendor.Fhttp

open Lib

/-! ### The loop -/

/-- The results of `FoldFind`. -/
def foldFindResult : Option Nat → Bool × Int
  | some i => (true, i)
  | none => (false, -1)

theorem index_of_lt {b : Bytes} {i : Nat} (h : i < b.length) :
    index b (i : Int) = some (b.getD i 0) := by
  rw [index, if_pos (Int.natCast_nonneg i), Int.toNat_natCast, List.getElem?_eq_getElem h,
    List.getD_eq_getElem _ _ h]

variable {haystack needle : Bytes}

/-- The loop from counters in range. The measure is the one of `foldFindLoop_spec`. -/
theorem run_foldFindPass {fuel idx needleOffset : Nat} (hoff : needleOffset ≤ idx)
    (hidx : idx < haystack.length) (hneedle : needleOffset < needle.length)
    (hfuel : (haystack.length - (idx - needleOffset)) * (needle.length + 1) ≤ fuel + needleOffset) :
    Loop.run (foldFindPass haystack needle) fuel ⟨idx, needleOffset⟩
      = some (some (foldFindResult (foldFindLoop haystack needle fuel idx needleOffset))) := by
  induction fuel generalizing idx needleOffset with
  | zero =>
    have hpos := foldFuel_pos (by omega) hneedle hfuel
    omega
  | succ fuel ih =>
    rw [Loop.run, foldFindPass, foldFindLoop]
    simp only [index_of_lt hidx, index_of_lt hneedle]
    by_cases hdiff : foldDiffers (haystack.getD idx 0) (needle.getD needleOffset 0) = true
    · -- The counters of the next attempt, as numbers.
      have hnext : (idx : Int) - ((needleOffset : Int) - 1)
          = ((idx - needleOffset + 1 : Nat) : Int) := by omega
      simp only [hdiff, if_true, hnext, Nat.cast_le]
      by_cases hend : haystack.length ≤ idx - needleOffset + 1
      · simp only [hend, if_true]
        rfl
      · simp only [hend, if_false]
        exact @ih _ 0 (Nat.zero_le _) (by omega) (by omega)
          (foldFuel_next (by omega) hneedle hfuel)
    · have hlast : ((needleOffset : Int) = (needle.length : Int) - 1)
          ↔ needleOffset = needle.length - 1 := by omega
      have hmore : ((haystack.length : Int) ≤ (idx : Int) + 1)
          ↔ haystack.length ≤ idx + 1 := by omega
      simp only [hdiff, Bool.false_eq_true, if_false, hlast, hmore]
      by_cases hfound : needleOffset = needle.length - 1
      · simp only [hfound, if_true, foldFindResult]
        congr 3
        omega
      · by_cases hend : haystack.length ≤ idx + 1
        · simp only [hfound, if_false, hend, if_true]
          rfl
        · simp only [hfound, if_false, hend]
          have hstart : idx + 1 - (needleOffset + 1) = idx - needleOffset := by omega
          exact @ih (idx + 1) (needleOffset + 1) (by omega) (by omega) (by omega)
            (by rw [hstart]; omega)

/-- The loop of `FoldFind` ends with the result of `foldFind`, and it panics on no index. -/
theorem foldFindRun_eq_foldFind (haystack needle : Bytes) :
    ∃ passes, foldFindRun passes haystack needle
      = some (some (foldFindResult (foldFind haystack needle))) := by
  refine ⟨(haystack.length + 1) * (needle.length + 1), ?_⟩
  unfold foldFindRun foldFind
  split_ifs with hempty hshort
  · rfl
  · rfl
  · exact @run_foldFindPass haystack needle _ 0 0 (Nat.le_refl _) (by omega) (by omega)
      (by simp [Nat.succ_mul])

/-! ### Two ways to compare bytes -/

/-- The bytes are equal, or they differ in the case bit only and are no control characters. -/
def FoldSame (h n : UInt8) : Prop := h = n ∨ h ^^^ n = 0x20 ∧ 32 ≤ h ∧ 32 ≤ n

/-- The bytes are equal in upper case. -/
def UpperSame (h n : UInt8) : Prop := toUpper h = toUpper n

/-- The bytes of needles for which it makes no difference: the ASCII letters, and what comes
before `@`. -/
def FoldsAsLetter (n : UInt8) : Prop := 65 ≤ n ∧ n ≤ 90 ∨ 97 ≤ n ∧ n ≤ 122 ∨ n < 0x40

instance decidableFoldsAsLetter (n : UInt8) : Decidable (FoldsAsLetter n) :=
  inferInstanceAs (Decidable (_ ∨ _))

/-- Bytes that agree for the client differ in the case bit only. -/
theorem eq_of_foldDiffers {h n : UInt8} (hd : foldDiffers h n = false) : h = n ∨ h = n ^^^ 32 := by
  have key : ∀ x : Fin 256, ((UInt8.ofFin x &&& toUpperMask) != 0) = false →
      UInt8.ofFin x = 0 ∨ UInt8.ofFin x = 32 := by
    decide +kernel
  have hback : h = n ^^^ (h ^^^ n) := by
    rw [UInt8.xor_comm h n, ← UInt8.xor_assoc, UInt8.xor_self, UInt8.zero_xor]
  rcases key (h ^^^ n).toFin (Bool.or_eq_false_iff.mp hd).1 with h0 | h32
  · left
    rw [hback, show h ^^^ n = 0 from h0, UInt8.xor_zero]
  · right
    rw [hback, show h ^^^ n = 32 from h32]

theorem xor_thirtyTwo_iff {h n : UInt8} : h ^^^ n = 0x20 ↔ h = n ^^^ 32 := by
  constructor
  · intro heq
    rw [← heq, UInt8.xor_comm h n, ← UInt8.xor_assoc, UInt8.xor_self, UInt8.zero_xor]
  · rintro rfl
    rw [UInt8.xor_comm, ← UInt8.xor_assoc, UInt8.xor_self, UInt8.zero_xor]

theorem foldDiffers_eq_false_iff (h n : UInt8) : foldDiffers h n = false ↔ FoldSame h n := by
  have key : ∀ n : Fin 256, foldDiffers (UInt8.ofFin n) (UInt8.ofFin n) = false ∧
      (foldDiffers (UInt8.ofFin n ^^^ 32) (UInt8.ofFin n) = false ↔
        32 ≤ UInt8.ofFin n ^^^ 32 ∧ 32 ≤ UInt8.ofFin n) := by
    decide +kernel
  obtain ⟨hself, hflip⟩ := key n.toFin
  unfold FoldSame
  rw [xor_thirtyTwo_iff]
  constructor
  · intro hd
    rcases eq_of_foldDiffers hd with rfl | rfl
    · exact .inl rfl
    · exact .inr ⟨rfl, hflip.mp hd⟩
  · rintro (rfl | ⟨rfl, hcontrol⟩)
    · exact hself
    · exact hflip.mpr hcontrol

theorem eq_of_toUpper_eq {h m : UInt8} (heq : toUpper h = m) : h = m ∨ h = m + 32 := by
  unfold toUpper at heq
  split at heq
  · right
    rw [← heq, UInt8.sub_add_cancel]
  · exact .inl heq

/-- On these bytes the test with the mask compares as `toUpper` does, for every byte of the
haystack. -/
theorem foldSame_iff_upperSame (h n : UInt8) (hn : FoldsAsLetter n) :
    FoldSame h n ↔ UpperSame h n := by
  -- A byte that agrees with `n` is one of four, so that the check is over `n` alone.
  have key : ∀ n : Fin 256, FoldsAsLetter (UInt8.ofFin n) →
      (foldDiffers (UInt8.ofFin n ^^^ 32) (UInt8.ofFin n) = false →
        toUpper (UInt8.ofFin n ^^^ 32) = toUpper (UInt8.ofFin n)) ∧
      foldDiffers (toUpper (UInt8.ofFin n)) (UInt8.ofFin n) = false ∧
      (toUpper (toUpper (UInt8.ofFin n) + 32) = toUpper (UInt8.ofFin n) →
        foldDiffers (toUpper (UInt8.ofFin n) + 32) (UInt8.ofFin n) = false) := by
    decide +kernel
  obtain ⟨hflip, hupper, hlower⟩ := key n.toFin hn
  rw [← foldDiffers_eq_false_iff, UpperSame]
  constructor
  · intro hd
    rcases eq_of_foldDiffers hd with rfl | rfl
    · rfl
    · exact hflip hd
  · intro heq
    rcases eq_of_toUpper_eq heq with rfl | rfl
    · exact hupper
    · exact hlower heq

/-! ### The search -/

/-- The needle stands at the offset `i` of the haystack, when bytes are compared by `same`. -/
def StandsAt (same : UInt8 → UInt8 → Prop) (haystack needle : Bytes) (i : Nat) : Prop :=
  i + needle.length ≤ haystack.length ∧
    ∀ j h n, haystack[i + j]? = some h → needle[j]? = some n → same h n

/-- The answer of a search for the first such offset. -/
def FirstMatch (same : UInt8 → UInt8 → Prop) (haystack needle : Bytes) (r : Bool × Int) : Prop :=
  (∃ i : Nat, r = (true, (i : Int)) ∧ IsLeast {k | StandsAt same haystack needle k} i) ∨
    r = (false, -1) ∧ ∀ k, ¬ StandsAt same haystack needle k

theorem foldMatchAt_iff_standsAt {i : Nat} :
    FoldMatchAt haystack needle i ↔ StandsAt FoldSame haystack needle i := by
  refine and_congr_right fun hlen => ?_
  constructor
  · intro hall j h n hh hn
    obtain ⟨hj, rfl⟩ := List.getElem?_eq_some_iff.mp hn
    have hd := hall j hj
    rw [List.getD_eq_getElem?_getD, hh, List.getD_eq_getElem _ _ hj] at hd
    exact (foldDiffers_eq_false_iff _ _).mp hd
  · intro hall j hj
    have hlt : i + j < haystack.length := by omega
    rw [List.getD_eq_getElem _ _ hlt, List.getD_eq_getElem _ _ hj]
    exact (foldDiffers_eq_false_iff _ _).mpr
      (hall j _ _ (List.getElem?_eq_getElem hlt) (List.getElem?_eq_getElem hj))

theorem standsAt_congr {same same' : UInt8 → UInt8 → Prop}
    (h : ∀ n ∈ needle, ∀ b, same b n ↔ same' b n) (i : Nat) :
    StandsAt same haystack needle i ↔ StandsAt same' haystack needle i := by
  refine and_congr_right fun _ => forall_congr' fun j => forall_congr' fun b =>
    forall_congr' fun n => forall_congr' fun _ => forall_congr' fun hn => ?_
  exact h n (List.mem_of_getElem? hn) b

theorem FirstMatch.congr {same same' : UInt8 → UInt8 → Prop} {r : Bool × Int}
    (hr : FirstMatch same haystack needle r)
    (h : ∀ k, StandsAt same haystack needle k ↔ StandsAt same' haystack needle k) :
    FirstMatch same' haystack needle r := by
  unfold FirstMatch at hr ⊢
  simpa only [h] using hr

theorem firstMatch_foldFind (haystack needle : Bytes) :
    FirstMatch FoldSame haystack needle (foldFindResult (foldFind haystack needle)) := by
  by_cases hempty : needle = []
  · subst hempty
    exact .inl ⟨0, rfl, ⟨Nat.zero_le _, fun j h n _ hn => by simp at hn⟩, fun _ _ => Nat.zero_le _⟩
  · cases hfind : foldFind haystack needle with
    | none =>
      refine .inr ⟨rfl, fun k hk => ?_⟩
      have hnone := (foldFind_eq_none_iff haystack needle hempty).mp hfind
      exact hnone k (foldMatchAt_iff_standsAt.mpr hk)
    | some i =>
      obtain ⟨hi, hleast⟩ := (foldFind_eq_some_iff haystack needle hempty i).mp hfind
      refine .inl ⟨i, rfl, foldMatchAt_iff_standsAt.mp hi, fun k hk => ?_⟩
      by_contra hlt
      exact hleast k (not_le.mp hlt) (foldMatchAt_iff_standsAt.mpr hk)

/-- `FoldFind` ends without a panic and returns the first offset at which the needle stands up to
the case bit. For a needle of letters and of bytes before `@`, this is the first offset
at which the needle stands in upper case. -/
theorem foldFind_search (haystack needle : Bytes) :
    ∃ passes r, foldFindRun passes haystack needle = some (some r) ∧
      FirstMatch FoldSame haystack needle r ∧
      ((∀ n ∈ needle, FoldsAsLetter n) → FirstMatch UpperSame haystack needle r) := by
  obtain ⟨passes, hrun⟩ := foldFindRun_eq_foldFind haystack needle
  have hfirst := firstMatch_foldFind haystack needle
  refine ⟨passes, _, hrun, hfirst, fun hneedle => hfirst.congr (standsAt_congr fun n hn b => ?_)⟩
  exact foldSame_iff_upperSame b n (hneedle n hn)

/-- The headers that the client looks for are such needles. -/
theorem foldFind_search_headers :
    (∀ needle ∈ [contentLengthHeader, connectionCloseHeader, chunkedHeader],
      ∀ n ∈ needle, FoldsAsLetter n) ∧
    ∃ passes r, foldFindRun passes (ascii "200\r\nCONTENT-Length: 5\r\n") contentLengthHeader
        = some (some r) ∧
      FirstMatch UpperSame (ascii "200\r\nCONTENT-Length: 5\r\n") contentLengthHeader r := by
  have hheaders : ∀ needle ∈ [contentLengthHeader, connectionCloseHeader, chunkedHeader],
      ∀ n ∈ needle, FoldsAsLetter n := by decide +kernel
  obtain ⟨passes, r, hrun, -, hupper⟩ :=
    foldFind_search (ascii "200\r\nCONTENT-Length: 5\r\n") contentLengthHeader
  exact ⟨hheaders, passes, r, hrun, hupper (hheaders _ List.mem_cons_self)⟩

end IstioVendor.Fhttp
