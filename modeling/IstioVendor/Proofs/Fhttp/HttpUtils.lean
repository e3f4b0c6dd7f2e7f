import IstioVendor.Fhttp.HttpUtils
import Mathlib.Algebra.Order.Ring.Int
import Mathlib.Data.List.GetD

/-!
# `IstioVendor.Proofs.Fhttp.HttpUtils`: what the byte scanners return

`parseChunkSize` is called on the part of a response that has arrived. The lemmas here say
when the answer on a part is the answer on the whole:

* `parseChunkSize_append`: a size, once found, does not change when more bytes arrive;
* `parseChunkSize_take`: the size is found as soon as the size line is complete, that is
  when the returned offset is inside the part.

`foldFind_eq_some_iff` and `foldFind_eq_none_iff` say that `foldFind` is a first-match
search: `FoldMatchAt` is the match at one offset, and the loop with its backtracking counter
tries the offsets in order. The fuel of the model is enough for every attempt.
-/

set_option autoImplicit false

namespace IstioVendor.Fhttp

open Lib

/-! ### Chunk-size lines -/

/-- A found line end stays where it is when more bytes arrive. -/
theorem skipToCrlf_append (res : Int) (off : Nat) (xs ys : Bytes)
    (h : (skipToCrlf res off xs).2 ≠ -1) :
    skipToCrlf res off (xs ++ ys) = skipToCrlf res off xs := by
  -- The cases are those of the loop: no byte or one byte left, the line end, a carriage return
  -- without a line feed, and any other byte.
  fun_induction skipToCrlf res off xs with
  | case1 => simp at h
  | case2 => simp at h
  | case3 off inp => simp [skipToCrlf]
  | case4 off b' inp hb' ih => simpa [skipToCrlf, hb'] using ih h
  | case5 off b b' inp hb ih => simpa [skipToCrlf, hb] using ih h

/-- The line end takes two bytes, and it is found inside the input. -/
theorem skipToCrlf_bound (res : Int) (off : Nat) (xs : Bytes)
    (h : (skipToCrlf res off xs).2 ≠ -1) :
    off + 2 ≤ (skipToCrlf res off xs).1 ∧ (skipToCrlf res off xs).1 ≤ off + xs.length := by
  fun_induction skipToCrlf res off xs with
  | case1 => simp at h
  | case2 => simp at h
  | case3 off inp => simp
  | case4 off b' inp hb' ih =>
    simp only [List.length_cons]
    omega
  | case5 off b b' inp hb ih =>
    have := ih h
    simp only [List.length_cons] at this ⊢
    omega

/-- The bytes up to the line end are enough to find it. -/
theorem skipToCrlf_take (res : Int) (off : Nat) (xs : Bytes) (k : Nat)
    (h : (skipToCrlf res off xs).2 ≠ -1) (hk : (skipToCrlf res off xs).1 ≤ off + k) :
    skipToCrlf res off (xs.take k) = skipToCrlf res off xs := by
  fun_induction skipToCrlf res off xs generalizing k with
  | case1 => simp at h
  | case2 => simp at h
  | case3 off inp =>
    -- The line end is found inside the part, so the part has its two bytes.
    obtain ⟨k, rfl⟩ : ∃ j, k = j + 2 := ⟨k - 2, by simp at hk; omega⟩
    simp [skipToCrlf]
  | case4 off b' inp hb' ih =>
    have hb := skipToCrlf_bound res (off + 2) inp h
    obtain ⟨k, rfl⟩ : ∃ j, k = j + 2 := ⟨k - 2, by omega⟩
    simpa [skipToCrlf, hb'] using ih k h (by omega)
  | case5 off b b' inp hb ih =>
    have hbd := skipToCrlf_bound res (off + 1) (b' :: inp) h
    obtain ⟨k, rfl⟩ : ∃ j, k = j + 2 := ⟨k - 2, by omega⟩
    simpa [skipToCrlf, hb] using ih (k + 1) h (by omega)

theorem chunkDigits_append (res : Int) (off : Nat) (xs ys : Bytes)
    (h : (chunkDigits res off xs).2 ≠ -1) :
    chunkDigits res off (xs ++ ys) = chunkDigits res off xs := by
  -- Only the last case has found a size: the digits are over, and the rest is `skipToCrlf`.
  fun_induction chunkDigits res off xs with
  | case1 => simp at h
  | case2 res off b inp digit hd ih => simpa [chunkDigits, hd] using ih h
  | case3 off b inp hd => simp at h
  | case4 res off b inp hd hres =>
    simpa [chunkDigits, hd, hres] using skipToCrlf_append res off (b :: inp) ys h

/-- A size line has at least one digit and the two bytes of its end. -/
theorem chunkDigits_bound (res : Int) (off : Nat) (xs : Bytes)
    (h : (chunkDigits res off xs).2 ≠ -1) :
    off + 2 ≤ (chunkDigits res off xs).1 ∧ (res = -1 → off + 3 ≤ (chunkDigits res off xs).1) ∧
      (chunkDigits res off xs).1 ≤ off + xs.length := by
  fun_induction chunkDigits res off xs with
  | case1 => simp at h
  | case2 res off b inp digit hd ih =>
    simp only [List.length_cons]
    omega
  | case3 off b inp hd => simp at h
  | case4 res off b inp hd hres =>
    have := skipToCrlf_bound res off (b :: inp) h
    exact ⟨this.1, fun hr => absurd hr hres, this.2⟩

theorem chunkDigits_take (res : Int) (off : Nat) (xs : Bytes) (k : Nat)
    (h : (chunkDigits res off xs).2 ≠ -1) (hk : (chunkDigits res off xs).1 ≤ off + k) :
    chunkDigits res off (xs.take k) = chunkDigits res off xs := by
  fun_induction chunkDigits res off xs generalizing k with
  | case1 => simp at h
  | case2 res off b inp digit hd ih =>
    have hb := chunkDigits_bound _ _ inp h
    obtain ⟨k, rfl⟩ : ∃ j, k = j + 1 := ⟨k - 1, by omega⟩
    simpa [chunkDigits, hd] using ih k h (by omega)
  | case3 off b inp hd => simp at h
  | case4 res off b inp hd hres =>
    have hb := skipToCrlf_bound res off (b :: inp) h
    obtain ⟨k, rfl⟩ : ∃ j, k = j + 1 := ⟨k - 1, by omega⟩
    simpa [chunkDigits, hd, hres] using skipToCrlf_take res off (b :: inp) (k + 1) h hk

/-- A chunk size, once found, does not change when more bytes arrive. -/
theorem parseChunkSize_append (xs ys : Bytes) (h : (parseChunkSize xs).2 ≠ -1) :
    parseChunkSize (xs ++ ys) = parseChunkSize xs :=
  chunkDigits_append _ _ xs ys h

theorem parseChunkSize_bound (xs : Bytes) (h : (parseChunkSize xs).2 ≠ -1) :
    3 ≤ (parseChunkSize xs).1 ∧ (parseChunkSize xs).1 ≤ xs.length := by
  have := chunkDigits_bound (-1) 0 xs h
  unfold parseChunkSize
  omega

/-- The size is found as soon as the size line is complete. -/
theorem parseChunkSize_take (xs : Bytes) (k : Nat) (h : (parseChunkSize xs).2 ≠ -1)
    (hk : (parseChunkSize xs).1 ≤ k) : parseChunkSize (xs.take k) = parseChunkSize xs :=
  chunkDigits_take _ _ xs k h (by unfold parseChunkSize at hk; omega)

/-- A part of the input has a size exactly when the input has one and the size line ends
inside the part. -/
theorem parseChunkSize_take_ne_iff (xs : Bytes) (k : Nat) :
    (parseChunkSize (xs.take k)).2 ≠ -1 ↔
      (parseChunkSize xs).2 ≠ -1 ∧ (parseChunkSize xs).1 ≤ k := by
  constructor
  · intro h
    -- A size found in the part is the one of the input, because the rest only arrives later.
    have happ := parseChunkSize_append (xs.take k) (xs.drop k) h
    rw [List.take_append_drop] at happ
    have hb := parseChunkSize_bound _ h
    rw [List.length_take] at hb
    rw [happ]
    exact ⟨h, by omega⟩
  · rintro ⟨h, hk⟩
    rw [parseChunkSize_take xs k h hk]
    exact h

@[simp] theorem parseChunkSize_nil : parseChunkSize [] = (0, -1) := rfl

/-! ### The first-match search -/

/-- The needle stands at the offset `i` of the haystack, up to ASCII case. -/
def FoldMatchAt (haystack needle : Bytes) (i : Nat) : Prop :=
  i + needle.length ≤ haystack.length ∧
    ∀ j < needle.length, foldDiffers (haystack.getD (i + j) 0) (needle.getD j 0) = false

/-- The answer of a first-match search: the first offset with a match, or no match at
all. -/
def IsFirstMatch (haystack needle : Bytes) : Option Nat → Prop
  | some i => FoldMatchAt haystack needle i ∧ ∀ i' < i, ¬ FoldMatchAt haystack needle i'
  | none => ∀ i, ¬ FoldMatchAt haystack needle i

/-! The loop of `FoldFind` starts an attempt at each offset of the haystack and compares one byte
in each pass. So every offset from the current one on has `n + 1` passes, of which the
current attempt has used `off`. -/

section
variable {len start n off fuel : Nat}

theorem foldFuel_pos (hstart : start < len) (hoff : off < n)
    (hfuel : (len - start) * (n + 1) ≤ fuel + off) : 0 < fuel := by
  have hone : 1 * (n + 1) ≤ (len - start) * (n + 1) := Nat.mul_le_mul_right _ (by omega)
  omega

/-- A mismatch leaves enough passes for the offsets behind the current one. -/
theorem foldFuel_next (hstart : start < len) (hoff : off < n)
    (hfuel : (len - start) * (n + 1) ≤ fuel + 1 + off) :
    (len - (start + 1 - 0)) * (n + 1) ≤ fuel + 0 := by
  obtain ⟨rest, hrest⟩ : ∃ rest, len - start = rest + 1 := ⟨len - start - 1, by omega⟩
  rw [hrest, Nat.succ_mul] at hfuel
  rw [show len - (start + 1 - 0) = rest by omega]
  omega

end

/-- The loop, started in the middle of an attempt at the offset `idx - needleOffset`. The
attempt has matched so far, and the offsets before it do not match. The measure of the fuel
is lexicographic: offsets left, then needle bytes left in this attempt. -/
theorem foldFindLoop_spec (haystack needle : Bytes) (fuel idx needleOffset : Nat)
    (hoff : needleOffset ≤ idx) (hidx : idx < haystack.length)
    (hneedle : needleOffset < needle.length)
    (hpart : ∀ j < needleOffset,
      foldDiffers (haystack.getD (idx - needleOffset + j) 0) (needle.getD j 0) = false)
    (hprev : ∀ i < idx - needleOffset, ¬ FoldMatchAt haystack needle i)
    (hfuel : (haystack.length - (idx - needleOffset)) * (needle.length + 1) ≤ fuel + needleOffset) :
    IsFirstMatch haystack needle (foldFindLoop haystack needle fuel idx needleOffset) := by
  induction fuel generalizing idx needleOffset with
  | zero =>
    -- At least one offset is left, so the fuel is not used up.
    have hpos := foldFuel_pos (by omega) hneedle hfuel
    omega
  | succ fuel ih =>
    unfold foldFindLoop
    by_cases hdiff : foldDiffers (haystack.getD idx 0) (needle.getD needleOffset 0) = true
    · -- A mismatch: this offset is out, the next attempt starts one further.
      have hout : ¬ FoldMatchAt haystack needle (idx - needleOffset) := by
        rintro ⟨_, hall⟩
        have := hall needleOffset hneedle
        rw [Nat.sub_add_cancel hoff] at this
        exact nomatch this.symm.trans hdiff
      have hprev' : ∀ i < idx - needleOffset + 1, ¬ FoldMatchAt haystack needle i := by
        intro i hi
        rcases Nat.lt_succ_iff_lt_or_eq.mp hi with hlt | rfl
        · exact hprev i hlt
        · exact hout
      simp only [hdiff, if_true]
      split
      · next hend =>
          intro i hi
          by_cases hlt : i < idx - needleOffset + 1
          · exact hprev' i hlt hi
          · have := hi.1
            omega
      · next hend =>
          exact ih (idx - needleOffset + 1) 0 (Nat.zero_le _) (by omega) (by omega)
            (by simp) (by simpa using hprev') (foldFuel_next (by omega) hneedle hfuel)
    -- The byte agrees. The attempt is complete, or the haystack is, or the next byte is tried.
    · have hsame : foldDiffers (haystack.getD idx 0) (needle.getD needleOffset 0) = false := by
        simpa using hdiff
      have hpart' : ∀ j < needleOffset + 1,
          foldDiffers (haystack.getD (idx - needleOffset + j) 0) (needle.getD j 0) = false := by
        intro j hj
        rcases Nat.lt_succ_iff_lt_or_eq.mp hj with hlt | rfl
        · exact hpart j hlt
        · rw [Nat.sub_add_cancel hoff]
          exact hsame
      simp only [hsame, Bool.false_eq_true, if_false]
      split
      · next hlast =>
          exact ⟨⟨by omega, fun j hj => hpart' j (by omega)⟩, hprev⟩
      · next hlast =>
          split
          -- The haystack ends inside the attempt, so no later offset has room for the needle.
          · next hend =>
              intro i hi
              by_cases hlt : i < idx - needleOffset
              · exact hprev i hlt hi
              · have := hi.1
                omega
          · next hend =>
              have hstart : idx + 1 - (needleOffset + 1) = idx - needleOffset := by omega
              exact ih (idx + 1) (needleOffset + 1) (by omega) (by omega) (by omega)
                (by rwa [hstart]) (by rwa [hstart]) (by rw [hstart]; omega)

/-- `foldFind` returns the first match, and every match is found. -/
theorem foldFind_spec (haystack needle : Bytes) (hne : needle ≠ []) :
    IsFirstMatch haystack needle (foldFind haystack needle) := by
  have hpos : 0 < needle.length := List.length_pos_iff.mpr hne
  unfold foldFind
  rw [if_neg (by omega)]
  by_cases hlen : haystack.length < needle.length
  · rw [if_pos hlen]
    intro i hi
    have := hi.1
    omega
  · rw [if_neg hlen]
    exact foldFindLoop_spec haystack needle _ 0 0 (Nat.le_refl _) (by omega) hpos (by simp)
      (by simp) (by simp [Nat.succ_mul])

theorem foldFind_eq_some_iff (haystack needle : Bytes) (hne : needle ≠ []) (i : Nat) :
    foldFind haystack needle = some i ↔
      FoldMatchAt haystack needle i ∧ ∀ i' < i, ¬ FoldMatchAt haystack needle i' := by
  have hspec := foldFind_spec haystack needle hne
  constructor
  · intro h
    rw [h] at hspec
    exact hspec
  · rintro ⟨hi, hfirst⟩
    cases hf : foldFind haystack needle with
    | none =>
      rw [hf] at hspec
      exact absurd hi (hspec i)
    | some k =>
      rw [hf] at hspec
      rcases Nat.lt_trichotomy k i with hlt | rfl | hgt
      · exact absurd hspec.1 (hfirst k hlt)
      · rfl
      · exact absurd hi (hspec.2 i hgt)

theorem foldFind_eq_none_iff (haystack needle : Bytes) (hne : needle ≠ []) :
    foldFind haystack needle = none ↔ ∀ i, ¬ FoldMatchAt haystack needle i := by
  have hspec := foldFind_spec haystack needle hne
  constructor
  · intro h
    rw [h] at hspec
    exact hspec
  · intro hall
    cases hf : foldFind haystack needle with
    | none => rfl
    | some k =>
      rw [hf] at hspec
      exact absurd hspec.1 (hall k)

/-! ### Decimal numbers -/

theorem toNat_of_isDigit {b : UInt8} (h : isDigit b = true) : 48 ≤ b.toNat ∧ b.toNat ≤ 57 := by
  obtain ⟨h1, h2⟩ := Bool.and_eq_true_iff.mp h
  exact ⟨UInt8.le_iff_toNat_le.mp (of_decide_eq_true h1),
    UInt8.le_iff_toNat_le.mp (of_decide_eq_true h2)⟩

/-- A number of at most 18 bytes does not wrap, so that `-1` is its least value. -/
theorem neg_one_le_parseDecimalFrom {res : Int} {k : Nat} {inp : Bytes}
    (hres : res = -1 ∨ 0 ≤ res ∧ res < 10 ^ k) (hlen : k + inp.length ≤ 18) :
    -1 ≤ parseDecimalFrom res inp := by
  induction inp generalizing res k with
  | nil =>
    rw [parseDecimalFrom]
    omega
  | cons b inp ih =>
    rw [List.length_cons] at hlen
    rw [parseDecimalFrom]
    split_ifs with hspace hdigit
    · exact ih hres (by omega)
    · refine ih (k := k + 1) (.inr ?_) (by omega)
      have hb := toNat_of_isDigit hdigit
      have hone : (1 : Int) ≤ 10 ^ k := one_le_pow₀ (by norm_num)
      have htop : (10 : Int) ^ (k + 1) ≤ 10 ^ 18 := pow_le_pow_right₀ (by norm_num) (by omega)
      unfold accumulate
      split_ifs with hfirst
      · omega
      · rw [int64_of_range (by omega) (by omega)]
        omega
    · omega

theorem neg_one_le_parseDecimal {inp : Bytes} (hlen : inp.length ≤ 18) : -1 ≤ parseDecimal inp :=
  neg_one_le_parseDecimalFrom (k := 0) (.inl rfl) (by omega)

end IstioVendor.Fhttp
