import IstioVendor.Fhttp.HttpClient
import IstioVendor.Lib.Pieces

/-!
# `IstioVendor.Proofs.Fhttp.HeaderScan`: what the incremental header scan finds

`readResponse` scans every newly read piece for line ends, from the end of the previous
piece on. A line end whose two bytes arrive in different pieces is never looked at.
`SeenCrlf` is a line end that the scan can see: it lies behind the status code, and no piece
ends between its two bytes. `HeaderEnd pieces headerLen` says that the scan takes the first
`headerLen` bytes of the stream for the headers: they end with two adjacent line ends that
the scan sees, and no earlier pair is seen.

`scanHeaders_window` is the spec of one scan: from a state that knows the line ends before
`start` (`Scanned`), the scan of the next piece either knows the line ends of this piece
too, or has found `HeaderEnd`.
-/

set_option autoImplicit false

namespace IstioVendor.Fhttp

open Lib

/-- A line end of the stream that the header scan can see. -/
def SeenCrlf (pieces : List Bytes) (q : Nat) : Prop :=
  retcodeOffset + 3 ≤ q ∧ CrlfAt pieces.flatten q ∧ ¬ IsCut pieces (q + 1)

/-- Two adjacent line ends that the scan sees, at `p` and `p + 2`. -/
def SeenBlankLine (pieces : List Bytes) (p : Nat) : Prop :=
  SeenCrlf pieces p ∧ SeenCrlf pieces (p + 2)

/-- The header scan finds that the headers are the first `headerLen` bytes. -/
def HeaderEnd (pieces : List Bytes) (headerLen : Nat) : Prop :=
  ∃ p, headerLen = p + 4 ∧ SeenBlankLine pieces p ∧ ∀ q < p, ¬ SeenBlankLine pieces q

instance (pieces : List Bytes) (q : Nat) : Decidable (SeenCrlf pieces q) :=
  inferInstanceAs (Decidable (_ ∧ _ ∧ _))

instance (pieces : List Bytes) (p : Nat) : Decidable (SeenBlankLine pieces p) :=
  inferInstanceAs (Decidable (_ ∧ _))

theorem headerEnd_iff (pieces : List Bytes) (headerLen : Nat) :
    HeaderEnd pieces headerLen ↔ 4 ≤ headerLen ∧ SeenBlankLine pieces (headerLen - 4) ∧
      ∀ q < headerLen - 4, ¬ SeenBlankLine pieces q := by
  constructor
  · rintro ⟨p, rfl, hp⟩
    exact ⟨Nat.le_add_left _ _, by simpa using hp⟩
  · rintro ⟨hle, hp⟩
    exact ⟨headerLen - 4, by omega, hp⟩

instance (pieces : List Bytes) (headerLen : Nat) : Decidable (HeaderEnd pieces headerLen) :=
  decidable_of_iff _ (headerEnd_iff pieces headerLen).symm

variable {pieces : List Bytes} {headerLen : Nat}

theorem HeaderEnd.unique {a b : Nat} (ha : HeaderEnd pieces a) (hb : HeaderEnd pieces b) :
    a = b := by
  obtain ⟨p, rfl, hp, hpmin⟩ := ha
  obtain ⟨q, rfl, hq, hqmin⟩ := hb
  rcases Nat.lt_trichotomy p q with hlt | rfl | hgt
  · exact absurd hp (hqmin p hlt)
  · rfl
  · exact absurd hq (hpmin q hgt)

theorem HeaderEnd.ge {a : Nat} (ha : HeaderEnd pieces a) : retcodeOffset + 7 ≤ a := by
  obtain ⟨p, rfl, hp, _⟩ := ha
  have := hp.1.1
  omega

/-- The scan knows the line ends that begin before `idx`: `headerLen` is the last of them, or
`0`, and no two of them are adjacent. -/
structure Scanned (pieces : List Bytes) (idx headerLen : Nat) : Prop where
  last : headerLen = 0 ∨ SeenCrlf pieces headerLen ∧ headerLen < idx
  max : ∀ q < idx, SeenCrlf pieces q → q ≤ headerLen
  none : ∀ q, q + 2 < idx → ¬ SeenBlankLine pieces q

/-- At the start of the scan nothing is known and nothing is there. -/
theorem scanned_start (pieces : List Bytes) : Scanned pieces (retcodeOffset + 3) 0 where
  last := .inl rfl
  max q hq h := by have := h.1; omega
  none q hq h := by have := h.1.1; omega

/-- A position without a line end is passed. -/
theorem Scanned.pass {idx : Nat} (h : Scanned pieces idx headerLen) (hno : ¬ SeenCrlf pieces idx) :
    Scanned pieces (idx + 1) headerLen where
  last := h.last.imp_right fun ⟨hs, hlt⟩ => ⟨hs, by omega⟩
  max q hq hs := by
    rcases Nat.lt_succ_iff_lt_or_eq.mp hq with hlt | rfl
    · exact h.max q hlt hs
    · exact absurd hs hno
  none q hq hs := by
    rcases Nat.lt_succ_iff_lt_or_eq.mp hq with hlt | rfl
    · exact h.none q hlt hs
    · exact hno hs.2

/-- A line end that is not adjacent to the last one is recorded. -/
theorem Scanned.record {idx : Nat} (h : Scanned pieces idx headerLen) (hs : SeenCrlf pieces idx)
    (hne : headerLen + 2 ≠ idx) :
    Scanned pieces (idx + 2) idx where
  last := .inr ⟨hs, by omega⟩
  max q hq hsq := by
    -- The scan jumps over two bytes. The second one is a line feed and starts no line end.
    by_contra hgt
    obtain rfl : q = idx + 1 := by omega
    exact hs.2.1.not_succ hsq.2.1
  none q hq hpair := by
    rcases Nat.lt_trichotomy (q + 2) idx with hlt | heq | hgt
    · exact h.none q hlt hpair
    · -- The pair would end here, but its first half is at most `headerLen`.
      have hle := h.max q (by omega) hpair.1
      rcases h.last with h0 | ⟨hl, hlt⟩
      · have := hpair.1.1
        omega
      · have : headerLen = q + 1 := by omega
        rw [this] at hl
        exact hpair.1.2.1.not_succ hl.2.1
    -- The second half of the pair would begin with the line feed at `idx + 1`.
    · obtain hq1 : q + 2 = idx + 1 := by omega
      have h2 := hpair.2
      rw [hq1] at h2
      exact hs.2.1.not_succ h2.2.1

/-- A line end adjacent to the last one ends the headers. -/
theorem Scanned.found {idx : Nat} (h : Scanned pieces idx headerLen) (hs : SeenCrlf pieces idx)
    (heq : headerLen + 2 = idx) : HeaderEnd pieces (headerLen + 4) := by
  have hidx := hs.1
  have hl : SeenCrlf pieces headerLen := by
    -- `headerLen` is zero before the first line end, and that is too far from `idx` to be adjacent.
    rcases h.last with h0 | ⟨hl, _⟩
    · unfold retcodeOffset at hidx
      omega
    · exact hl
  exact ⟨headerLen, rfl, ⟨hl, heq ▸ hs⟩, fun q hq => h.none q (by omega)⟩

/-- The test of the scan, on bytes that have arrived. -/
theorem crlfAt_iff_getD {buffer stream : Bytes} {size idx : Nat}
    (hdata : buffer.take size = stream.take size) (hsize : size ≤ stream.length)
    (hidx : idx + 1 < size) :
    buffer.getD idx 0 = 13 ∧ buffer.getD (idx + 1) 0 = 10 ↔ CrlfAt stream idx := by
  -- Below `size` the buffer and the stream have the same bytes.
  have hget : ∀ i < size, buffer[i]? = stream[i]? := by
    intro i hi
    have := congrArg (fun l : Bytes => l[i]?) hdata
    simpa [List.getElem?_take, hi] using this
  unfold CrlfAt
  rw [List.getD_eq_getElem?_getD, List.getD_eq_getElem?_getD, hget idx (by omega),
    hget (idx + 1) hidx, List.getElem?_eq_getElem (by omega : idx < stream.length),
    List.getElem?_eq_getElem (by omega : idx + 1 < stream.length)]
  simp

/-- One scan. The bytes up to `size` have arrived, no piece ends strictly between `start` and
`size`, and the line ends before `idx` are known. Induction on the fuel, with `Scanned` as
the invariant of the inner loop. -/
theorem scanHeaders_window {buffer : Bytes} {size start : Nat}
    (hdata : buffer.take size = pieces.flatten.take size) (hsize : size ≤ pieces.flatten.length)
    (hcut : ∀ q, start < q → q < size → ¬ IsCut pieces q) (fuel idx headerLen : Nat)
    (hpos : retcodeOffset + 3 ≤ idx) (hstart : start ≤ idx) (hidx : idx ≤ size)
    (h : Scanned pieces idx headerLen) (hfuel : size ≤ idx + fuel) :
    (∃ hl e, scanHeaders buffer size fuel idx headerLen = (false, hl, e) ∧
        e ≤ size ∧ size ≤ e + 1 ∧ Scanned pieces e hl) ∨
      ∃ hl, scanHeaders buffer size fuel idx headerLen = (true, hl, hl + 2) ∧
        HeaderEnd pieces (hl + 4) ∧ hl + 4 ≤ size := by
  induction fuel generalizing idx headerLen with
  | zero => exact .inl ⟨headerLen, idx, rfl, hidx, by omega, h⟩
  | succ fuel ih =>
    unfold scanHeaders
    by_cases hlt : idx + 1 < size
    · rw [if_pos hlt]
      -- Inside the window no piece ends, so that every line end in it is one that the scan sees.
      have hseen : SeenCrlf pieces idx ↔ CrlfAt pieces.flatten idx :=
        ⟨fun hs => hs.2.1, fun hc => ⟨hpos, hc, hcut _ (by omega) hlt⟩⟩
      by_cases hcr : CrlfAt pieces.flatten idx
      · rw [if_pos ((crlfAt_iff_getD hdata hsize hlt).mpr hcr)]
        -- A line end: the second one in a row ends the headers, any other one is recorded.
        by_cases hadj : headerLen + 2 = idx
        · rw [if_pos hadj]
          exact .inr ⟨headerLen, by rw [hadj], h.found (hseen.mpr hcr) hadj, by omega⟩
        · rw [if_neg hadj]
          exact ih (idx + 2) idx (by omega) (by omega) (by omega)
            (h.record (hseen.mpr hcr) hadj) (by omega)
      · rw [if_neg (fun hg => hcr ((crlfAt_iff_getD hdata hsize hlt).mp hg))]
        exact ih (idx + 1) headerLen (by omega) (by omega) (by omega)
          (h.pass (fun hs => hcr (hseen.mp hs))) (by omega)
    · rw [if_neg hlt]
      exact .inl ⟨headerLen, idx, rfl, hidx, by omega, h⟩

/-- At the end of a piece, the line ends of the whole piece are known: a line end that begins
with its last byte is cut. -/
theorem Scanned.atCut {e size : Nat} (h : Scanned pieces e headerLen) (hle : e ≤ size)
    (hge : size ≤ e + 1) (hcut : IsCut pieces size) : Scanned pieces size headerLen := by
  rcases Nat.eq_or_lt_of_le hle with rfl | hlt
  · exact h
  · obtain rfl : size = e + 1 := by omega
    exact h.pass fun hs => hs.2.2 hcut

/-- While the scan goes on, the headers do not end inside what it has seen. -/
theorem Scanned.not_headerEnd {e size hl : Nat} (h : Scanned pieces e headerLen)
    (hge : size ≤ e + 1) (hend : HeaderEnd pieces hl) : size < hl := by
  obtain ⟨p, rfl, hp, _⟩ := hend
  by_contra hle
  exact h.none p (by omega) hp

/-- The four bytes before the end of the headers. -/
theorem HeaderEnd.crlf {hl : Nat} (h : HeaderEnd pieces hl) :
    ∃ p, hl = p + 4 ∧ CrlfAt pieces.flatten p ∧ CrlfAt pieces.flatten (p + 2) := by
  obtain ⟨p, rfl, hp, _⟩ := h
  exact ⟨p, rfl, hp.1.2.1, hp.2.2.1⟩

end IstioVendor.Fhttp
