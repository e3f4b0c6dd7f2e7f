import Mathlib.Data.List.Basic

/-!
# `IstioVendor.Lib.Lines`: byte strings made of lines

A text protocol sends lines, and every line ends with a carriage return and a line feed.
`joinLines` is the text of a list of lines. When no line contains one of the two bytes, the
line ends of the text are where the lines end (`crlfAt_joinLines`), and a blank line stands
only where a line of the list is empty (`blankLine_joinLines`). `splitLines` is the other
direction: the parts of a text between its line ends. A line end divides them
(`splitLines_append_crlf`), and a text without line ends is one line
(`splitLines_of_not_infix_crlf`).
-/

set_option autoImplicit false

namespace IstioVendor.Lib

/-- A byte string. -/
abbrev Bytes := List UInt8

-- A check of all bytes goes along the string, not along the values of a byte.
instance (priority := 2000) decidableBAllBytes (p : UInt8 → Prop) [DecidablePred p] (l : Bytes) :
    Decidable (∀ b ∈ l, p b) := List.decidableBAll p l

instance (priority := 2000) decidableBAllByte (p : UInt8 → Prop) [DecidablePred p]
    (o : Option UInt8) :
    Decidable (∀ b ∈ o, p b) :=
  decidable_of_iff (∀ b ∈ o.toList, p b) (by simp)

/-- The bytes of an ASCII string. -/
def ascii (s : String) : Bytes := s.toList.map fun ch => UInt8.ofNat ch.toNat

/-- The end of a line. -/
def crlf : Bytes := [13, 10]

/-- A line end at the position `q`. -/
def CrlfAt (xs : Bytes) (q : Nat) : Prop := xs[q]? = some 13 ∧ xs[q + 1]? = some 10

instance (xs : Bytes) (q : Nat) : Decidable (CrlfAt xs q) := inferInstanceAs (Decidable (_ ∧ _))

variable {q : Nat} {xs l s t : Bytes} {ls : List Bytes} {b : UInt8}

/-- A line end lies inside the text. -/
theorem CrlfAt.lt (h : CrlfAt xs q) : q + 1 < xs.length :=
  (List.getElem?_eq_some_iff.mp h.2).1

/-- No two line ends overlap. -/
theorem CrlfAt.not_succ (h : CrlfAt xs q) : ¬ CrlfAt xs (q + 1) := by
  intro h'
  have := h.2.symm.trans h'.1
  simp at this

theorem crlfAt_append_left {ys : Bytes} (hq : q + 1 < xs.length) :
    CrlfAt (xs ++ ys) q ↔ CrlfAt xs q := by
  unfold CrlfAt
  rw [List.getElem?_append_left (by omega), List.getElem?_append_left hq]

theorem crlfAt_append_right {ys : Bytes} : CrlfAt (xs ++ ys) (xs.length + q) ↔ CrlfAt ys q := by
  unfold CrlfAt
  rw [List.getElem?_append_right (by omega), List.getElem?_append_right (by omega)]
  simp [Nat.add_assoc]

/-- The bytes of one line. -/
def IsLine (l : Bytes) : Prop := ∀ b ∈ l, b ≠ 13 ∧ b ≠ 10

instance (l : Bytes) : Decidable (IsLine l) := inferInstanceAs (Decidable (∀ b ∈ l, _))

/-- The text of a list of lines. -/
def joinLines (ls : List Bytes) : Bytes := ls.flatMap (· ++ crlf)

@[simp] theorem joinLines_nil : joinLines [] = [] := rfl

@[simp] theorem joinLines_cons (l : Bytes) (ls : List Bytes) :
    joinLines (l :: ls) = l ++ (crlf ++ joinLines ls) := by
  simp [joinLines]

@[simp] theorem joinLines_append (ls ls' : List Bytes) :
    joinLines (ls ++ ls') = joinLines ls ++ joinLines ls' := by
  simp [joinLines]

theorem IsLine.not_crlfAt {ys : Bytes} (h : IsLine l) (hq : q < l.length) :
    ¬ CrlfAt (l ++ ys) q := by
  rintro ⟨hcr, _⟩
  rw [List.getElem?_append_left hq, List.getElem?_eq_getElem hq] at hcr
  exact (h _ (List.getElem_mem hq)).1 (Option.some.inj hcr)

/-- A line end of the text is the end of one of its lines. Induction on the lines. -/
theorem crlfAt_joinLines (hls : ∀ l ∈ ls, IsLine l) (h : CrlfAt (joinLines ls) q) :
    ∃ pre l post, ls = pre ++ l :: post ∧ q = (joinLines pre).length + l.length := by
  induction ls generalizing q with
  | nil => exact absurd h.lt (by simp)
  | cons l ls ih =>
    rw [joinLines_cons] at h
    rcases Nat.lt_trichotomy q l.length with hlt | rfl | hgt
    · exact absurd h ((hls l (by simp)).not_crlfAt hlt)
    · exact ⟨[], l, ls, rfl, by simp⟩
    · obtain ⟨q', rfl⟩ : ∃ q', q = l.length + (q' + 1) := ⟨q - l.length - 1, by omega⟩
      rw [crlfAt_append_right] at h
      cases q' with
      | zero => simp [CrlfAt, crlf] at h
      | succ q' =>
        have h' : CrlfAt (crlf ++ joinLines ls) (crlf.length + q') := by
          rw [show crlf.length + q' = q' + 1 + 1 by simp [crlf]; omega]
          exact h
        rw [crlfAt_append_right] at h'
        obtain ⟨pre, l', post, rfl, rfl⟩ := ih (fun l' hl' => hls l' (by simp [hl'])) h'
        refine ⟨l :: pre, l', post, rfl, ?_⟩
        simp [crlf]
        omega

/-- The only blank line of a text whose last line alone is empty is at its end. -/
theorem blankLine_joinLines (hls : ∀ l ∈ ls, IsLine l ∧ l ≠ []) {p : Nat}
    (h1 : CrlfAt (joinLines (ls ++ [[]])) p) (h2 : CrlfAt (joinLines (ls ++ [[]])) (p + 2)) :
    p + 4 = (joinLines (ls ++ [[]])).length := by
  have hlines : ∀ l ∈ ls ++ [[]], IsLine l := by
    intro l hl
    rcases List.mem_append.mp hl with hl | hl
    · exact (hls l hl).1
    · rw [List.mem_singleton.mp hl]
      exact fun b hb => nomatch hb
  obtain ⟨pre, l, post, heq, rfl⟩ := crlfAt_joinLines hlines h1
  have htext : joinLines (ls ++ [[]]) = joinLines pre ++ (l ++ crlf) ++ joinLines post := by
    rw [heq]
    simp
  have hpos : (joinLines pre).length + l.length + 2
      = (joinLines pre ++ (l ++ crlf)).length + 0 := by
    simp [crlf]
    omega
  rw [htext, hpos, crlfAt_append_right] at h2
  cases post with
  | nil => exact absurd h2.lt (by simp)
  | cons l' post =>
    -- The line behind `l` is empty, so it is the last one.
    have hl' : l' = [] := by
      by_contra hne
      rw [joinLines_cons] at h2
      have hmem : l' ∈ ls ++ [[]] := by rw [heq]; simp
      exact (hlines l' hmem).not_crlfAt (List.length_pos_iff.mpr hne) h2
    subst hl'
    have hpost : post = [] := by
      by_contra hne
      obtain ⟨init, last, rfl⟩ := List.eq_nil_or_concat post |>.resolve_left hne
      have heq' : ls ++ [[]] = (pre ++ l :: [] :: init) ++ [last] := by rw [heq]; simp
      obtain ⟨hinit, _⟩ := List.append_inj' heq' rfl
      exact (hls [] (by rw [hinit]; simp)).2 rfl
    subst hpost
    rw [htext]
    simp [crlf]
    omega

/-! ### The lines of a text -/

/-- The parts of a text between its line ends. -/
def splitLines : Bytes → List Bytes
  | [] => [[]]
  | [b] => [[b]]
  | b :: b' :: rest =>
    if b = 13 ∧ b' = 10 then [] :: splitLines rest
    else
      match splitLines (b' :: rest) with
      | [] => [[b]]
      | l :: ls => (b :: l) :: ls

theorem splitLines_ne_nil (s : Bytes) : splitLines s ≠ [] := by
  fun_cases splitLines s <;> simp [*]

theorem splitLines_crlf (t : Bytes) : splitLines (crlf ++ t) = [] :: splitLines t := by
  rw [crlf, List.cons_append, List.singleton_append, splitLines, if_pos ⟨rfl, rfl⟩]

/-- A byte that begins no line end goes to the first line. -/
theorem splitLines_cons (h : ¬ (b = 13 ∧ s.head? = some 10)) :
    splitLines (b :: s) = (b :: (splitLines s).headD []) :: (splitLines s).tail := by
  cases s with
  | nil => rfl
  | cons b' rest =>
    have hnot : ¬ (b = 13 ∧ b' = 10) := fun hb => h ⟨hb.1, congrArg some hb.2⟩
    rw [splitLines, if_neg hnot]
    obtain ⟨l, ls, hls⟩ := List.exists_cons_of_ne_nil (splitLines_ne_nil (b' :: rest))
    rw [hls]
    rfl

/-- Induction along a text, a line end or a byte at a time. -/
theorem lines_induction {motive : Bytes → Prop} (nil : motive [])
    (crlf : ∀ s, motive s → motive (crlf ++ s))
    (cons : ∀ b s, ¬ (b = 13 ∧ s.head? = some 10) → motive s → motive (b :: s)) (s : Bytes) :
    motive s := by
  induction hn : s.length using Nat.strongRecOn generalizing s with
  | _ n ih =>
    match s, hn with
    | [], _ => exact nil
    | b :: s, hn =>
      by_cases hb : b = 13 ∧ s.head? = some 10
      · obtain ⟨rfl, hhead⟩ := hb
        obtain ⟨s', rfl⟩ := List.head?_eq_some_iff.mp hhead
        exact crlf s' (ih s'.length (by simp at hn; omega) s' rfl)
      · exact cons b s hb (ih s.length (by simp at hn; omega) s rfl)

/-- The lines of two texts with a line end between them. -/
theorem splitLines_append_crlf (s t : Bytes) :
    splitLines (s ++ crlf ++ t) = splitLines s ++ splitLines t := by
  induction s using lines_induction with
  | nil => exact splitLines_crlf t
  | crlf s ih => rw [List.append_assoc crlf, List.append_assoc crlf, splitLines_crlf, ih,
      splitLines_crlf, List.cons_append]
  | cons b s hb ih =>
    have hb' : ¬ (b = 13 ∧ (s ++ crlf ++ t).head? = some 10) := by
      rintro ⟨rfl, hhead⟩
      cases s with
      | nil => simp [crlf] at hhead
      | cons b' s => exact hb ⟨rfl, hhead⟩
    rw [List.cons_append, List.cons_append, splitLines_cons hb', splitLines_cons hb, ih]
    obtain ⟨l, ls, hls⟩ := List.exists_cons_of_ne_nil (splitLines_ne_nil s)
    rw [hls]
    rfl

theorem splitLines_joinLines (ls : List Bytes) :
    splitLines (joinLines ls) = ls.flatMap splitLines ++ [[]] := by
  induction ls with
  | nil => rfl
  | cons l ls ih =>
    rw [joinLines_cons, ← List.append_assoc, splitLines_append_crlf, ih, List.flatMap_cons,
      List.append_assoc]

/-- A text without a line end is one line. -/
theorem splitLines_of_not_infix_crlf (h : ¬ crlf <:+: s) : splitLines s = [s] := by
  induction s with
  | nil => rfl
  | cons b s ih =>
    have hrest : ¬ crlf <:+: s := fun h' => h (h'.trans (List.suffix_cons b s).isInfix)
    have hb : ¬ (b = 13 ∧ s.head? = some 10) := by
      rintro ⟨rfl, hhead⟩
      obtain ⟨s', rfl⟩ := List.head?_eq_some_iff.mp hhead
      exact h ⟨[], s', rfl⟩
    rw [splitLines_cons hb, ih hrest]
    rfl

theorem length_splitLines_eq_one_iff : (splitLines s).length = 1 ↔ ¬ crlf <:+: s := by
  constructor
  · rintro h ⟨a, b, rfl⟩
    have ha := List.length_pos_iff.mpr (splitLines_ne_nil a)
    have hb := List.length_pos_iff.mpr (splitLines_ne_nil b)
    rw [splitLines_append_crlf, List.length_append] at h
    omega
  · intro h
    rw [splitLines_of_not_infix_crlf h]
    rfl

theorem splitLines_eq_blank_iff : splitLines s = [[]] ↔ s = [] := by
  constructor
  · intro h
    have hone : ¬ crlf <:+: s := length_splitLines_eq_one_iff.mp (by rw [h]; rfl)
    rw [splitLines_of_not_infix_crlf hone] at h
    exact List.singleton_inj.mp h
  · rintro rfl
    rfl

theorem IsLine.not_infix_crlf (h : IsLine l) : ¬ crlf <:+: l := by
  intro hcrlf
  exact (h 13 (hcrlf.subset List.mem_cons_self)).1 rfl

/-- A text without line bytes belongs to the first line of the text behind it. -/
theorem splitLines_isLine_append (hs : IsLine s) (t : Bytes) :
    splitLines (s ++ t) = (s ++ (splitLines t).headD []) :: (splitLines t).tail := by
  induction s with
  | nil =>
    obtain ⟨l, ls, hls⟩ := List.exists_cons_of_ne_nil (splitLines_ne_nil t)
    rw [List.nil_append, hls]
    rfl
  | cons b s ih =>
    have hb : ¬ (b = 13 ∧ (s ++ t).head? = some 10) := fun h =>
      (hs b List.mem_cons_self).1 h.1
    rw [List.cons_append, splitLines_cons hb, ih fun b' hb' => hs b' (List.mem_cons_of_mem b hb')]
    rfl

/-- A text without line bytes belongs to the last line of the text before it. -/
theorem splitLines_append_isLine (s : Bytes) (ht : IsLine t) :
    splitLines (s ++ t) = (splitLines s).dropLast ++ [(splitLines s).getLastD [] ++ t] := by
  induction s using lines_induction with
  | nil =>
    rw [List.nil_append, splitLines_of_not_infix_crlf ht.not_infix_crlf]
    rfl
  | crlf s ih =>
    obtain ⟨l, ls, hls⟩ := List.exists_cons_of_ne_nil (splitLines_ne_nil s)
    rw [List.append_assoc, splitLines_crlf, splitLines_crlf, ih, hls]
    rfl
  | cons b s hb ih =>
    have hb' : ¬ (b = 13 ∧ (s ++ t).head? = some 10) := by
      rintro ⟨rfl, hhead⟩
      cases s with
      | nil => exact (ht 10 (List.mem_of_mem_head? hhead)).2 rfl
      | cons b' s => exact hb ⟨rfl, hhead⟩
    obtain ⟨l, ls, hls⟩ := List.exists_cons_of_ne_nil (splitLines_ne_nil s)
    rw [List.cons_append, splitLines_cons hb', splitLines_cons hb, ih, hls]
    cases ls with
    | nil => rfl
    | cons l' ls => rfl

theorem crlf_infix_isLine_append (hs : IsLine s) (t : Bytes) : crlf <:+: s ++ t ↔ crlf <:+: t := by
  have hlength : (splitLines (s ++ t)).length = (splitLines t).length := by
    obtain ⟨l, ls, hls⟩ := List.exists_cons_of_ne_nil (splitLines_ne_nil t)
    rw [splitLines_isLine_append hs, hls]
    rfl
  rw [← not_iff_not, ← length_splitLines_eq_one_iff, ← length_splitLines_eq_one_iff, hlength]

theorem crlf_infix_append_isLine (s : Bytes) (ht : IsLine t) : crlf <:+: s ++ t ↔ crlf <:+: s := by
  have hlength : (splitLines (s ++ t)).length = (splitLines s).length := by
    have hpos := List.length_pos_iff.mpr (splitLines_ne_nil s)
    rw [splitLines_append_isLine s ht, List.length_append, List.length_dropLast,
      List.length_singleton]
    omega
  rw [← not_iff_not, ← length_splitLines_eq_one_iff, ← length_splitLines_eq_one_iff, hlength]

/-- The first line begins as the text does. -/
theorem head?_of_splitLines (hls : splitLines s = l :: ls) (h : l.head? = some b) :
    s.head? = some b := by
  induction s using lines_induction with
  | nil =>
    cases hls
    cases h
  | crlf s _ =>
    obtain ⟨rfl, -⟩ := List.cons.inj ((splitLines_crlf s).symm.trans hls)
    cases h
  | cons a s ha _ =>
    obtain ⟨rfl, -⟩ := List.cons.inj ((splitLines_cons ha).symm.trans hls)
    exact h

/-- No line has a line end in it. -/
theorem splitLines_of_mem : ∀ l ∈ splitLines s, splitLines l = [l] := by
  induction s using lines_induction with
  | nil => simp [splitLines]
  | crlf s ih =>
    intro l hl
    rcases List.mem_cons.mp hl with rfl | hl
    · rfl
    · exact ih l hl
  | cons b s hb ih =>
    obtain ⟨first, ls, hls⟩ := List.exists_cons_of_ne_nil (splitLines_ne_nil s)
    rw [hls] at ih
    rw [splitLines_cons hb, hls, List.headD_cons, List.tail_cons]
    intro l hl
    rcases List.mem_cons.mp hl with rfl | hl
    · have hfirst : ¬ (b = 13 ∧ first.head? = some 10) := fun h =>
        hb ⟨h.1, head?_of_splitLines hls h.2⟩
      rw [splitLines_cons hfirst, ih first List.mem_cons_self]
      rfl
    · exact ih l (List.mem_cons_of_mem first hl)

theorem not_infix_of_mem_splitLines (h : l ∈ splitLines s) : ¬ crlf <:+: l := by
  rw [← length_splitLines_eq_one_iff, splitLines_of_mem l h]
  rfl

/-- The bytes of the lines are bytes of the text. -/
theorem mem_of_mem_splitLines (hl : l ∈ splitLines s) (hb : b ∈ l) : b ∈ s := by
  induction s using lines_induction generalizing l with
  | nil =>
    obtain rfl := List.mem_singleton.mp hl
    exact hb
  | crlf s ih =>
    rcases List.mem_cons.mp hl with rfl | hl
    · cases hb
    · exact List.mem_append_right _ (ih hl hb)
  | cons a s ha ih =>
    obtain ⟨first, ls, hls⟩ := List.exists_cons_of_ne_nil (splitLines_ne_nil s)
    rw [splitLines_cons ha, hls, List.headD_cons, List.tail_cons] at hl
    rw [hls] at ih
    rcases List.mem_cons.mp hl with rfl | hl
    · rcases List.mem_cons.mp hb with rfl | hb
      · exact List.mem_cons_self
      · exact List.mem_cons_of_mem a (ih List.mem_cons_self hb)
    · exact List.mem_cons_of_mem a (ih (List.mem_cons_of_mem first hl) hb)

theorem flatMap_splitLines (h : ∀ l ∈ ls, ¬ crlf <:+: l) : ls.flatMap splitLines = ls := by
  induction ls with
  | nil => rfl
  | cons l ls ih =>
    rw [List.flatMap_cons, splitLines_of_not_infix_crlf (h l List.mem_cons_self),
      ih fun l' hl' => h l' (List.mem_cons_of_mem l hl')]
    rfl

/-- If only the last line is blank, then there is one blank line, at the end. -/
theorem eq_nil_of_blankLine {pre post : Bytes} (hlines : splitLines s = ls ++ [[], []])
    (hls : ∀ l ∈ ls, l ≠ []) (h : s = pre ++ crlf ++ crlf ++ post) : post = [] := by
  have hsplit : splitLines s = splitLines pre ++ [] :: splitLines post := by
    rw [h, List.append_assoc, splitLines_append_crlf, splitLines_crlf]
  rw [hsplit] at hlines
  have hpost := List.length_pos_iff.mpr (splitLines_ne_nil post)
  have hlength := congrArg List.length hlines
  simp only [List.length_append, List.length_cons, List.length_nil] at hlength
  have hblank : (ls ++ [[], []])[(splitLines pre).length]? = some [] := by
    rw [← hlines, List.getElem?_append_right (Nat.le_refl _), Nat.sub_self, List.getElem?_cons_zero]
  have hle : ls.length ≤ (splitLines pre).length := by
    by_contra hlt
    rw [List.getElem?_append_left (by omega)] at hblank
    exact hls [] (List.mem_of_getElem? hblank) rfl
  obtain ⟨-, hrest⟩ := List.append_inj hlines (by omega)
  exact splitLines_eq_blank_iff.mp (List.cons.inj hrest).2

/-! ### Unique cuts -/

/-- A list is cut in one way in front of its first element without the property. -/
theorem append_inj_of_head {α : Type} {p : α → Prop} {a₁ a₂ r₁ r₂ : List α}
    (h : a₁ ++ r₁ = a₂ ++ r₂) (h₁ : ∀ x ∈ a₁, p x) (h₂ : ∀ x ∈ a₂, p x)
    (hr₁ : ∀ x ∈ r₁.head?, ¬ p x) (hr₂ : ∀ x ∈ r₂.head?, ¬ p x) : a₁ = a₂ ∧ r₁ = r₂ := by
  induction a₁ generalizing a₂ with
  | nil =>
    cases a₂ with
    | nil => exact ⟨rfl, h⟩
    | cons x a₂ =>
      obtain rfl : r₁ = x :: (a₂ ++ r₂) := h
      exact absurd (h₂ x (by simp)) (hr₁ x rfl)
  | cons x a₁ ih =>
    cases a₂ with
    | nil =>
      obtain rfl : x :: (a₁ ++ r₁) = r₂ := h
      exact absurd (h₁ x (by simp)) (hr₂ x rfl)
    | cons y a₂ =>
      rw [List.cons_append, List.cons_append, List.cons_eq_cons] at h
      obtain ⟨rfl, htail⟩ := h
      obtain ⟨rfl, rfl⟩ := ih htail (fun z hz => h₁ z (by simp [hz]))
        fun z hz => h₂ z (by simp [hz])
      exact ⟨rfl, rfl⟩

/-! ### Greedy searches -/

/-- A search from the end of a range finds the last hit. -/
theorem findSome?_reverse_range {β : Type*} {f : Nat → Option β} {n i : Nat} {b : β} (hi : i < n)
    (hf : f i = some b) (hlater : ∀ j, i < j → f j = none) :
    (List.range n).reverse.findSome? f = some b := by
  induction n with
  | zero => exact absurd hi (Nat.not_lt_zero i)
  | succ n ih =>
    rw [List.range_succ, List.reverse_append, List.reverse_singleton, List.singleton_append]
    rcases Nat.lt_succ_iff_lt_or_eq.mp hi with hlt | rfl
    · rw [List.findSome?_cons_of_isNone (by rw [hlater n hlt]; rfl)]
      exact ih hlt
    · rw [List.findSome?_cons_of_isSome (by rw [hf]; rfl), hf]

end IstioVendor.Lib
