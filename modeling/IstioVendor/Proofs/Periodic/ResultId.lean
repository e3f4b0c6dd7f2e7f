import IstioVendor.Periodic.ResultId

/-!
# `IstioVendor.Proofs.Periodic.ResultId`: what an ID keeps of a result

The labels come into the ID as their words, the runs of letters and digits, each one behind an
underscore (`resultID_eq`). The date has no underscore, its fields have fixed places, and it is
shorter than the 64 bytes that are kept. So the date and the kept part of the words are found
again, and two IDs are equal when both are (`resultID_eq_iff`). An ID is the name of a file, because
it has no slash (`slash_notMem_resultID`).
-/

set_option autoImplicit false

namespace IstioVendor.Periodic

open Lib

/-! ### The loop over the labels -/

/-- The parts of a text, without the empty ones, each behind an underscore. -/
def tagOf (parts : List Bytes) : Bytes :=
  (parts.filter (· ≠ [])).flatMap fun word => underscore :: word

/-- The runs of letters and digits in the labels, each behind an underscore. -/
def tag (labels : Bytes) : Bytes := tagOf (labels.splitOnP fun b => !isAlnum b)

theorem tagOf_nil_cons (parts : List Bytes) : tagOf ([] :: parts) = tagOf parts := rfl

theorem tagOf_cons (b : UInt8) (word : Bytes) (parts : List Bytes) :
    tagOf ((b :: word) :: parts) = underscore :: b :: word ++ tagOf parts := rfl

variable {b : UInt8}

theorem ne_underscore_of_isAlnum (h : isAlnum b = true) : b ≠ underscore := by
  rintro rfl
  exact absurd h (by decide)

/-- What `ID` does with the text and the last rune when the loop has ended. -/
def closeTag (acc : Bytes × UInt8) : Bytes :=
  if acc.2 = underscore then acc.1.take (acc.1.length - 1) else acc.1

theorem closeTag_underscore (base : Bytes) :
    closeTag (base ++ [underscore], underscore) = base := by
  rw [closeTag, if_pos rfl, List.length_append]
  exact List.take_left

/-- The loop behind an underscore goes on with the tag of the labels. In the middle of a word it
goes on with the rest of the word and the tag of what follows. -/
theorem foldl_idStep (labels base : Bytes) :
    closeTag (labels.foldl idStep (base ++ [underscore], underscore)) = base ++ tag labels ∧
    ∀ last ≠ underscore, ∀ word parts, (labels.splitOnP fun b => !isAlnum b) = word :: parts →
      closeTag (labels.foldl idStep (base, last)) = base ++ word ++ tagOf parts := by
  induction labels generalizing base with
  | nil =>
    refine ⟨(closeTag_underscore base).trans (List.append_nil base).symm,
      fun last hlast word parts h => ?_⟩
    cases List.splitOnP_nil.symm.trans h
    rw [List.foldl_nil, closeTag, if_neg hlast, List.append_nil]
    exact (List.append_nil base).symm
  | cons b labels ih =>
    obtain ⟨word, parts, hparts⟩ :=
      List.exists_cons_of_ne_nil (List.splitOnP_ne_nil (fun b => !isAlnum b) labels)
    have hcons := List.splitOnP_cons_eq_if_modifyHead (p := fun b => !isAlnum b) b labels
    rw [hparts, List.modifyHead_cons] at hcons
    rw [List.foldl_cons]
    by_cases hb : isAlnum b = true
    · -- The byte starts a word, or goes on with one.
      rw [hb, Bool.not_true, if_neg Bool.false_ne_true] at hcons
      have hb' := ne_underscore_of_isAlnum hb
      constructor
      · rw [idStep, if_pos hb, (ih _).2 b hb' word parts hparts, tag, hcons, tagOf_cons]
        simp
      · intro last _ word' parts' h
        cases hcons.symm.trans h
        rw [List.foldl_cons, idStep, if_pos hb, (ih _).2 b hb' word parts hparts]
        simp
    · -- A separator ends a word. Behind another one it is dropped.
      rw [Bool.not_eq_true] at hb
      rw [hb, Bool.not_false, if_pos rfl] at hcons
      have htag : tag (b :: labels) = tag labels := by
        rw [tag, hcons, tagOf_nil_cons, ← hparts]
        rfl
      have hstep : ¬ isAlnum b = true := by
        rw [hb]
        exact Bool.false_ne_true
      constructor
      · rw [idStep, if_neg hstep, if_pos rfl, (ih base).1, htag]
      · intro last hlast word' parts' h
        cases hcons.symm.trans h
        rw [List.foldl_cons, idStep, if_neg hstep, if_neg hlast, (ih base).1, ← hparts,
          List.append_nil]
        rfl

/-- The loop adds letters, digits and underscores. -/
theorem notMem_foldl_idStep (hb : isAlnum b = false) (hb' : b ≠ underscore) (labels : Bytes)
    (acc : Bytes × UInt8) (hacc : b ∉ acc.1) : b ∉ (labels.foldl idStep acc).1 := by
  induction labels generalizing acc with
  | nil => exact hacc
  | cons rune labels ih =>
    refine ih _ ?_
    unfold idStep
    split_ifs with hrune
    · have hne : b ≠ rune := by
        rintro rfl
        exact absurd (hrune.symm.trans hb) (by decide)
      simp [hacc, hne]
    · exact hacc
    · simp [hacc, hb']

theorem notMem_tag (hb : isAlnum b = false) (hb' : b ≠ underscore) (labels : Bytes) :
    b ∉ tag labels := by
  have heq := (foldl_idStep labels []).1
  rw [List.nil_append, List.nil_append] at heq
  rw [← heq]
  have hfold := notMem_foldl_idStep hb hb' labels ([underscore], underscore) (by simp [hb'])
  unfold closeTag
  split_ifs
  · exact fun hmem => hfold (List.mem_of_mem_take hmem)
  · exact hfold

/-! ### The date -/

theorem formatPadded_eq {n : Nat} (h : n < 100) :
    formatPadded n = [UInt8.ofNat (48 + n / 10), UInt8.ofNat (48 + n % 10)] := by
  have hall : ∀ n < 100,
      formatPadded n = [UInt8.ofNat (48 + n / 10), UInt8.ofNat (48 + n % 10)] := by
    decide +kernel
  exact hall n h

theorem formatPadded_inj {m n : Nat} (hm : m < 100) (hn : n < 100)
    (h : formatPadded m = formatPadded n) : m = n := by
  rw [formatPadded_eq hm, formatPadded_eq hn, List.cons.injEq, List.cons.injEq] at h
  obtain ⟨htens, hones, -⟩ := h
  have htens := congrArg UInt8.toNat htens
  have hones := congrArg UInt8.toNat hones
  rw [UInt8.toNat_ofNat', UInt8.toNat_ofNat'] at htens hones
  omega

theorem length_formatPadded {n : Nat} (h : n < 100) : (formatPadded n).length = 2 := by
  rw [formatPadded_eq h]
  rfl

theorem notMem_decimal (hb : isDigit b = false) (n : Nat) : b ∉ decimal n := by
  intro hmem
  obtain ⟨hlo, hhi⟩ := of_mem_decimal hmem
  rw [isDigit, decide_eq_true hlo, decide_eq_true hhi] at hb
  cases hb

theorem formatInt_inj {m n : Int} (h : formatInt m = formatInt n) : m = n := by
  have hminus : ∀ (k k' : Nat), (45 : UInt8) :: decimal k ≠ decimal k' := fun k k' h =>
    notMem_decimal (b := 45) (by decide) k' (h ▸ List.mem_cons_self)
  unfold formatInt at h
  split_ifs at h with hm hn hn
  · have := decimal_inj (List.cons.inj h).2
    omega
  · exact absurd h (hminus _ _)
  · exact absurd h.symm (hminus _ _)
  · have := decimal_inj h
    omega

/-- The fields of a date. -/
theorem formatDate_inj {d d' : StartTime} (h : formatDate d = formatDate d') : d = d' := by
  obtain ⟨year, month, day, hour, minute, second, _, hmo, hda, hho, hmi, hse⟩ := d
  obtain ⟨year', month', day', hour', minute', second', _, hmo', hda', hho', hmi', hse'⟩ := d'
  have hsplit : ∀ {a b : Bytes} {m n : Nat}, m < 100 → n < 100 →
      a ++ formatPadded m = b ++ formatPadded n → a = b ∧ m = n := fun hm hn h => by
    obtain ⟨hinit, hlast⟩ := List.append_inj' h
      ((length_formatPadded hm).trans (length_formatPadded hn).symm)
    exact ⟨hinit, formatPadded_inj hm hn hlast⟩
  simp only [formatDate] at h
  obtain ⟨h, hsecond⟩ := hsplit (by omega) (by omega) h
  obtain ⟨h, hminute⟩ := hsplit (by omega) (by omega) h
  obtain ⟨h, hhour⟩ := hsplit (by omega) (by omega) h
  obtain ⟨h, hday⟩ := hsplit (by omega) (by omega) (List.append_inj' h rfl).1
  obtain ⟨h, hmonth⟩ := hsplit (by omega) (by omega) (List.append_inj' h rfl).1
  have hyear := formatInt_inj (List.append_inj' h rfl).1
  subst hyear hmonth hday hhour hminute hsecond
  rfl

theorem length_formatDate_lt (d : StartTime) : (formatDate d).length < 64 := by
  have hyear : (formatInt d.year).length ≤ 13 := by
    have := length_decimal_le (by decide) d.year_lt
    unfold formatInt
    split_ifs
    · rw [List.length_cons]
      omega
    · omega
  have hmo := d.month_le
  have hda := d.day_le
  have hho := d.hour_lt
  have hmi := d.minute_lt
  have hse := d.second_lt
  simp only [formatDate, List.length_append, List.length_singleton]
  rw [length_formatPadded (n := d.month) (by omega), length_formatPadded (n := d.day) (by omega),
    length_formatPadded (n := d.hour) (by omega), length_formatPadded (n := d.minute) (by omega),
    length_formatPadded (n := d.second) (by omega)]
  omega

/-- A date has digits and dashes. -/
theorem notMem_formatDate (hb : isDigit b = false) (hdash : b ≠ 45) (d : StartTime) :
    b ∉ formatDate d := by
  have hdigits := notMem_decimal hb
  have hzero : b ≠ 48 := by
    rintro rfl
    exact absurd hb (by decide)
  have hpadded : ∀ n, b ∉ formatPadded n := fun n => by
    unfold formatPadded
    split_ifs
    · exact List.not_mem_cons_of_ne_of_not_mem hzero (hdigits n)
    · exact hdigits n
  have hyear : b ∉ formatInt d.year := by
    unfold formatInt
    split_ifs
    · exact List.not_mem_cons_of_ne_of_not_mem hdash (hdigits _)
    · exact hdigits _
  simp [formatDate, hpadded, hyear, hdash]

/-! ### IDs -/

/-- The ID is the date and the words of the labels, as far as 64 bytes go. -/
theorem resultID_eq (startTime : StartTime) (labels : Bytes) :
    resultID startTime labels
      = formatDate startTime ++ (tag labels).take (64 - (formatDate startTime).length) := by
  have hlt := length_formatDate_lt startTime
  have htake : ∀ t : Bytes, (formatDate startTime ++ t).take 64
      = formatDate startTime ++ t.take (64 - (formatDate startTime).length) := fun t => by
    rw [List.take_append, List.take_of_length_le (by omega)]
  unfold resultID
  by_cases hlabels : labels = []
  · have htag : tag [] = [] := rfl
    rw [if_pos hlabels, hlabels, htag, List.take_nil, List.append_nil]
  · rw [if_neg hlabels, ← htake, ← (foldl_idStep labels (formatDate startTime)).1]
    simp only [closeTag]
    generalize (if _ = underscore then _ else _ : Bytes) = base
    split_ifs with h64
    · rfl
    · exact (List.take_of_length_le (by omega)).symm

theorem slash_notMem_resultID (startTime : StartTime) (labels : Bytes) :
    slash ∉ resultID startTime labels := by
  have hdate : slash ∉ formatDate startTime := notMem_formatDate (by decide) (by decide) startTime
  have htag : slash ∉ tag labels := notMem_tag (by decide) (by decide) labels
  rw [resultID_eq]
  intro hmem
  rcases List.mem_append.mp hmem with hmem | hmem
  · exact hdate hmem
  · exact htag (List.mem_of_mem_take hmem)

theorem tag_head (labels : Bytes) (n : Nat) :
    (tag labels).take n = [] ∨ ∃ rest, (tag labels).take n = underscore :: rest := by
  cases n with
  | zero => exact .inl (List.take_zero)
  | succ n =>
    unfold tag tagOf
    cases (List.splitOnP (fun b => !isAlnum b) labels).filter (· ≠ []) with
    | nil => exact .inl rfl
    | cons word words => exact .inr ⟨_, rfl⟩

/-- Two results have one ID when they started in the same second and the kept parts of their
words are the same. -/
theorem resultID_eq_iff (s s' : StartTime) (labels labels' : Bytes) :
    resultID s labels = resultID s' labels' ↔ s = s' ∧
      (tag labels).take (64 - (formatDate s).length)
        = (tag labels').take (64 - (formatDate s).length) := by
  constructor
  · intro h
    have hdate : ∀ (s : StartTime) (labels : Bytes),
        (resultID s labels).takeWhile (· != underscore) = formatDate s := fun s labels => by
      rw [resultID_eq, takeWhile_append_of_notMem (notMem_formatDate (by decide) (by decide) s)]
      rcases tag_head labels (64 - (formatDate s).length) with h0 | ⟨rest, h0⟩
      · rw [h0, List.takeWhile_nil, List.append_nil]
      · rw [h0, List.takeWhile_cons_of_neg (by simp), List.append_nil]
    obtain rfl := formatDate_inj ((hdate s labels).symm.trans (h ▸ hdate s' labels'))
    rw [resultID_eq, resultID_eq] at h
    exact ⟨rfl, List.append_cancel_left h⟩
  · rintro ⟨rfl, h⟩
    rw [resultID_eq, resultID_eq, h]

end IstioVendor.Periodic
