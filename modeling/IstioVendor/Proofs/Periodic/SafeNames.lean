import Mathlib.Data.List.Chain
import IstioVendor.Lib.Files
import IstioVendor.Proofs.Periodic.ResultId

/-!
# `IstioVendor.Proofs.Periodic.SafeNames`: IDs as names of files

An ID is made of letters, digits, dashes and underscores, it is at most 64 bytes long, and there are
no two underscores in a row. The loop of `ID` keeps this, and cutting the text off does too.

The loop drops an underscore at the end of the labels, but the text is cut off behind that. If the
64th byte is the underscore in front of a word, then the ID ends with it. `resultID_safe_iff` says
that there is no other way: the date and the first words, each behind an underscore, are 63 bytes
long together, and there is another word.

`resultIDOfRunes_eq` is about the loop of the source, which goes over runes.
-/

set_option autoImplicit false

namespace IstioVendor.Periodic

open Lib

/-! ### Words -/

variable {b : UInt8} {rune : Char} {acc : Bytes × UInt8} {runes : Bytes × Char}

section
variable {ws : List Bytes}

/-- The runs of letters and digits in the labels. -/
def words (labels : Bytes) : List Bytes :=
  (labels.splitOnP fun b => !isAlnum b).filter (· ≠ [])

/-- Words are not empty, and they are made of letters and digits. -/
def AreWords (ws : List Bytes) : Prop := ∀ w ∈ ws, w ≠ [] ∧ ∀ b ∈ w, isAlnum b = true

/-- Each word behind an underscore. -/
def joined (ws : List Bytes) : Bytes := ws.flatMap fun word => underscore :: word

@[simp] theorem joined_nil : joined [] = [] := rfl

@[simp] theorem joined_cons (w : Bytes) (ws : List Bytes) :
    joined (w :: ws) = underscore :: w ++ joined ws := rfl

theorem tag_eq_joined (labels : Bytes) : tag labels = joined (words labels) := rfl

theorem areWords_words (labels : Bytes) : AreWords (words labels) := by
  intro w hw
  obtain ⟨hmem, hne⟩ := List.mem_filter.mp hw
  refine ⟨of_decide_eq_true hne, fun b hb => ?_⟩
  have hnot := of_mem_splitOnP hmem b hb
  rwa [Bool.not_eq_false'] at hnot

theorem AreWords.tail {w : Bytes} (h : AreWords (w :: ws)) : AreWords ws :=
  fun w' hw' => h w' (List.mem_cons_of_mem w hw')

theorem of_mem_joined (h : AreWords ws) (hb : b ∈ joined ws) :
    isAlnum b = true ∨ b = underscore := by
  obtain ⟨w, hw, hb⟩ := List.mem_flatMap.mp hb
  rcases List.mem_cons.mp hb with rfl | hb
  · exact .inr rfl
  · exact .inl ((h w hw).2 b hb)

/-- The two bytes are not both underscores. -/
def Apart (a b : UInt8) : Prop := ¬ (a = underscore ∧ b = underscore)

/-- Behind bytes that are no underscores, a text stays as it is. -/
theorem isChain_append_of_notMem {s t : Bytes} (hs : underscore ∉ s) (ht : t.IsChain Apart) :
    (s ++ t).IsChain Apart := by
  induction s with
  | nil => exact ht
  | cons a s ih =>
    have ha : a ≠ underscore := fun h => hs (h ▸ List.mem_cons_self)
    have hrest := ih fun h => hs (List.mem_cons_of_mem a h)
    exact List.isChain_cons.mpr ⟨fun b _ hab => ha hab.1, hrest⟩

theorem isChain_joined (h : AreWords ws) : (joined ws).IsChain Apart := by
  induction ws with
  | nil => exact List.isChain_nil
  | cons w ws ih =>
    obtain ⟨hne, halnum⟩ := h w List.mem_cons_self
    have hw : underscore ∉ w := fun hmem => ne_underscore_of_isAlnum (halnum _ hmem) rfl
    have hrest : (w ++ joined ws).IsChain Apart := isChain_append_of_notMem hw (ih h.tail)
    refine List.isChain_cons.mpr ⟨fun b hb hab => hw ?_, hrest⟩
    -- The byte behind the underscore is the first one of the word.
    obtain ⟨a, w', rfl⟩ := List.exists_cons_of_ne_nil hne
    cases hb
    exact hab.2 ▸ List.mem_cons_self

/-- The underscores stand in front of the words. -/
theorem getElem?_joined_eq_underscore_iff (h : AreWords ws) (n : Nat) :
    (joined ws)[n]? = some underscore ↔ ∃ k < ws.length, (joined (ws.take k)).length = n := by
  induction ws generalizing n with
  | nil => simp
  | cons w ws ih =>
    have hw : underscore ∉ w := fun hmem =>
      ne_underscore_of_isAlnum ((h w List.mem_cons_self).2 _ hmem) rfl
    rw [joined_cons, List.cons_append]
    cases n with
    | zero => exact iff_of_true rfl ⟨0, Nat.succ_pos _, rfl⟩
    | succ n =>
      rw [List.getElem?_cons_succ]
      by_cases hn : n < w.length
      · -- The byte is inside the word, where there is no underscore.
        rw [List.getElem?_append_left hn]
        refine iff_of_false (fun hget => hw (List.mem_of_getElem? hget)) ?_
        rintro ⟨k, -, hk⟩
        cases k with
        | zero => simp at hk
        | succ k =>
          simp at hk
          omega
      · rw [List.getElem?_append_right (Nat.le_of_not_lt hn), ih h.tail]
        constructor
        · rintro ⟨k, hk, hlength⟩
          refine ⟨k + 1, Nat.succ_lt_succ hk, ?_⟩
          simp
          omega
        · rintro ⟨k, hk, hlength⟩
          cases k with
          | zero => simp at hlength
          | succ k =>
            refine ⟨k, Nat.lt_of_succ_lt_succ hk, ?_⟩
            simp at hlength
            omega

/-- The last byte belongs to a word. -/
theorem getLast?_joined_ne (h : AreWords ws) : (joined ws).getLast? ≠ some underscore := by
  rw [List.getLast?_eq_getElem?]
  intro hlast
  obtain ⟨k, hk, hlength⟩ := (getElem?_joined_eq_underscore_iff h _).mp hlast
  obtain ⟨hne, -⟩ := h ws[k] (List.getElem_mem hk)
  -- The word that follows the last underscore would be empty.
  have hdrop : joined ws = joined (ws.take k) ++ joined (ws.drop k) := by
    unfold joined
    rw [← List.flatMap_append, List.take_append_drop]
  have hpos := List.length_pos_iff.mpr hne
  rw [hdrop, List.length_append, List.drop_eq_getElem_cons hk, joined_cons, List.length_append,
    List.length_cons] at hlength
  omega

end

/-! ### IDs -/

/-- An ID that is a safe and normalised name for a file. -/
structure SafeName (startTime : StartTime) (id : Bytes) : Prop where
  length_le : id.length ≤ 64
  starts : formatDate startTime <+: id
  chars : ∀ b ∈ id, isAlnum b = true ∨ b = 45 ∨ b = underscore
  inside : ∀ dir : FilePath, ∃ name : FileName, name.bytes = id ∧ dir.join id = dir ++ [name]
  collapsed : ∀ pre post, id ≠ pre ++ underscore :: underscore :: post
  closed : id.getLast? ≠ some underscore

section
variable (startTime : StartTime) (labels : Bytes)

/-- The date and the first words of the labels fill 63 bytes, and there is another word. -/
def CutBeforeWord : Prop :=
  ∃ k < (words labels).length,
    (formatDate startTime).length + (joined ((words labels).take k)).length = 63

theorem underscore_notMem_formatDate : underscore ∉ formatDate startTime :=
  notMem_formatDate (by decide) (by decide) startTime

theorem formatDate_chars (hb : b ∈ formatDate startTime) : isAlnum b = true ∨ b = 45 := by
  by_contra hnot
  rw [not_or, Bool.not_eq_true] at hnot
  have hdigit : isDigit b = false := by
    have halnum := hnot.1
    simp only [isAlnum, Bool.or_eq_false_iff] at halnum
    exact halnum.1.1
  exact notMem_formatDate hdigit hnot.2 startTime hb

theorem resultID_isPrefix : resultID startTime labels <+: formatDate startTime ++ tag labels := by
  rw [resultID_eq]
  exact (List.prefix_append_right_inj _).mpr (List.take_prefix _ _)

theorem length_resultID_le : (resultID startTime labels).length ≤ 64 := by
  have hlt := length_formatDate_lt startTime
  rw [resultID_eq, List.length_append, List.length_take]
  omega

theorem formatDate_isPrefix : formatDate startTime <+: resultID startTime labels := by
  rw [resultID_eq]
  exact List.prefix_append _ _

theorem resultID_chars (hb : b ∈ resultID startTime labels) :
    isAlnum b = true ∨ b = 45 ∨ b = underscore := by
  rcases List.mem_append.mp ((resultID_isPrefix startTime labels).mem hb) with hb | hb
  · exact (formatDate_chars startTime hb).imp_right .inl
  · rw [tag_eq_joined] at hb
    exact (of_mem_joined (areWords_words labels) hb).imp_right .inr

theorem isChain_resultID : (resultID startTime labels).IsChain Apart := by
  have hall : (formatDate startTime ++ tag labels).IsChain Apart := by
    exact isChain_append_of_notMem (underscore_notMem_formatDate startTime)
      (isChain_joined (areWords_words labels))
  obtain ⟨rest, hrest⟩ := resultID_isPrefix startTime labels
  rw [← hrest] at hall
  exact hall.left_of_append

theorem formatDate_ne_nil : formatDate startTime ≠ [] := by
  simp [formatDate]

/-- An ID has no dot in it, so that it is the name of an entry of a directory. -/
theorem isName_resultID : IsName (resultID startTime labels) := by
  have hdot : dot ∉ resultID startTime labels := by
    intro hmem
    have hchars := resultID_chars startTime labels hmem
    exact absurd hchars (by decide)
  refine ⟨slash_notMem_resultID startTime labels, ?_, ?_, ?_⟩
  · intro hnil
    have hdate := formatDate_isPrefix startTime labels
    rw [hnil] at hdate
    exact formatDate_ne_nil startTime (List.prefix_nil.mp hdate)
  · intro h
    exact hdot (h ▸ List.mem_cons_self)
  · intro h
    exact hdot (h ▸ List.mem_cons_self)

theorem getLast?_resultID_iff :
    (resultID startTime labels).getLast? = some underscore ↔ CutBeforeWord startTime labels := by
  have hlt := length_formatDate_lt startTime
  have hwords := areWords_words labels
  have hdate : (formatDate startTime).getLast? ≠ some underscore := fun h =>
    underscore_notMem_formatDate startTime (List.mem_of_getLast? h)
  -- The last byte of an ID that is cut off is the 64th one.
  have hcut : CutBeforeWord startTime labels
      ↔ (tag labels)[63 - (formatDate startTime).length]? = some underscore := by
    rw [tag_eq_joined, getElem?_joined_eq_underscore_iff hwords]
    refine exists_congr fun k => and_congr_right fun _ => ?_
    omega
  have hindex : 64 - (formatDate startTime).length - 1 = 63 - (formatDate startTime).length := by
    omega
  rw [hcut, resultID_eq, List.getLast?_append, List.getLast?_take, if_neg (by omega), hindex]
  cases hget : (tag labels)[63 - (formatDate startTime).length]? with
  | some b => simp
  | none =>
    -- Nothing is cut off, and neither a word nor the date ends with an underscore.
    refine iff_of_false ?_ (by simp)
    cases hlast : (tag labels).getLast? with
    | none =>
      exact hdate
    | some b =>
      intro h
      cases h
      exact getLast?_joined_ne hwords hlast

/-- An ID is a safe and normalised name iff it is not cut off right before a word. -/
theorem resultID_safe_iff :
    SafeName startTime (resultID startTime labels) ↔ ¬ CutBeforeWord startTime labels := by
  rw [← getLast?_resultID_iff]
  constructor
  · exact SafeName.closed
  · intro hclosed
    refine ⟨length_resultID_le startTime labels, formatDate_isPrefix startTime labels,
      fun b => resultID_chars startTime labels, fun dir => ?_, fun pre post heq => ?_, hclosed⟩
    · exact ⟨⟨_, isName_resultID startTime labels⟩, rfl, FilePath.join_name dir ⟨_, _⟩⟩
    · have hchain := isChain_resultID startTime labels
      rw [heq] at hchain
      exact (List.isChain_cons_cons.mp hchain.right_of_append).1 ⟨rfl, rfl⟩

end

/-- The start of the run below. -/
def aprilMorning : StartTime where
  year := 2019
  month := 4
  day := 16
  hour := 7
  minute := 7
  second := 30
  year_lt := by decide
  month_le := by decide
  day_le := by decide
  hour_lt := by decide
  minute_lt := by decide
  second_lt := by decide

/-- A label of 45 letters and one more word: the ID ends with an underscore. -/
theorem resultID_ends_with_underscore :
    resultID aprilMorning (List.replicate 45 97 ++ ascii " b")
        = ascii "2019-04-16-070730_" ++ List.replicate 45 97 ++ ascii "_" ∧
      ¬ SafeName aprilMorning (resultID aprilMorning (List.replicate 45 97 ++ ascii " b")) := by
  have heq : resultID aprilMorning (List.replicate 45 97 ++ ascii " b")
      = ascii "2019-04-16-070730_" ++ List.replicate 45 97 ++ ascii "_" := by
    decide +kernel
  refine ⟨heq, fun hsafe => hsafe.closed ?_⟩
  decide +kernel

/-! ### Runes -/

theorem utf8EncodeChar_low (h : rune.val.toNat ≤ 127) :
    String.utf8EncodeChar rune = [UInt8.ofNat rune.val.toNat] := by
  exact if_pos h

theorem utf8EncodeChar_high (h : ¬ rune.val.toNat ≤ 127) :
    String.utf8EncodeChar rune ≠ [] ∧ ∀ b ∈ String.utf8EncodeChar rune, 128 ≤ b.toNat := by
  unfold String.utf8EncodeChar
  dsimp only
  split_ifs <;> simp <;> omega

theorem isAlnum_iff (b : UInt8) : isAlnum b = true ↔
    (48 ≤ b.toNat ∧ b.toNat ≤ 57) ∨ (97 ≤ b.toNat ∧ b.toNat ≤ 122) ∨
      (65 ≤ b.toNat ∧ b.toNat ≤ 90) := by
  simp only [isAlnum, isDigit, isLower, isUpper, Bool.or_eq_true, Bool.and_eq_true,
    decide_eq_true_eq, UInt8.le_iff_toNat_le]
  exact or_assoc

theorem isAlnumRune_iff (rune : Char) : isAlnumRune rune = true ↔
    (97 ≤ rune.val.toNat ∧ rune.val.toNat ≤ 122) ∨ (65 ≤ rune.val.toNat ∧ rune.val.toNat ≤ 90) ∨
      (48 ≤ rune.val.toNat ∧ rune.val.toNat ≤ 57) := by
  simp only [isAlnumRune, Bool.or_eq_true, Bool.and_eq_true, decide_eq_true_eq, ge_iff_le,
    Char.le_def, UInt32.le_iff_toNat_le]
  exact or_assoc

/-- The loop over bytes and the loop over runes are at the same point. -/
structure SamePoint (acc : Bytes × UInt8) (runes : Bytes × Char) : Prop where
  text : acc.1 = runes.1
  last : acc.2 = underscore ↔ runes.2 = '_'

/-- Separators in a row are one separator. -/
theorem foldl_idStep_separators {bytes : Bytes} (hne : bytes ≠ [])
    (hsep : ∀ b ∈ bytes, isAlnum b = false) (acc : Bytes × UInt8) :
    bytes.foldl idStep acc
      = if acc.2 = underscore then acc else (acc.1 ++ [underscore], underscore) := by
  induction bytes generalizing acc with
  | nil => exact absurd rfl hne
  | cons b bytes ih =>
    have hstep : idStep acc b
        = if acc.2 = underscore then acc else (acc.1 ++ [underscore], underscore) := by
      rw [idStep, hsep b List.mem_cons_self, if_neg Bool.false_ne_true]
    rw [List.foldl_cons, hstep]
    by_cases hbytes : bytes = []
    · rw [hbytes, List.foldl_nil]
    · rw [ih hbytes fun b' hb' => hsep b' (List.mem_cons_of_mem b hb')]
      by_cases hlast : acc.2 = underscore
      · rw [if_pos hlast, if_pos hlast]
      · rw [if_neg hlast, if_pos rfl]

/-- The bytes of a rune that is no letter and no digit are separators. -/
theorem separators_of_rune (h : isAlnumRune rune = false) :
    String.utf8EncodeChar rune ≠ [] ∧ ∀ b ∈ String.utf8EncodeChar rune, isAlnum b = false := by
  have hrune := (not_congr (isAlnumRune_iff rune)).mp (Bool.eq_false_iff.mp h)
  by_cases hlow : rune.val.toNat ≤ 127
  · rw [utf8EncodeChar_low hlow]
    refine ⟨List.cons_ne_nil _ _, fun b hb => ?_⟩
    obtain rfl := List.mem_singleton.mp hb
    rw [Bool.eq_false_iff, ne_eq, isAlnum_iff, UInt8.toNat_ofNat']
    omega
  · obtain ⟨hne, hhigh⟩ := utf8EncodeChar_high hlow
    refine ⟨hne, fun b hb => ?_⟩
    have hb := hhigh b hb
    rw [Bool.eq_false_iff, ne_eq, isAlnum_iff]
    omega

/-- A letter or a digit is one byte. -/
theorem byte_of_rune (h : isAlnumRune rune = true) :
    ∃ b, String.utf8EncodeChar rune = [b] ∧ isAlnum b = true := by
  have hrune := (isAlnumRune_iff rune).mp h
  refine ⟨UInt8.ofNat rune.val.toNat, utf8EncodeChar_low (by omega), ?_⟩
  rw [isAlnum_iff, UInt8.toNat_ofNat']
  omega

theorem SamePoint.step (h : SamePoint acc runes) (rune : Char) :
    SamePoint ((String.utf8EncodeChar rune).foldl idStep acc) (idRuneStep runes rune) := by
  unfold idRuneStep
  cases hrune : isAlnumRune rune with
  | true =>
    obtain ⟨b, hbytes, hb⟩ := byte_of_rune hrune
    rw [if_pos rfl, hbytes, List.foldl_cons, List.foldl_nil, idStep, if_pos hb, h.text]
    have hne : rune ≠ '_' := by
      rintro rfl
      exact absurd hrune (by decide)
    exact ⟨rfl, iff_of_false (ne_underscore_of_isAlnum hb) hne⟩
  | false =>
    -- The rune can be several bytes. They are separators in a row.
    obtain ⟨hne, hsep⟩ := separators_of_rune hrune
    rw [if_neg Bool.false_ne_true, foldl_idStep_separators hne hsep]
    by_cases hlast : acc.2 = underscore
    · rw [if_pos hlast, if_pos (h.last.mp hlast)]
      exact h
    · rw [if_neg hlast, if_neg fun hr => hlast (h.last.mpr hr), h.text]
      exact ⟨rfl, iff_of_true rfl rfl⟩

theorem SamePoint.run (h : SamePoint acc runes) (labels : List Char) :
    SamePoint ((labels.flatMap String.utf8EncodeChar).foldl idStep acc)
      (labels.foldl idRuneStep runes) := by
  induction labels generalizing acc runes with
  | nil => exact h
  | cons rune labels ih =>
    rw [List.flatMap_cons, List.foldl_append, List.foldl_cons]
    exact ih (h.step rune)

/-- The loop over the runes of a text makes the ID that the loop over its bytes makes. -/
theorem resultIDOfRunes_eq (startTime : StartTime) (labels : List Char) :
    resultIDOfRunes startTime labels
      = resultID startTime (labels.flatMap String.utf8EncodeChar) := by
  have hnil : labels.flatMap String.utf8EncodeChar = [] ↔ labels = [] := by
    refine ⟨fun h => List.eq_nil_iff_forall_not_mem.mpr fun rune hrune => ?_, fun h => h ▸ rfl⟩
    have hbytes := List.flatMap_eq_nil_iff.mp h rune hrune
    cases halnum : isAlnumRune rune with
    | true =>
      obtain ⟨b, hb, -⟩ := byte_of_rune halnum
      exact absurd (hb.symm.trans hbytes) (List.cons_ne_nil b [])
    | false => exact (separators_of_rune halnum).1 hbytes
  have hstart : SamePoint (formatDate startTime ++ [underscore], underscore)
      (formatDate startTime ++ String.utf8EncodeChar '_', '_') :=
    ⟨rfl, iff_of_true rfl rfl⟩
  have hend := hstart.run labels
  unfold resultIDOfRunes resultID
  by_cases hlabels : labels = []
  · rw [if_pos hlabels, if_pos (hnil.mpr hlabels)]
  · rw [if_neg hlabels, if_neg fun h => hlabels (hnil.mp h)]
    dsimp only
    rw [hend.text]
    simp only [hend.last]

end IstioVendor.Periodic
