import Mathlib.Algebra.Order.BigOperators.Group.List
import Mathlib.Algebra.Order.Floor.Ring
import Mathlib.Data.Rat.Floor
import IstioVendor.Fhttp.EchoServer
import IstioVendor.Lib.HttpMessage
import IstioVendor.Lib.Ranges
import IstioVendor.Lib.Simulation

/-!
# `IstioVendor.Proofs.Fhttp.EchoServer`: the weighted choice of the echo server

A list of entries with the percentages `ps` cuts the rolls from 0 to 100 into ranges. `cumulative`
are their ends: the sums of the percentages, rounded to four digits. `generate_eq` says that
`Choice.generate` goes by them alone: it selects the first entry whose end is not below the roll.

A roll that is no end is in the range of this entry. A roll that is an end belongs to the next
range, and the three functions return the entry before it (`weighted_choice_iff`). So an
entry of no percent at all is returned when the roll hits its end, for the first entry
when it is 0 (`zero_percent_selected`).
-/

set_option autoImplicit false

namespace IstioVendor.Fhttp

open Lib

/-! ### Rounding -/

theorem round_mono {x y : Rat} (h : x ≤ y) : Stats.round x ≤ Stats.round y := by
  unfold Stats.round Stats.roundToDigits
  dsimp only
  have hfloor : (x * 10 ^ 4 + 1 / 2).floor ≤ (y * 10 ^ 4 + 1 / 2).floor := by
    have hle : x * 10 ^ 4 + 1 / 2 ≤ y * 10 ^ 4 + 1 / 2 := by gcongr
    exact Int.floor_le_floor hle
  gcongr

/-! ### The ends of the ranges -/

/-- The rounded sums of the percentages, behind the sum `before`. -/
def cumulativeFrom (before : Rat) : List Rat → List Rat
  | [] => []
  | p :: ps => Stats.round (before + p) :: cumulativeFrom (before + p) ps

/-- The ends of the ranges. -/
def cumulative (ps : List Rat) : List Rat := cumulativeFrom 0 ps

theorem length_cumulativeFrom (before : Rat) (ps : List Rat) :
    (cumulativeFrom before ps).length = ps.length := by
  induction ps generalizing before with
  | nil => rfl
  | cons p ps ih => rw [cumulativeFrom, List.length_cons, ih, List.length_cons]

/-- The end of a range is the rounded sum up to it. -/
theorem getElem?_cumulativeFrom (before : Rat) (ps : List Rat) (i : Nat) :
    (cumulativeFrom before ps)[i]?
      = if i < ps.length then some (Stats.round (before + (ps.take (i + 1)).sum)) else none := by
  induction ps generalizing before i with
  | nil => simp [cumulativeFrom]
  | cons p ps ih =>
    cases i with
    | zero => simp [cumulativeFrom]
    | succ i =>
      rw [cumulativeFrom, List.getElem?_cons_succ, ih]
      simp [add_assoc]

variable {ps : List Rat}

theorem cumulative_pairwise (hps : ∀ p ∈ ps, 0 ≤ p) (before : Rat) :
    (∀ w ∈ cumulativeFrom before ps, Stats.round before ≤ w) ∧
      (cumulativeFrom before ps).Pairwise (· ≤ ·) := by
  induction ps generalizing before with
  | nil => exact ⟨fun w hw => absurd hw List.not_mem_nil, List.Pairwise.nil⟩
  | cons p ps ih =>
    rw [List.forall_mem_cons] at hps
    obtain ⟨hfirst, hrest⟩ := ih hps.2 (before + p)
    have hstep : Stats.round before ≤ Stats.round (before + p) :=
      round_mono (le_add_of_nonneg_right hps.1)
    refine ⟨fun w hw => ?_, List.pairwise_cons.mpr ⟨hfirst, hrest⟩⟩
    rcases List.mem_cons.mp hw with rfl | hw
    · exact hstep
    · exact hstep.trans (hfirst w hw)

/-! ### Lists of entries -/

/-- An entry of a list, `value:percent`. -/
structure Entry where
  value : Bytes
  percent : Bytes

def Entry.text (e : Entry) : Bytes := e.value ++ colon :: e.percent

/-- The text of a list. -/
def listText (es : List Entry) : Bytes := [comma].intercalate (es.map Entry.text)

/-- A list of well-formed entries for a choice, with the percentages `ps` and the values `vs`. -/
structure WellFormedList (env : EchoEnv) (ch : Choice) (es : List Entry) (ps : List Rat)
    (vs : List Int) : Prop where
  ne : es ≠ []
  commas : ∀ e ∈ es, comma ∉ e.value ∧ comma ∉ e.percent
  colons : ∀ e ∈ es, colon ∉ e.value ∧ colon ∉ e.percent
  percents : List.Forall₂ (fun e p => env.parseFloat (removeTrailingPercent e.percent) = some p ∧
    0 ≤ p ∧ p ≤ 100) es ps
  values : List.Forall₂ (fun e v => ch.value e.value = some v) es vs
  sums : ∀ w ∈ cumulative ps, w ≤ 100

theorem splitOn_entry {e : Entry} (h : colon ∉ e.value ∧ colon ∉ e.percent) :
    e.text.splitOn colon = [e.value, e.percent] := by
  rw [Entry.text, List.splitOn_append_cons_self, List.splitOn_eq_singleton h.1,
    List.splitOn_eq_singleton h.2]
  rfl

/-- The number of the entry at which the loop over the weights returns. -/
def Choice.selected (env : EchoEnv) (ch : Choice) (input : Bytes) (res : Rat) : Option Nat :=
  (weigh env ch.value 0 (input.splitOn comma)).bind fun table =>
    selectIdx res (table.map Prod.fst)

/-- The loop over well-formed entries. -/
theorem weigh_eq {env : EchoEnv} {value : Bytes → Option Int} {es : List Entry} {vs : List Int}
    {before : Rat} (hcolons : ∀ e ∈ es, colon ∉ e.value ∧ colon ∉ e.percent)
    (hps : List.Forall₂ (fun e p => env.parseFloat (removeTrailingPercent e.percent) = some p ∧
      0 ≤ p ∧ p ≤ 100) es ps) (hvs : List.Forall₂ (fun e v => value e.value = some v) es vs)
    (hsums : ∀ w ∈ cumulativeFrom before ps, w ≤ 100) :
    weigh env value before (es.map Entry.text) = some ((cumulativeFrom before ps).zip vs) := by
  induction hps generalizing vs before with
  | nil =>
    cases hvs
    rfl
  | @cons e p es ps hp _ ih =>
    obtain ⟨v, vs, hv, hrest, rfl⟩ := List.forall₂_cons_left_iff.mp hvs
    rw [List.forall_mem_cons] at hcolons
    rw [cumulativeFrom, List.forall_mem_cons] at hsums
    have hrange : ¬ (p < 0 ∨ 100 < p) := by
      rintro (h | h)
      · exact not_lt.mpr hp.2.1 h
      · exact not_lt.mpr hp.2.2 h
    rw [List.map_cons, weigh, splitOn_entry hcolons.1]
    simp only [hv, hp.1, Option.bind_eq_bind, Option.bind_some, hrange, if_false,
      not_lt.mpr hsums.1, ih hcolons.2 hrest hsums.2]
    rfl

section
variable {env : EchoEnv} {ch : Choice} {es : List Entry} {ps : List Rat} {vs : List Int}

theorem splitOn_listText (h : WellFormedList env ch es ps vs) :
    (listText es).splitOn comma = es.map Entry.text := by
  refine List.splitOn_intercalate comma (fun s hs => ?_) ?_
  · obtain ⟨e, he, rfl⟩ := List.mem_map.mp hs
    have hcommas := h.commas e he
    have hne : comma ≠ colon := by decide
    simp [Entry.text, hcommas.1, hcommas.2, hne]
  · simpa using h.ne

theorem colon_mem_listText (h : es ≠ []) : colon ∈ listText es := by
  obtain ⟨e, es, rfl⟩ := List.exists_cons_of_ne_nil h
  have hmem : colon ∈ e.text := by simp [Entry.text]
  cases es with
  | nil => simpa [listText] using hmem
  | cons e' es =>
    rw [listText, List.map_cons, List.map_cons, List.intercalate_cons_cons]
    exact List.mem_append_left _ (List.mem_append_left _ hmem)

section
variable (h : WellFormedList env ch es ps vs)
include h

/-- On well-formed entries the choice goes by the ends of the ranges alone. -/
theorem generate_eq (res : Rat) :
    ch.generate env (listText es) res = ch.pick vs (selectIdx res (cumulative ps)) := by
  have hlen : (cumulativeFrom 0 ps).length = vs.length := by
    rw [length_cumulativeFrom, ← h.percents.length_eq, h.values.length_eq]
  have hsimple : ¬ (((listText es).splitOn comma).length = 1 ∧ colon ∉ listText es) :=
    fun hs => hs.2 (colon_mem_listText h.ne)
  have hweigh := weigh_eq h.colons h.percents h.values h.sums
  unfold Choice.generate
  rw [if_neg hsimple, splitOn_listText h, hweigh]
  dsimp only
  rw [List.map_fst_zip hlen.le, List.map_snd_zip hlen.ge]
  rfl

theorem selected_eq (res : Rat) :
    ch.selected env (listText es) res = selectIdx res (cumulative ps) := by
  have hlen : (cumulativeFrom 0 ps).length = vs.length := by
    rw [length_cumulativeFrom, ← h.percents.length_eq, h.values.length_eq]
  have hweigh := weigh_eq h.colons h.percents h.values h.sums
  rw [Choice.selected, splitOn_listText h, hweigh, Option.bind_some, List.map_fst_zip hlen.le]
  rfl

theorem listText_length_ne : (listText es).length ≠ 0 :=
  List.length_pos_of_mem (colon_mem_listText h.ne) |>.ne'

theorem percents_nonneg : ∀ p ∈ ps, 0 ≤ p := by
  intro p hp
  obtain ⟨e, -, he⟩ := forall₂_mem h.percents hp
  exact he.2.1

end

end

/-! ### The choice -/

/-- The choice of the range with the number `idx` is right for a roll: the roll is in the range, an
entry of no percent is not chosen, and nor is the remainder when the entries sum up to 100. -/
structure RightChoice (ps : List Rat) (r : Rat) (idx : Option Nat) : Prop where
  inRange : InRange 0 (cumulative ps) r idx
  percent : ∀ i, idx = some i → ps[i]? ≠ some 0
  remainder : ps.sum = 100 → idx ≠ none

/-- A range of no percent is empty. -/
theorem rangeStart_eq_of_zero {i : Nat} (h : ps[i]? = some 0) :
    (cumulative ps)[i]? = some (rangeStart 0 (cumulative ps) i) := by
  have hi : i < ps.length := (List.getElem?_eq_some_iff.mp h).1
  have hsum : (ps.take (i + 1)).sum = (ps.take i).sum := by
    rw [List.take_add_one, h]
    simp
  unfold cumulative rangeStart
  rw [getElem?_cumulativeFrom, if_pos hi, hsum]
  congr 1
  split_ifs with hzero
  · simp [hzero, show Stats.round 0 = 0 by decide +kernel]
  · rw [List.getD_eq_getElem?_getD, getElem?_cumulativeFrom, if_pos (by omega),
      Nat.sub_add_cancel (by omega)]
    rfl

/-- The last range ends at the rounded sum. -/
theorem getLast?_cumulative (h : ps ≠ []) :
    (cumulative ps).getLast? = some (Stats.round ps.sum) := by
  have hpos : 0 < ps.length := List.length_pos_iff.mpr h
  rw [cumulative, List.getLast?_eq_getElem?, length_cumulativeFrom, getElem?_cumulativeFrom,
    if_pos (by omega), Nat.sub_add_cancel hpos, List.take_length, zero_add]

theorem rightChoice_of_inRange {r : Rat} {idx : Option Nat} (hps : ps ≠ []) (hr : r < 100)
    (h : InRange 0 (cumulative ps) r idx) : RightChoice ps r idx where
  inRange := h
  percent := by
    rintro i rfl hzero
    obtain ⟨w, hw, hstart, hend⟩ := h
    rw [rangeStart_eq_of_zero hzero] at hw
    exact absurd hend (not_lt.mpr (Option.some.inj hw ▸ hstart))
  remainder := by
    rintro hsum rfl
    have hlast : (100 : Rat) ≤ r := h 100 (by
      rw [getLast?_cumulative hps, hsum, show Stats.round 100 = 100 by decide +kernel]
      rfl)
    exact absurd hr (not_lt.mpr hlast)

theorem rightChoice_selectIdx_iff {r : Rat} (hps : ps ≠ []) (hnonneg : ∀ p ∈ ps, 0 ≤ p)
    (hr0 : 0 ≤ r) (hr : r < 100) :
    RightChoice ps r (selectIdx r (cumulative ps)) ↔ r ∉ cumulative ps := by
  have hiff := inRange_findIdx_iff hr0 (cumulative_pairwise hnonneg 0).2
  exact ⟨fun h => hiff.mp h.inRange, fun h => rightChoice_of_inRange hps hr (hiff.mpr h)⟩

/-- A text with the values `vs` leads to the result `out`, by its entry with the number `idx` or by
the remainder. -/
structure Choice.Goes (env : EchoEnv) (ch : Choice) (input : Bytes) (vs : List Int) (r : Rat)
    (out : Int) (idx : Option Nat) : Prop where
  selected : ch.selected env input r = idx
  out : out = ch.pick vs idx

/-- The weighted choice of the echo server. Three lists of well-formed entries with the same
percentages lead the three functions to the same entry. This is the entry in whose range the roll
is, or the remainder behind all ranges, exactly when the roll is not itself the end of a range. -/
theorem weighted_choice_iff (env : EchoEnv) (ps : List Rat) (r : Rat)
    (statuses sizes delays : List Entry) (codes lengths durations : List Int)
    (hstatus : WellFormedList env (statusChoice env) statuses ps codes)
    (hsize : WellFormedList env (sizeChoice env) sizes ps lengths)
    (hdelay : WellFormedList env (delayChoice env) delays ps durations)
    (hr0 : 0 ≤ r) (hr : r < 100) :
    (∃ idx,
      (statusChoice env).Goes env (listText statuses) codes r
        (generateStatus env (listText statuses) r) idx ∧
      (sizeChoice env).Goes env (listText sizes) lengths r
        (generateSize env (listText sizes) r) idx ∧
      (delayChoice env).Goes env (listText delays) durations r
        (generateDelay env (listText delays) r) idx ∧
      RightChoice ps r idx) ↔ r ∉ cumulative ps := by
  have hps : ps ≠ [] := by
    rintro rfl
    exact hstatus.ne (List.forall₂_nil_right_iff.mp hstatus.percents)
  have hiff := rightChoice_selectIdx_iff hps (percents_nonneg hstatus) hr0 hr
  refine ⟨fun ⟨idx, hgoes, _, _, hright⟩ => ?_, fun hr => ?_⟩
  · rw [← hgoes.selected, selected_eq hstatus] at hright
    exact hiff.mp hright
  · refine ⟨selectIdx r (cumulative ps), ⟨selected_eq hstatus r, generate_eq hstatus r⟩,
      ⟨selected_eq hsize r, ?_⟩, ⟨selected_eq hdelay r, ?_⟩, hiff.mpr hr⟩
    · rw [generateSize, if_neg (listText_length_ne hsize), generate_eq hsize]
    · rw [generateDelay, if_neg (listText_length_ne hdelay), generate_eq hdelay]

/-- The value of a text of digits. -/
def sampleNumber (s : Bytes) : Option Nat :=
  if s = [] then none else Http.numeral 10 Http.decVal 0 s

/-- Whole numbers and percentages, and durations in milliseconds. -/
def sampleEnv : EchoEnv where
  atoi := fun s => (sampleNumber s).map (fun n => (n : Int))
  parseFloat := fun s => (sampleNumber s).map (fun n => (n : Rat))
  parseDuration := fun s =>
    if s.drop (s.length - 2) = ascii "ms" then
      (sampleNumber (s.take (s.length - 2))).map (fun n => (n : Int) * 1000000)
    else none
  maxPayloadSize := 262144

/-- A list of two entries, the first one of 0 percent and the second one of 50 percent. -/
def sampleList (first second : String) : List Entry :=
  [⟨ascii first, ascii "0"⟩, ⟨ascii second, ascii "50%"⟩]

theorem sampleList_wellFormed {ch : Choice} {first second : String} {v w : Int}
    (hfirst : ch.value (ascii first) = some v) (hsecond : ch.value (ascii second) = some w)
    (hclean : ∀ s ∈ [first, second], comma ∉ ascii s ∧ colon ∉ ascii s) :
    WellFormedList sampleEnv ch (sampleList first second) [0, 50] [v, w] where
  ne := by simp [sampleList]
  commas := by
    simp only [sampleList, List.forall_mem_cons]
    exact ⟨⟨(hclean _ (by simp)).1, by decide⟩, ⟨(hclean _ (by simp)).1, by decide⟩, by simp⟩
  colons := by
    simp only [sampleList, List.forall_mem_cons]
    exact ⟨⟨(hclean _ (by simp)).2, by decide⟩, ⟨(hclean _ (by simp)).2, by decide⟩, by simp⟩
  percents := by
    have hnone : sampleEnv.parseFloat (removeTrailingPercent (ascii "0")) = some 0 := by
      decide +kernel
    have hhalf : sampleEnv.parseFloat (removeTrailingPercent (ascii "50%")) = some 50 := by
      decide +kernel
    exact .cons ⟨hnone, by decide, by decide⟩ (.cons ⟨hhalf, by decide, by decide⟩ .nil)
  values := .cons hfirst (.cons hsecond .nil)
  sums := by decide +kernel

/-- The roll 25 of the lists `503:0,404:50%`, `512:0,1024:50%` and `10ms:0,20ms:50%`. -/
theorem weighted_choice_quarter :
    (25 : Rat) ∉ cumulative [0, 50] ∧
      ∃ idx,
        (statusChoice sampleEnv).Goes sampleEnv (listText (sampleList "503" "404")) [503, 404] 25
          (generateStatus sampleEnv (listText (sampleList "503" "404")) 25) idx ∧
        (sizeChoice sampleEnv).Goes sampleEnv (listText (sampleList "512" "1024")) [512, 1024] 25
          (generateSize sampleEnv (listText (sampleList "512" "1024")) 25) idx ∧
        (delayChoice sampleEnv).Goes sampleEnv (listText (sampleList "10ms" "20ms"))
          [10000000, 20000000] 25
          (generateDelay sampleEnv (listText (sampleList "10ms" "20ms")) 25) idx ∧
        RightChoice [0, 50] 25 idx := by
  have hroll : (25 : Rat) ∉ cumulative [0, 50] := by decide +kernel
  refine ⟨hroll, (weighted_choice_iff sampleEnv [0, 50] 25 _ _ _ _ _ _
    (sampleList_wellFormed ?_ ?_ ?_) (sampleList_wellFormed ?_ ?_ ?_)
    (sampleList_wellFormed ?_ ?_ ?_) ?_ ?_).mpr hroll⟩ <;> decide +kernel

/-- The roll 0 selects the entries of 0 percent, and the roll 50 of two halves the first one. -/
theorem zero_percent_selected :
    generateStatus sampleEnv (ascii "503:0,404:50") 0 = 503 ∧
    generateSize sampleEnv (ascii "512:0,1024:50") 0 = 512 ∧
    generateDelay sampleEnv (ascii "10ms:0,20ms:50") 0 = 10000000 ∧
    ¬ RightChoice [0, 50] 0 (some 0) ∧
    generateStatus sampleEnv (ascii "503:50,404:50") 50 = 503 ∧
    ¬ RightChoice [50, 50] 50 (some 0) := by
  refine ⟨by decide +kernel, by decide +kernel, by decide +kernel, fun h => ?_,
    by decide +kernel, fun h => ?_⟩
  · exact h.percent 0 rfl rfl
  · obtain ⟨w, hw, -, hlt⟩ := h.inRange
    have hend : (cumulative [50, 50])[0]? = some 50 := by decide +kernel
    rw [hend] at hw
    exact absurd hlt (Option.some.inj hw ▸ lt_irrefl _)

end IstioVendor.Fhttp
