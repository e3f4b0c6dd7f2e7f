import Mathlib.Algebra.Group.Nat.Defs
import Mathlib.Data.List.DropRight
import Mathlib.Data.List.TakeWhile
import IstioVendor.Lib.Lines

/-!
# `IstioVendor.Lib.Text`: text functions over bytes

The functions on strings that network programs are made of, for byte strings in UTF-8: to trim
white space, to print numbers, to encode bytes in base64, and to take a text apart at a byte with
`List.splitOn`.

Numbers are digits and base64 is visible characters (`of_mem_decimal`, `visible_of_mem_base64`), so
a tab or a line end behind them is found again. `lastPart` is what stands behind the last separator:
it does not contain the separator (`notMem_lastPart`), and it is all of a text without one that is
put behind a separator (`lastPart_append`). `cut` takes a text apart at the first separator.
-/

set_option autoImplicit false

namespace IstioVendor.Lib

/-! ### Bytes with a name -/

def tab : UInt8 := 9

def newline : UInt8 := 10

def percent : UInt8 := 37

def comma : UInt8 := 44

def dot : UInt8 := 46

def slash : UInt8 := 47

def colon : UInt8 := 58

def hash : UInt8 := 35

def question : UInt8 := 63

def isDigit (b : UInt8) : Bool := 48 ≤ b && b ≤ 57

def isLower (b : UInt8) : Bool := 97 ≤ b && b ≤ 122

def isUpper (b : UInt8) : Bool := 65 ≤ b && b ≤ 90

def isAlnum (b : UInt8) : Bool := isDigit b || isLower b || isUpper b

/-! ### White space -/

/-- The code points for which `unicode.IsSpace` holds. -/
def spaceCodes : List Nat :=
  [0x09, 0x0A, 0x0B, 0x0C, 0x0D, 0x20, 0x85, 0xA0, 0x1680, 0x2000, 0x2001, 0x2002, 0x2003, 0x2004,
    0x2005, 0x2006, 0x2007, 0x2008, 0x2009, 0x200A, 0x2028, 0x2029, 0x202F, 0x205F, 0x3000]

/-- A code point below `0x10000` in UTF-8. -/
def utf8Encode (code : Nat) : Bytes :=
  if code < 0x80 then [UInt8.ofNat code]
  else if code < 0x800 then [UInt8.ofNat (0xC0 + code / 64), UInt8.ofNat (0x80 + code % 64)]
  else
    [UInt8.ofNat (0xE0 + code / 4096), UInt8.ofNat (0x80 + code / 64 % 64),
      UInt8.ofNat (0x80 + code % 64)]

/-- The texts `chars` are taken off the start, at most `n` times. -/
def trimStart (chars : List Bytes) : Nat → Bytes → Bytes
  | 0, s => s
  | n + 1, s =>
    match chars.find? fun ch => ch.isPrefixOf s with
    | some ch => trimStart chars n (s.drop ch.length)
    | none => s

/-- White space at the start of a text. -/
def spaces : List Bytes := spaceCodes.map utf8Encode

/-- White space at the end of a text, from the end on. -/
def spacesReversed : List Bytes := spaces.map List.reverse

/-- `strings.TrimSpace`. -/
def trimSpace (s : Bytes) : Bytes :=
  let s' := trimStart spaces s.length s
  (trimStart spacesReversed s'.length s'.reverse).reverse

theorem trimStart_suffix (chars : List Bytes) (n : Nat) (s : Bytes) :
    trimStart chars n s <:+ s := by
  induction n generalizing s with
  | zero => exact List.suffix_rfl
  | succ n ih =>
    unfold trimStart
    split
    · exact (ih _).trans (List.drop_suffix _ s)
    · exact List.suffix_rfl

variable {b : UInt8} {s part : Bytes}

theorem mem_of_mem_trimSpace (h : b ∈ trimSpace s) : b ∈ s := by
  have hmem := (trimStart_suffix _ _ _).mem (List.mem_reverse.mp h)
  exact (trimStart_suffix _ _ _).mem (List.mem_reverse.mp hmem)

/-- The byte of a visible ASCII character. -/
def visible (b : UInt8) : Bool := 32 < b && b < 128

/-- Nothing is taken off before a visible character. -/
theorem trimStart_of_visible {chars : List Bytes}
    (hchars : ∀ ch ∈ chars, ch.head?.any (fun b => !visible b) = true) (hb : visible b = true)
    (n : Nat) : trimStart chars n (b :: s) = b :: s := by
  cases n with
  | zero => rfl
  | succ n =>
    have hnone : chars.find? (fun ch => ch.isPrefixOf (b :: s)) = none := by
      rw [List.find?_eq_none]
      intro ch hch hstart
      have hhead := hchars ch hch
      cases ch with
      | nil => simp at hhead
      | cons a ch =>
        rw [List.isPrefixOf_cons_cons, Bool.and_eq_true, beq_iff_eq] at hstart
        simp [hstart.1, hb] at hhead
    rw [trimStart, hnone]

/-- A text between visible characters loses the line end behind it. -/
theorem trimSpace_concat_newline {a : UInt8} (ha : visible a = true) (hb : visible b = true)
    (hhead : s.head? = some a) (hlast : s.getLast? = some b) : trimSpace (s ++ [newline]) = s := by
  have hstart : ∀ n, trimStart spaces n (s ++ [newline]) = s ++ [newline] := fun n => by
    obtain ⟨t, rfl⟩ := List.head?_eq_some_iff.mp hhead
    exact trimStart_of_visible (by decide) ha n
  have hnewline : ∀ n t, trimStart spacesReversed (n + 1) (newline :: t)
      = trimStart spacesReversed n t := fun _ _ => rfl
  have hend : ∀ n, trimStart spacesReversed n s.reverse = s.reverse := fun n => by
    have hrev : s.reverse.head? = some b := by rw [List.head?_reverse, hlast]
    obtain ⟨t, ht⟩ := List.head?_eq_some_iff.mp hrev
    rw [ht]
    exact trimStart_of_visible (by decide) hb n
  unfold trimSpace
  dsimp only
  rw [hstart, List.length_append, List.length_singleton, List.reverse_append,
    List.reverse_singleton, List.singleton_append, hnewline, hend, List.reverse_reverse]

/-! ### Numbers and base64 -/

/-- A number in decimal digits. -/
def decimal (n : Nat) : Bytes := (Nat.toDigits 10 n).map fun ch => UInt8.ofNat ch.toNat

theorem of_mem_decimal {n : Nat} (h : b ∈ decimal n) : 48 ≤ b ∧ b ≤ 57 := by
  obtain ⟨ch, hch, rfl⟩ := List.mem_map.mp h
  have hdigit := Nat.isDigit_of_mem_toDigits (by decide) (by decide) hch
  rw [Char.isDigit, Bool.and_eq_true, decide_eq_true_eq, decide_eq_true_eq] at hdigit
  obtain ⟨hlo, hhi⟩ := hdigit
  have hlo' : 48 ≤ ch.toNat := hlo
  have hhi' : ch.toNat ≤ 57 := hhi
  rw [UInt8.le_iff_toNat_le, UInt8.le_iff_toNat_le, UInt8.toNat_ofNat', Nat.mod_eq_of_lt (by omega)]
  exact ⟨hlo', hhi'⟩

/-- The digits are those of a number. -/
theorem decimal_inj {m n : Nat} (h : decimal m = decimal n) : m = n := by
  have hback : ∀ n, (decimal n).map (fun b => Char.ofNat b.toNat) = Nat.toDigits 10 n := fun n => by
    rw [decimal, List.map_map]
    refine (List.map_congr_left fun ch hch => ?_).trans (List.map_id _)
    have hdigit := Nat.isDigit_of_mem_toDigits (by decide) (by decide) hch
    rw [Char.isDigit, Bool.and_eq_true, decide_eq_true_eq, decide_eq_true_eq] at hdigit
    have hlt : ch.toNat < 2 ^ 8 := by
      have hhi := UInt32.le_iff_toNat_le.mp hdigit.2
      exact Nat.lt_of_le_of_lt hhi (by decide)
    rw [Function.comp_apply, UInt8.toNat_ofNat_of_lt' hlt, Char.ofNat_toNat]
    rfl
  calc m = Nat.ofDigitChars 10 (Nat.toDigits 10 m) 0 :=
        (Nat.ofDigitChars_toDigits (by decide) (by decide)).symm
    _ = Nat.ofDigitChars 10 (Nat.toDigits 10 n) 0 := by rw [← hback m, h, hback n]
    _ = n := Nat.ofDigitChars_toDigits (by decide) (by decide)

theorem length_decimal_le {n k : Nat} (hk : 0 < k) (h : n < 10 ^ k) : (decimal n).length ≤ k := by
  rw [decimal, List.length_map]
  exact (Nat.length_toDigits_le_iff (by decide) hk).mpr h

/-- The character of base64 for six bits. -/
def base64Char (n : Nat) : UInt8 :=
  (ascii "ABCDEFGHIJKLMNOPQRSTUVWXYZabcdefghijklmnopqrstuvwxyz0123456789+/").getD (n % 64) 61

/-- `base64.StdEncoding.EncodeToString`. -/
def base64 : Bytes → Bytes
  | [] => []
  | [a] => [base64Char (a.toNat / 4), base64Char (a.toNat * 16), 61, 61]
  | [a, b] =>
    [base64Char (a.toNat / 4), base64Char (a.toNat * 16 + b.toNat / 16),
      base64Char (b.toNat * 4), 61]
  | a :: b :: c :: rest =>
    base64Char (a.toNat / 4) :: base64Char (a.toNat * 16 + b.toNat / 16)
      :: base64Char (b.toNat * 4 + c.toNat / 64) :: base64Char c.toNat :: base64 rest

theorem visible_base64Char (n : Nat) : visible (base64Char n) = true := by
  have hall : ∀ i < 64, visible ((ascii
      "ABCDEFGHIJKLMNOPQRSTUVWXYZabcdefghijklmnopqrstuvwxyz0123456789+/").getD i 61) = true := by
    decide +kernel
  exact hall _ (Nat.mod_lt n (by decide))

theorem visible_of_mem_base64 (h : b ∈ base64 s) : visible b = true := by
  fun_induction base64 s with
  | case1 => cases h
  | case2 a =>
    simp only [List.mem_cons, List.not_mem_nil, or_false] at h
    rcases h with rfl | rfl | rfl | rfl
    · exact visible_base64Char _
    · exact visible_base64Char _
    · rfl
    · rfl
  | case3 a b' =>
    simp only [List.mem_cons, List.not_mem_nil, or_false] at h
    rcases h with rfl | rfl | rfl | rfl
    · exact visible_base64Char _
    · exact visible_base64Char _
    · exact visible_base64Char _
    · rfl
  | case4 a b' c rest ih =>
    simp only [List.mem_cons] at h
    rcases h with rfl | rfl | rfl | rfl | h
    · exact visible_base64Char _
    · exact visible_base64Char _
    · exact visible_base64Char _
    · exact visible_base64Char _
    · exact ih h

theorem base64_ne_nil (h : s ≠ []) : base64 s ≠ [] := by
  fun_cases base64 s with
  | case1 => exact absurd rfl h
  | case2 => exact List.cons_ne_nil _ _
  | case3 => exact List.cons_ne_nil _ _
  | case4 => exact List.cons_ne_nil _ _

/-! ### Parts -/

section
variable {c : UInt8} {s t : Bytes}

/-- What stands behind the last separator. -/
def lastPart (c : UInt8) (s : Bytes) : Bytes := (s.splitOn c).getLastD []

theorem lastPart_of_notMem (h : c ∉ s) : lastPart c s = s := by
  rw [lastPart, List.splitOn_eq_singleton h, List.getLastD_cons, List.getLastD_nil]

theorem lastPart_cons_append (s t : Bytes) : lastPart c (s ++ c :: t) = lastPart c t := by
  unfold lastPart
  rw [List.splitOn_append_cons_self]
  obtain ⟨p, ps, hps⟩ := List.exists_cons_of_ne_nil (List.splitOn_ne_nil c t)
  rw [hps, List.getLastD_eq_getLast?, List.getLastD_eq_getLast?, List.getLast?_append,
    List.getLast?_cons]
  rfl

/-- A text without the separator, behind one that ends with it. -/
theorem lastPart_append (h : c ∉ t) (s : Bytes) : lastPart c (s ++ [c] ++ t) = t := by
  rw [List.append_assoc, List.singleton_append, lastPart_cons_append, lastPart_of_notMem h]

/-- The text before the first separator and the text behind it, which is empty when there is no
separator. -/
def cut (c : UInt8) (s : Bytes) : Bytes × Bytes :=
  (s.takeWhile (· != c), (s.dropWhile (· != c)).drop 1)

/-- What is put behind a text that has a separator does not change what is before it. -/
theorem takeWhile_append_of_mem (h : c ∈ s) (t : Bytes) :
    (s ++ t).takeWhile (· != c) = s.takeWhile (· != c) := by
  rw [List.takeWhile_append, if_neg fun hlen => ?_]
  -- The text before the separator is not the whole text.
  have heq : s.takeWhile (· != c) = s := (List.takeWhile_prefix _).eq_of_length hlen
  rw [← heq] at h
  have hne := List.mem_takeWhile_imp h
  exact bne_iff_ne.mp hne rfl

theorem dropWhile_ne_nil_of_mem (h : c ∈ s) : s.dropWhile (· != c) ≠ [] := fun hnil =>
  bne_iff_ne.mp (List.dropWhile_eq_nil_iff.mp hnil c h) rfl

theorem dropWhile_append_of_mem (h : c ∈ s) (t : Bytes) :
    (s ++ t).dropWhile (· != c) = s.dropWhile (· != c) ++ t := by
  rw [List.dropWhile_append, if_neg fun hnil => ?_]
  exact dropWhile_ne_nil_of_mem h (List.isEmpty_iff.mp hnil)

theorem takeWhile_append_of_notMem (h : c ∉ s) (t : Bytes) :
    (s ++ t).takeWhile (· != c) = s ++ t.takeWhile (· != c) :=
  List.takeWhile_append_of_pos fun x hx => by
    rw [bne_iff_ne]
    exact fun hxc => h (hxc ▸ hx)

theorem dropWhile_append_of_notMem (h : c ∉ s) (t : Bytes) :
    (s ++ t).dropWhile (· != c) = t.dropWhile (· != c) :=
  List.dropWhile_append_of_pos fun x hx => by
    rw [bne_iff_ne]
    exact fun hxc => h (hxc ▸ hx)

/-- A text before which there is none of the separators is added to what is before the first. -/
theorem cut_append (h : c ∉ s) (t : Bytes) : cut c (s ++ t) = (s ++ (cut c t).1, (cut c t).2) := by
  rw [cut, takeWhile_append_of_notMem h, dropWhile_append_of_notMem h]
  rfl

/-- What is put behind a text that has a separator comes to the end of the second part. -/
theorem cut_append_of_mem (h : c ∈ s) (t : Bytes) :
    cut c (s ++ t) = ((cut c s).1, (cut c s).2 ++ t) := by
  have hne : s.dropWhile (· != c) ≠ [] := fun h0 => by
    have hall := List.dropWhile_eq_nil_iff.mp h0 c h
    simp at hall
  rw [cut, takeWhile_append_of_mem h, dropWhile_append_of_mem h,
    List.drop_append_of_le_length (List.length_pos_of_ne_nil hne)]
  rfl

theorem cut_of_notMem (h : c ∉ s) : cut c s = (s, []) := by
  have hnil : cut c [] = ([], []) := rfl
  have heq := cut_append h []
  rwa [List.append_nil, hnil, List.append_nil] at heq

theorem takeWhile_of_notMem (h : c ∉ s) : s.takeWhile (· != c) = s := by
  have htake := takeWhile_append_of_notMem h []
  rwa [List.append_nil, List.takeWhile_nil, List.append_nil] at htake

theorem length_takeWhile_lt (h : c ∈ s) : (s.takeWhile (· != c)).length < s.length := by
  obtain ⟨a, b, rfl, ha⟩ := List.eq_append_cons_of_mem h
  rw [takeWhile_append_of_notMem ha, List.takeWhile_cons_of_neg (by simp)]
  simp

/-- A text without separators comes before the first part of what is behind it. -/
theorem splitOn_append_of_notMem {p : Bytes} (h : c ∉ p) (s : Bytes) :
    (p ++ s).splitOn c = (p ++ s.takeWhile (· != c)) :: (s.splitOn c).tail := by
  by_cases hc : c ∈ s
  · obtain ⟨a, b, rfl, ha⟩ := List.eq_append_cons_of_mem hc
    have hpa : c ∉ p ++ a := by simp [h, ha]
    rw [← List.append_assoc, List.splitOn_append_cons_self, List.splitOn_eq_singleton hpa,
      List.splitOn_append_cons_self, List.splitOn_eq_singleton ha, takeWhile_append_of_notMem ha,
      List.takeWhile_cons_of_neg (by simp), List.append_nil]
    rfl
  · have hps : c ∉ p ++ s := by simp [h, hc]
    rw [List.splitOn_eq_singleton hps, List.splitOn_eq_singleton hc, takeWhile_of_notMem hc]
    rfl

/-- The first part of a text is what is before the first separator. -/
theorem headD_splitOn (c : UInt8) (s : Bytes) : (s.splitOn c).headD [] = s.takeWhile (· != c) := by
  by_cases h : c ∈ s
  · obtain ⟨a, b, rfl, ha⟩ := List.eq_append_cons_of_mem h
    rw [List.splitOn_append_cons_self, List.splitOn_eq_singleton ha, takeWhile_append_of_notMem ha,
      List.takeWhile_cons_of_neg (by simp), List.append_nil]
    rfl
  · rw [List.splitOn_eq_singleton h, takeWhile_of_notMem h]
    rfl

/-- No part has a separator. -/
theorem of_mem_splitOnP {p : UInt8 → Bool} (h : part ∈ s.splitOnP p) : ∀ b ∈ part, p b = false := by
  induction s generalizing part with
  | nil =>
    obtain rfl := List.mem_singleton.mp (List.splitOnP_nil ▸ h)
    simp
  | cons a s ih =>
    obtain ⟨word, parts, hparts⟩ := List.exists_cons_of_ne_nil (List.splitOnP_ne_nil p s)
    have hcons := List.splitOnP_cons_eq_if_modifyHead (p := p) a s
    rw [hparts, List.modifyHead_cons] at hcons
    rw [hcons] at h
    rw [hparts] at ih
    cases hp : p a with
    | true =>
      rw [hp, if_pos rfl, List.mem_cons] at h
      rcases h with rfl | h
      · simp
      · exact ih h
    | false =>
      rw [hp, if_neg Bool.false_ne_true, List.mem_cons] at h
      rcases h with rfl | h
      · intro b hb
        rcases List.mem_cons.mp hb with rfl | hb
        · exact hp
        · exact ih List.mem_cons_self b hb
      · exact ih (List.mem_cons_of_mem word h)

theorem notMem_of_mem_splitOn (h : part ∈ s.splitOn c) : c ∉ part := by
  intro hc
  have hfalse : (c == c) = false := of_mem_splitOnP h c hc
  rw [beq_self_eq_true] at hfalse
  cases hfalse

theorem notMem_lastPart (c : UInt8) (s : Bytes) :
    c ∉ lastPart c s ∧ (lastPart c s).length ≤ s.length := by
  induction hn : s.length using Nat.strongRecOn generalizing s with
  | _ n ih =>
    by_cases h : c ∈ s
    · obtain ⟨a, b, rfl, _⟩ := List.eq_append_cons_of_mem h
      rw [List.length_append, List.length_cons] at hn
      obtain ⟨hnot, hle⟩ := ih b.length (by omega) b rfl
      rw [lastPart_cons_append]
      exact ⟨hnot, by omega⟩
    · rw [lastPart_of_notMem h]
      exact ⟨h, hn.le⟩

end

end IstioVendor.Lib
