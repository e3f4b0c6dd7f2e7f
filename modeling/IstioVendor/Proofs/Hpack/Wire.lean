import IstioVendor.Hpack.Decode
import IstioVendor.Hpack.Encode
import IstioVendor.Proofs.Hpack.Huffman

/-!
# `IstioVendor.Proofs.Hpack.Wire`: numbers and strings on the wire

Every representation starts with a number whose first byte has a tag in the bits above it. `tagged`
are the bytes of such a number. The decoder reads the number back whatever the tag is
(`readVarInt_tagged`), and it sees the tag in the first byte (`tagged_eq_cons`). Strings are numbers
with their bytes behind them, and are read back too (`readString_appendHpackString`).
-/

set_option autoImplicit false

namespace IstioVendor.Hpack

open Lib

/-! ### Bytes behind others -/

theorem modify_length_append (dst x : Bytes) (f : UInt8 → UInt8) :
    (dst ++ x).modify dst.length f = dst ++ x.modify 0 f := by
  induction dst with
  | nil => rfl
  | cons b dst ih => rw [List.cons_append, List.length_cons, List.modify_succ_cons, ih]; rfl

theorem modify_zero_append {x : Bytes} (hx : x ≠ []) (y : Bytes) (f : UInt8 → UInt8) :
    (x ++ y).modify 0 f = x.modify 0 f ++ y := by
  cases x with
  | nil => exact absurd rfl hx
  | cons b x => rfl

theorem appendVarIntLoop_eq_append (fuel : Nat) (dst : Bytes) (i : Nat) :
    appendVarIntLoop fuel dst i = dst ++ appendVarIntLoop fuel [] i := by
  induction fuel generalizing dst i with
  | zero => rfl
  | succ fuel ih =>
    rw [appendVarIntLoop, appendVarIntLoop]
    split
    · rw [ih, ih ([] ++ [_]), List.nil_append, List.append_assoc]
    · rfl

theorem appendVarInt_eq_append (dst : Bytes) (n i : Nat) :
    appendVarInt dst n i = dst ++ appendVarInt [] n i := by
  rw [appendVarInt, appendVarInt]
  split
  · rfl
  · rw [appendVarIntLoop_eq_append, appendVarIntLoop_eq_append _ ([] ++ [_]), List.nil_append,
      List.append_assoc]

/-! ### Numbers -/

/-- The bytes of a number with a tag in its first byte. -/
def tagged (t : UInt8) (n i : Nat) : Bytes := (appendVarInt [] n i).modify 0 (· ||| t)

variable {n i maxStrLen : Nat} {t : UInt8} {s : Bytes}

theorem and_eq_zero_of_toNat {b c : UInt8} (hb : b.toNat < 2 ^ n) (hc : c.toNat % 2 ^ n = 0) :
    b &&& c = 0 := by
  refine UInt8.toNat_inj.mp ?_
  rw [UInt8.toNat_and, and_eq_zero_of_lt hb hc]
  rfl

theorem readVarIntLoop_last {j m : Nat} (hj : j < 128) (hi : i + j * 2 ^ m < 2 ^ 64) (q : Bytes) :
    readVarIntLoop i m (UInt8.ofNat j :: q) = .ok (i + j * 2 ^ m, q) := by
  have hbyte := UInt8.toNat_ofNat_of_lt' (hj.trans (by decide))
  have hlow : j &&& 127 = j := (Nat.and_two_pow_sub_one_eq_mod j 7).trans (Nat.mod_eq_of_lt hj)
  have hend : UInt8.ofNat j &&& 128 = 0 :=
    and_eq_zero_of_toNat (n := 7) (by rw [hbyte]; exact hj) rfl
  rw [readVarIntLoop, if_pos hend, hbyte, hlow, Nat.shiftLeft_eq, Nat.mod_eq_of_lt hi]

theorem readVarIntLoop_next {j m : Nat} (hm : m + 7 < 63) (hi : i + j % 128 * 2 ^ m < 2 ^ 64)
    (q : Bytes) :
    readVarIntLoop i m (UInt8.ofNat (0x80 ||| (j &&& 0x7f)) :: q)
      = readVarIntLoop (i + j % 128 * 2 ^ m) (m + 7) q := by
  have hlow : j &&& 127 = j % 128 := Nat.and_two_pow_sub_one_eq_mod j 7
  have hlt : j % 128 < 2 ^ 7 := Nat.mod_lt j (by decide)
  have hbyte : (UInt8.ofNat (0x80 ||| (j &&& 0x7f))).toNat = 0x80 ||| j % 128 := by
    rw [hlow]
    exact UInt8.toNat_ofNat_of_lt' (Nat.or_lt_two_pow (n := 8) (by decide) (hlt.trans (by decide)))
  have hnext : ¬ UInt8.ofNat (0x80 ||| (j &&& 0x7f)) &&& 128 = 0 := by
    intro h
    have hnat := congrArg UInt8.toNat h
    rw [UInt8.toNat_and, hbyte, Nat.and_or_distrib_right] at hnat
    exact absurd (Nat.or_eq_zero_iff.mp hnat).1 (by decide)
  have hvalue : (0x80 ||| j % 128) &&& 127 = j % 128 := by
    rw [Nat.and_or_distrib_right]
    show 0 ||| j % 128 &&& 127 = j % 128
    rw [Nat.zero_or, ← hlow, Nat.and_assoc, Nat.and_self]
  rw [readVarIntLoop, if_neg hnext, if_neg (not_le.mpr hm), hbyte, hvalue, Nat.shiftLeft_eq,
    Nat.mod_eq_of_lt hi]

/-- The loop reads back what the loop of the encoder writes. -/
theorem readVarIntLoop_append {fuel j m : Nat} (hfuel : j ≤ fuel) (hj : j < 2 ^ (63 - m))
    (hi : i + j * 2 ^ m < 2 ^ 64) (q : Bytes) :
    readVarIntLoop i m (appendVarIntLoop fuel [] j ++ q) = .ok (i + j * 2 ^ m, q) := by
  induction fuel generalizing i j m with
  | zero =>
    obtain rfl : j = 0 := Nat.le_zero.mp hfuel
    exact readVarIntLoop_last (by decide) hi q
  | succ fuel ih =>
    rw [appendVarIntLoop]
    split
    · rename_i hlarge
      have hsplit : j % 128 * 2 ^ m + j / 128 * 2 ^ (m + 7) = j * 2 ^ m := by
        have hpow : 2 ^ (m + 7) = 128 * 2 ^ m := by rw [Nat.pow_add, Nat.mul_comm]
        have hdiv := Nat.mod_add_div j 128
        rw [hpow, ← Nat.mul_assoc, ← Nat.add_mul, Nat.mul_comm (j / 128), hdiv]
      have hm7 : m + 7 < 63 := by
        by_contra hge
        have hle : 2 ^ (63 - m) ≤ 2 ^ 7 := Nat.pow_le_pow_right (by decide) (by omega)
        omega
      have hj7 : j / 128 < 2 ^ (63 - (m + 7)) := by
        rw [Nat.div_lt_iff_lt_mul (by decide)]
        have hpow : 2 ^ (63 - (m + 7)) * 128 = 2 ^ (63 - m) := by
          rw [show (128 : Nat) = 2 ^ 7 from rfl, ← Nat.pow_add]
          congr 1
          omega
        rw [hpow]
        exact hj
      rw [appendVarIntLoop_eq_append, List.nil_append, List.append_assoc, List.singleton_append,
        readVarIntLoop_next hm7 (by omega), Nat.shiftRight_eq_div_pow,
        ih (by omega) hj7 (by omega), Nat.add_assoc, hsplit]
    · exact readVarIntLoop_last (by omega) hi q

/-- The first byte of a number, and what reads it back. -/
theorem exists_varInt (hn : n ≤ 7) (hi : i < 2 ^ 63) :
    ∃ b tail, appendVarInt [] n i = b :: tail ∧ b.toNat < 2 ^ n ∧
      ∀ b', lowBits n b' = b.toNat → ∀ q, readVarInt n (b' :: (tail ++ q)) = .ok (i, q) := by
  have hpow : 2 ^ n ≤ 2 ^ 7 := Nat.pow_le_pow_right (by decide) hn
  have hpos : 0 < 2 ^ n := Nat.two_pow_pos n
  rw [appendVarInt]
  split
  · rename_i hlt
    have hbyte : (UInt8.ofNat i).toNat = i :=
      UInt8.toNat_ofNat_of_lt' (show i < 256 by omega)
    refine ⟨UInt8.ofNat i, [], rfl, by omega, fun b' hb' q => ?_⟩
    rw [readVarInt, hb', hbyte]
    exact if_pos hlt
  · rename_i hge
    have hbyte : (UInt8.ofNat (2 ^ n - 1)).toNat = 2 ^ n - 1 :=
      UInt8.toNat_ofNat_of_lt' (show 2 ^ n - 1 < 256 by omega)
    refine ⟨UInt8.ofNat (2 ^ n - 1), appendVarIntLoop (i - (2 ^ n - 1)) [] (i - (2 ^ n - 1)),
      appendVarIntLoop_eq_append .., by omega, fun b' hb' q => ?_⟩
    rw [readVarInt, hb', hbyte]
    simp only [lt_self_iff_false, if_false]
    rw [readVarIntLoop_append le_rfl (by rw [Nat.sub_zero]; omega) (by omega), Nat.pow_zero,
      Nat.mul_one, Nat.add_sub_cancel' (not_lt.mp hge)]

theorem lowBits_or (hn : n ≤ 7) {b : UInt8} (hb : b.toNat < 2 ^ n) (ht : t.toNat % 2 ^ n = 0) :
    lowBits n (b ||| t) = b.toNat := by
  rw [lowBits, if_pos (by omega), UInt8.toNat_or, Nat.and_two_pow_sub_one_eq_mod,
    Nat.or_mod_two_pow, ht, Nat.or_zero, Nat.mod_eq_of_lt hb]

theorem readVarInt_tagged (hn : n ≤ 7) (hi : i < 2 ^ 63) (ht : t.toNat % 2 ^ n = 0) (q : Bytes) :
    readVarInt n (tagged t n i ++ q) = .ok (i, q) := by
  obtain ⟨b, tail, heq, hb, hread⟩ := exists_varInt hn hi
  rw [tagged, heq]
  exact hread _ (lowBits_or hn hb ht) q

/-- The tag shows in the first byte, for a mask that does not look at the number. -/
theorem tagged_eq_cons (hn : n ≤ 7) (hi : i < 2 ^ 63) (t : UInt8) :
    ∃ b tail, tagged t n i = b :: tail ∧ ∀ c : UInt8, c.toNat % 2 ^ n = 0 → b &&& c = t &&& c := by
  obtain ⟨b, tail, heq, hb, -⟩ := exists_varInt hn hi
  refine ⟨b ||| t, tail, by rw [tagged, heq]; rfl, fun c hc => UInt8.toNat_inj.mp ?_⟩
  rw [UInt8.toNat_and, UInt8.toNat_or, Nat.and_or_distrib_right, and_eq_zero_of_lt hb hc,
    Nat.zero_or, UInt8.toNat_and]

theorem appendVarInt_ne_nil (hn : n ≤ 7) (hi : i < 2 ^ 63) : appendVarInt [] n i ≠ [] := by
  obtain ⟨b, tail, heq, -⟩ := exists_varInt hn hi
  rw [heq]
  exact List.cons_ne_nil b tail

theorem tagged_zero (n i : Nat) : tagged 0 n i = appendVarInt [] n i := by
  rw [tagged]
  cases appendVarInt [] n i with
  | nil => rfl
  | cons b tail => rw [List.modify_zero_cons, UInt8.or_zero]

/-! ### Strings -/

/-- The two forms of a string. -/
theorem appendHpackString_eq (dst s : Bytes) (hs : s.length < 2 ^ 63) :
    appendHpackString dst s = dst ++
      if huffmanEncodeLength s < s.length then
        tagged 0x80 7 (huffmanEncodeLength s) ++ appendHuffmanString [] s
      else tagged 0 7 s.length ++ s := by
  rw [appendHpackString]
  split
  · rename_i hlt
    simp only
    rw [appendHuffmanString_eq_append, appendVarInt_eq_append, List.append_assoc,
      modify_length_append, modify_zero_append (appendVarInt_ne_nil le_rfl (hlt.trans hs)), tagged]
  · simp only
    rw [appendVarInt_eq_append, List.append_assoc, tagged_zero]

/-- The body of a string, behind its length. -/
theorem readString_tagged {wantStr : Bool} {body : Bytes} (ht : t.toNat % 2 ^ 7 = 0)
    (hbody : body.length < 2 ^ 63) (hmax : maxStrLen = 0 ∨ body.length ≤ maxStrLen) (q : Bytes) :
    readString maxStrLen wantStr (tagged t 7 body.length ++ body ++ q)
      = stringOf maxStrLen (t &&& 128 ≠ 0) wantStr body >>= fun s => .ok (s, q) := by
  obtain ⟨b, tail, heq, htag⟩ := tagged_eq_cons (n := 7) le_rfl hbody t
  have hread := readVarInt_tagged le_rfl hbody ht (body ++ q)
  rw [List.append_assoc, heq, List.cons_append] at *
  rw [readString, hread, htag 128 rfl]
  have hlen : ¬ (body ++ q).length < body.length := by
    rw [List.length_append]
    omega
  have hshort : ¬ (maxStrLen ≠ 0 ∧ maxStrLen < body.length) := by omega
  simp only [bind, Except.bind, if_neg hlen, if_neg hshort, List.take_left, List.drop_left]

/-- A string is read back. -/
theorem readString_appendHpackString (hs : s.length < 2 ^ 63)
    (hmax : maxStrLen = 0 ∨ s.length ≤ maxStrLen) (wantStr : Bool) (q : Bytes) :
    readString maxStrLen wantStr (appendHpackString [] s ++ q)
      = .ok (if wantStr then s else [], q) := by
  rw [appendHpackString_eq [] s hs, List.nil_append]
  split
  · rename_i hlt
    rw [huffmanEncodeLength_eq] at hlt ⊢
    rw [readString_tagged rfl (hlt.trans hs) (hmax.imp_right hlt.le.trans), stringOf]
    cases wantStr with
    | false => rfl
    | true =>
      rw [huffmanDecode_appendHuffmanString hmax]
      rfl
  · rw [readString_tagged rfl hs hmax]
    rfl

theorem appendHpackString_eq_append (dst : Bytes) (hs : s.length < 2 ^ 63) :
    appendHpackString dst s = dst ++ appendHpackString [] s := by
  rw [appendHpackString_eq dst s hs, appendHpackString_eq [] s hs, List.nil_append]

/-! ### Lengths -/

theorem length_appendVarIntLoop_le {fuel j k : Nat} (hk : 0 < k) (hj : j < 2 ^ (7 * k)) :
    (appendVarIntLoop fuel [] j).length ≤ k := by
  induction fuel generalizing j k with
  | zero => exact hk
  | succ fuel ih =>
    rw [appendVarIntLoop]
    split
    · rename_i hlarge
      obtain ⟨k, rfl⟩ : ∃ l, k = l + 1 := ⟨k - 1, by omega⟩
      have hpos : 0 < k := by
        by_contra hzero
        obtain rfl : k = 0 := by omega
        exact absurd hj (not_lt.mpr hlarge)
      have hshift : j >>> 7 < 2 ^ (7 * k) := by
        rw [Nat.shiftRight_eq_div_pow, Nat.div_lt_iff_lt_mul (by decide), ← Nat.pow_add]
        exact hj
      have hle := ih hpos hshift
      rw [appendVarIntLoop_eq_append, List.length_append]
      simp only [List.nil_append, List.length_singleton]
      omega
    · exact hk

theorem length_tagged_le (hi : i < 2 ^ 35) : (tagged t n i).length ≤ 6 := by
  rw [tagged, List.length_modify, appendVarInt]
  split
  · simp only [List.nil_append, List.length_singleton]
    decide
  · rw [appendVarIntLoop_eq_append, List.length_append]
    have hlt : i - (2 ^ n - 1) < 2 ^ (7 * 5) := lt_of_le_of_lt (Nat.sub_le ..) hi
    have hle : (appendVarIntLoop (i - (2 ^ n - 1)) [] (i - (2 ^ n - 1))).length ≤ 5 :=
      length_appendVarIntLoop_le (by decide) hlt
    simp only [List.nil_append, List.length_singleton]
    omega

theorem length_appendHpackString_le (hs : s.length < 2 ^ 35) :
    (appendHpackString [] s).length ≤ 6 + s.length := by
  rw [appendHpackString_eq [] s (hs.trans (by decide)), List.nil_append]
  split
  · rename_i hlt
    have hle := length_tagged_le (t := 0x80) (n := 7) (hlt.trans hs)
    rw [huffmanEncodeLength_eq] at hlt hle ⊢
    rw [List.length_append]
    omega
  · have hle := length_tagged_le (t := 0) (n := 7) hs
    rw [List.length_append]
    omega

end IstioVendor.Hpack
