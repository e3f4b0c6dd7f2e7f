import Mathlib.Data.List.ModifyLast
import IstioVendor.Proofs.Hpack.HuffmanTree

/-!
# `IstioVendor.Proofs.Hpack.Huffman`: the Huffman decoder accepts what the encoder writes

Both sides are compared with a text of bits. `stringBits` are the code words of a string in a row,
and `appendHuffmanString` writes them with ones up to the end of the last byte
(`toBits_appendHuffmanString`). `Reading` relates the state of the decoder to the bits that it has
seen. Its two loops, over whole bytes and over the rest, keep it or fail where no string has such a
text (`decodeFull_spec`, `decodeRest_spec`). So what is accepted is what `Encodes` says
(`huffmanDecode_eq_ok_iff`), and only the output of the encoder is (`huffmanDecode_iff_encoded`).
-/

set_option autoImplicit false

namespace IstioVendor.Hpack

open Lib

/-- The code words of a string. -/
def stringBits (s : Bytes) : List Bool := s.flatMap codeBits

@[simp] theorem stringBits_nil : stringBits [] = [] := rfl

@[simp] theorem stringBits_cons (c : UInt8) (s : Bytes) :
    stringBits (c :: s) = codeBits c ++ stringBits s := rfl

@[simp] theorem stringBits_append (s t : Bytes) :
    stringBits (s ++ t) = stringBits s ++ stringBits t := List.flatMap_append

/-! ### The encoder -/

variable {bits x z : List Bool} {dst s : Bytes} {r fuel len maxLen : Nat} {c i : UInt8}

/-- Bits are put into the zeros at the end of the last byte. -/
theorem toBits_modifyLast (hpos : 0 < r) (hr : r ≤ 8)
    (h : toBits dst = bits ++ List.replicate r false) {t : UInt8} (ht : t.toNat < 2 ^ r) :
    toBits (dst.modifyLast (· ||| t)) = bits ++ bitsOf r t.toNat := by
  have hne : dst ≠ [] := by
    rintro rfl
    have hlen := congrArg List.length h
    simp only [toBits_nil, List.length_nil, List.length_append, List.length_replicate] at hlen
    omega
  obtain ⟨init, b, rfl⟩ := List.eq_nil_or_concat' dst |>.resolve_left hne
  have hb : bitsOf 8 b.toNat = bitsOf (8 - r) (b.toNat >>> r) ++ bitsOf r b.toNat := by
    rw [← bitsOf_add, Nat.sub_add_cancel hr]
  rw [toBits_append, toBits_cons, toBits_nil, List.append_nil, hb, ← List.append_assoc] at h
  obtain ⟨rfl, hzero⟩ := List.append_inj' h (by simp)
  have hor : bitsOf 8 (b ||| t).toNat = bitsOf (8 - r) (b.toNat >>> r) ++ bitsOf r t.toNat := by
    rw [UInt8.toNat_or, ← bitsOf_or hzero ht, Nat.sub_add_cancel hr]
  rw [List.modifyLast_concat, toBits_append, toBits_cons, toBits_nil, List.append_nil, hor,
    List.append_assoc]

theorem toBits_concat_zero (dst : Bytes) :
    toBits (dst ++ [0]) = toBits dst ++ List.replicate 8 false := by
  rw [toBits_append, toBits_cons, toBits_nil, List.append_nil]
  rfl

/-- The last eight bits of a number in the last byte, when its lowest `r` bits are to be written. -/
theorem toBits_modifyLast_ofNat {v : Nat} (hpos : 0 < r) (hr : r ≤ 8)
    (h : toBits dst = bits ++ List.replicate r false) (hv : v < 2 ^ r ∨ r = 8) :
    toBits (dst.modifyLast (· ||| UInt8.ofNat v)) = bits ++ bitsOf r v := by
  have hbyte : (UInt8.ofNat v).toNat = v % 2 ^ 8 := UInt8.toNat_ofNat'
  have hlt : (UInt8.ofNat v).toNat < 2 ^ r := by
    rcases hv with hv | rfl
    · exact (Nat.mod_le v _).trans_lt hv
    · exact Nat.mod_lt v (by decide)
  rw [toBits_modifyLast hpos hr h hlt, hbyte, bitsOf_mod hr]

/-- The loop writes the rest of the code word. -/
theorem appendCode_spec {code rembits nbits : Nat} (hfuel : nbits < fuel) (hnbits : 0 < nbits)
    (hpos : 0 < rembits) (hle : rembits ≤ 8) (hcode : code < 2 ^ nbits ∨ rembits = 8)
    (h : toBits dst = bits ++ List.replicate rembits false) :
    let out := appendCode code fuel dst rembits nbits
    0 < out.2 ∧ out.2 ≤ 8 ∧
      toBits out.1 = bits ++ bitsOf nbits code ++ List.replicate (out.2 % 8) false := by
  induction fuel generalizing dst rembits nbits bits with
  | zero => exact absurd hfuel (Nat.not_lt_zero nbits)
  | succ fuel ih =>
    unfold appendCode
    by_cases hroom : nbits < rembits
    · simp only [if_pos hroom]
      refine ⟨Nat.sub_pos_of_lt hroom, by omega, ?_⟩
      have hv : code <<< (rembits - nbits) < 2 ^ rembits ∨ rembits = 8 := by
        refine hcode.imp_left fun hlt => ?_
        rw [Nat.shiftLeft_eq]
        calc code * 2 ^ (rembits - nbits) < 2 ^ nbits * 2 ^ (rembits - nbits) :=
              Nat.mul_lt_mul_of_pos_right hlt (by positivity)
          _ = 2 ^ rembits := by rw [← Nat.pow_add, Nat.add_sub_cancel' hroom.le]
      have hbits : bitsOf rembits (code <<< (rembits - nbits))
          = bitsOf nbits code ++ List.replicate (rembits - nbits) false := by
        rw [← bitsOf_shiftLeft, Nat.add_sub_cancel' hroom.le]
      rw [toBits_modifyLast_ofNat hpos hle h hv, hbits, List.append_assoc,
        Nat.mod_eq_of_lt (by omega)]
    · simp only [if_neg hroom]
      have hrest : rembits ≤ nbits := not_lt.mp hroom
      have hv : code >>> (nbits - rembits) < 2 ^ rembits ∨ rembits = 8 := by
        refine hcode.imp_left fun hlt => ?_
        rw [Nat.shiftRight_eq_div_pow, Nat.div_lt_iff_lt_mul (by positivity), ← Nat.pow_add,
          Nat.add_sub_cancel' hrest]
        exact hlt
      have hbits : bitsOf nbits code
          = bitsOf rembits (code >>> (nbits - rembits)) ++ bitsOf (nbits - rembits) code := by
        rw [← bitsOf_add, Nat.add_sub_cancel' hrest]
      have hdst := toBits_modifyLast_ofNat hpos hle h hv
      by_cases hend : nbits - rembits = 0
      · simp only [if_pos hend]
        refine ⟨by decide, le_rfl, ?_⟩
        rw [hdst, hbits, hend]
        simp [bitsOf]
      · simp only [if_neg hend]
        have hfuel' : nbits - rembits < fuel := by omega
        rw [hbits, ← List.append_assoc]
        exact ih hfuel' (Nat.pos_of_ne_zero hend) (by decide) le_rfl (.inr rfl)
          ((toBits_concat_zero _).trans (by rw [hdst]))

theorem codeOf_lt (c : UInt8) : codeOf c < 2 ^ codeLenOf c := by
  have hall : ∀ e ∈ huffmanCodes.zip huffmanCodeLen, e.1 < 2 ^ e.2 := by decide +kernel
  exact hall (codeOf c, codeLenOf c) (List.mem_of_getElem? (List.getElem?_zip_eq_some.mpr
    ⟨getElem?_huffmanCodes c, getElem?_huffmanCodeLen c⟩))

theorem appendSymbols_spec {rembits : Nat} (hpos : 0 < rembits) (hle : rembits ≤ 8)
    (h : toBits dst = bits ++ List.replicate (rembits % 8) false) :
    let out := appendSymbols dst rembits s
    0 < out.2 ∧ out.2 ≤ 8 ∧
      toBits out.1 = bits ++ stringBits s ++ List.replicate (out.2 % 8) false := by
  induction s generalizing dst rembits bits with
  | nil => exact ⟨hpos, hle, by simpa [appendSymbols] using h⟩
  | cons c s ih =>
    -- The last byte has room for `rembits` bits, and if this is all of it, then it is new.
    have hroom : toBits (if rembits = 8 then dst ++ [0] else dst)
        = bits ++ List.replicate rembits false := by
      split
      · rename_i heq
        rw [toBits_concat_zero, h, heq]
        simp
      · rw [h, Nat.mod_eq_of_lt (by omega)]
    obtain ⟨hpos', hle', hout⟩ := appendCode_spec (Nat.lt_succ_self _) (codeLenOf_pos c) hpos hle
      (.inl (codeOf_lt c)) hroom
    rw [stringBits_cons, ← List.append_assoc]
    exact ih hpos' hle' hout

/-- The encoder writes the code words, and ones up to the end of a byte. -/
theorem toBits_appendHuffmanString (dst s : Bytes) :
    ∃ r < 8, toBits (appendHuffmanString dst s)
      = toBits dst ++ stringBits s ++ List.replicate r true := by
  have hstart : toBits dst = toBits dst ++ List.replicate (8 % 8) false := by simp
  obtain ⟨hpos, hle, hout⟩ := appendSymbols_spec (s := s) (by decide) le_rfl hstart
  unfold appendHuffmanString
  by_cases hpad : (appendSymbols dst 8 s).2 < 8
  · simp only [if_pos hpad]
    rw [Nat.mod_eq_of_lt hpad] at hout
    refine ⟨_, hpad, ?_⟩
    have heos : 0x3fffffff >>> (30 - (appendSymbols dst 8 s).2)
        = 2 ^ (appendSymbols dst 8 s).2 - 1 := by
      generalize (appendSymbols dst 8 s).2 = r at hpad
      interval_cases r <;> rfl
    rw [toBits_modifyLast_ofNat hpos hle hout (.inl (heos ▸ Nat.sub_one_lt (by positivity))), heos,
      bitsOf_ones]
  · simp only [if_neg hpad]
    have heq : (appendSymbols dst 8 s).2 = 8 := by omega
    exact ⟨0, by decide, by simpa [heq] using hout⟩

/-! ### The decoder -/

/-- The state after the bits `text`: those of the symbols that were written, those of the way from
the root to the node, and those that were not looked at. -/
structure Reading (maxLen : Nat) (text : List Bool) (path : Bytes) (st : HuffmanState) : Prop where
  text_eq : text = stringBits st.buf ++ (toBits path ++ bitsOf st.cbits st.cur)
  walk : rootHuffmanNode.walk path = some st.n
  inner : rootHuffmanNode.look path = some .internal
  sbits : st.sbits = 8 * path.length + st.cbits
  fits : maxLen = 0 ∨ st.buf.length ≤ maxLen

theorem reading_initial (maxLen : Nat) : Reading maxLen [] [] ⟨rootHuffmanNode, 0, 0, 0, []⟩ :=
  ⟨rfl, by simp only [Node.walk_nil], represents_root.root, rfl, .inr (Nat.zero_le maxLen)⟩

/-- A leaf is the end of a code word. -/
theorem codeBits_of_leaf {path : Bytes}
    (h : rootHuffmanNode.look (path ++ [i]) = some (.leaf len c)) :
    0 < len ∧ len ≤ 8 ∧ codeBits c = toBits path ++ (indexBits i).take len := by
  obtain ⟨-, hlt, hstart, rfl⟩ := (represents_root.leaf _ _ _ (by simp)).mp h
  have hlen : (path ++ [i]).length - 1 = path.length := by simp
  rw [hlen] at hlt ⊢
  have hle : (codeBits c).length ≤ 8 * path.length + 8 := by
    simpa [Nat.mul_add] using hstart.length_le
  refine ⟨Nat.sub_pos_of_lt hlt, by omega, ?_⟩
  have htake := List.prefix_iff_eq_take.mp hstart
  have hbits : toBits (path ++ [i]) = toBits path ++ indexBits i := by simp [indexBits]
  rw [hbits, List.take_append, List.take_of_length_le (by simpa using hlt.le), length_toBits]
    at htake
  exact htake

section
variable {maxLen : Nat} {text : List Bool} {path : Bytes} {st st' : HuffmanState}

theorem Reading.walk_concat (h : Reading maxLen text path st) (i : UInt8) :
    rootHuffmanNode.walk (path ++ [i]) = st.n.child i := by
  rw [Node.walk_append h.walk, Node.walk]
  cases st.n.child i <;> rfl

theorem Reading.look_concat (h : Reading maxLen text path st) (i : UInt8) :
    rootHuffmanNode.look (path ++ [i]) = (st.n.child i).map Node.kind := by
  rw [Node.look, h.walk_concat]

theorem Reading.child_leaf_iff (h : Reading maxLen text path st) :
    st.n.child i = some (.leaf len c) ↔
      rootHuffmanNode.look (path ++ [i]) = some (.leaf len c) := by
  rw [h.look_concat, Option.map_eq_some_iff]
  constructor
  · exact fun hchild => ⟨_, hchild, rfl⟩
  · rintro ⟨children | _, hchild, hkind⟩
    · cases hkind
    · cases hkind
      exact hchild

/-- The next eight bits are an index, when there are eight. -/
theorem bitsOf_eq_index (hbits : 8 ≤ st.cbits) :
    bitsOf st.cbits st.cur = indexBits (UInt8.ofNat (st.cur >>> (st.cbits - 8)))
      ++ bitsOf (st.cbits - 8) st.cur := by
  rw [indexBits_ofNat, ← bitsOf_add, Nat.add_sub_cancel' hbits]

/-- The bits that are left are the start of an index. -/
theorem indexBits_rest (hbits : st.cbits ≤ 8) :
    indexBits (UInt8.ofNat (st.cur <<< (8 - st.cbits)))
      = bitsOf st.cbits st.cur ++ List.replicate (8 - st.cbits) false := by
  rw [indexBits_ofNat, ← bitsOf_shiftLeft, Nat.add_sub_cancel' hbits]

/-- A pass that goes down to an internal node. -/
theorem Reading.descend (h : Reading maxLen text path st) {children : List (Option Node)}
    (hchild : st.n.child (UInt8.ofNat (st.cur >>> (st.cbits - 8))) = some (.internal children))
    (hbits : 8 ≤ st.cbits) :
    Reading maxLen text (path ++ [UInt8.ofNat (st.cur >>> (st.cbits - 8))])
      { st with n := .internal children, cbits := st.cbits - 8 } where
  text_eq := by
    rw [h.text_eq, bitsOf_eq_index hbits, toBits_append, toBits_cons_index, toBits_nil]
    simp
  walk := (h.walk_concat _).trans hchild
  inner := by rw [h.look_concat, hchild]; rfl
  sbits := by
    show st.sbits = 8 * (path ++ [_]).length + (st.cbits - 8)
    rw [h.sbits, List.length_append, List.length_singleton]
    omega
  fits := h.fits

theorem writeSym_ok (hroom : maxLen = 0 ∨ st.buf.length ≠ maxLen) (len : Nat) (c : UInt8) :
    st.writeSym maxLen len c
      = .ok ⟨rootHuffmanNode, st.cur, st.cbits - len, st.cbits - len, st.buf ++ [c]⟩ :=
  if_neg fun h => h.2 |> hroom.resolve_left h.1

theorem writeSym_error (hroom : ¬ (maxLen = 0 ∨ st.buf.length ≠ maxLen)) (len : Nat) (c : UInt8) :
    st.writeSym maxLen len c = .error .stringLength :=
  if_pos (by simpa [not_or] using hroom)

/-- The bits up to a leaf. Those of the code word in the last byte of the way are the first ones
that were not looked at. -/
theorem Reading.text_leaf (h : Reading maxLen text path st)
    (hchild : st.n.child i = some (.leaf len c)) (hlen : len ≤ st.cbits)
    (hindex : (indexBits i).take len = (bitsOf st.cbits st.cur).take len) :
    text = stringBits (st.buf ++ [c]) ++ bitsOf (st.cbits - len) st.cur := by
  have hsplit : bitsOf st.cbits st.cur
      = (indexBits i).take len ++ bitsOf (st.cbits - len) st.cur := by
    rw [hindex, ← drop_bitsOf hlen, List.take_append_drop]
  rw [h.text_eq, hsplit]
  simp [(codeBits_of_leaf (h.child_leaf_iff.mp hchild)).2.2]

/-- A pass that writes a symbol. -/
theorem Reading.write (h : Reading maxLen text path st)
    (htext : text = stringBits (st.buf ++ [c]) ++ bitsOf (st.cbits - len) st.cur)
    (hroom : maxLen = 0 ∨ st.buf.length ≠ maxLen) :
    Reading maxLen text []
      ⟨rootHuffmanNode, st.cur, st.cbits - len, st.cbits - len, st.buf ++ [c]⟩ where
  text_eq := htext
  walk := by simp only [Node.walk_nil]
  inner := represents_root.root
  sbits := (Nat.zero_add _).symm
  fits := by
    have hfits := h.fits
    rw [List.length_append, List.length_singleton]
    omega

/-- A string of code words and the ones behind it. -/
structure Encodes (maxLen : Nat) (text : List Bool) (s : Bytes) : Prop where
  fits : maxLen = 0 ∨ s.length ≤ maxLen
  text : ∃ r < 8, text = stringBits s ++ List.replicate r true

theorem false_mem_codeBits (c : UInt8) : false ∈ codeBits c := by
  have hall : ∀ e ∈ codeTable, false ∈ e.1 := by decide +kernel
  exact hall _ (mem_codeTable c)

theorem codeBits_ne_ones : ¬ codeBits c <+: List.replicate r true :=
  fun h => absurd (List.eq_of_mem_replicate (h.subset (false_mem_codeBits c))) (by decide)

/-- The symbols that were written are the first ones of the string. -/
theorem eq_append_of_stringBits {b : Bytes}
    (h : stringBits b ++ x = stringBits s ++ List.replicate r true) :
    ∃ s', s = b ++ s' ∧ x = stringBits s' ++ List.replicate r true := by
  induction b generalizing s with
  | nil => exact ⟨s, rfl, h⟩
  | cons c b ih =>
    rw [stringBits_cons, List.append_assoc] at h
    cases s with
    | nil => exact absurd (h ▸ List.prefix_append ..) codeBits_ne_ones
    | cons d s =>
      rw [stringBits_cons, List.append_assoc] at h
      obtain rfl := codeBits_prefixFree.eq_of_common (List.prefix_append ..)
        (h ▸ List.prefix_append ..)
      obtain ⟨s', rfl, hx⟩ := ih (List.append_cancel_left h)
      exact ⟨s', rfl, hx⟩

section
variable (h : rootHuffmanNode.look path = some .internal)
include h

/-- A code word does not end on the way to an internal node. -/
theorem length_lt_of_inner (hpath : toBits path <+: z) (hword : codeBits c <+: z) :
    8 * path.length < (codeBits c).length := by
  by_cases hnil : path = []
  · rw [hnil, codeBits, length_bitsOf]
    exact codeLenOf_pos c
  · obtain ⟨d, -, hlt, hd⟩ := (represents_root.internal path hnil).mp h
    by_contra hle
    have hc : codeBits c <+: toBits path :=
      List.prefix_of_prefix_length_le hword hpath (by rw [length_toBits]; omega)
    obtain rfl := codeBits_prefixFree c d (hc.trans hd)
    exact hle hlt

theorem look_leaf (hword : codeBits c <+: toBits (path ++ [i])) :
    rootHuffmanNode.look (path ++ [i])
      = some (.leaf ((codeBits c).length - 8 * path.length) c) := by
  have hlt := length_lt_of_inner h (by simp) hword
  have hlen : (path ++ [i]).length - 1 = path.length := by simp
  exact (represents_root.leaf _ _ _ (by simp)).mpr
    ⟨mem_allBytes c, by rwa [hlen], hword, by rw [hlen]⟩

/-- The way goes on as long as a code word does. -/
theorem look_ne_none {i c : UInt8} (hpath : toBits (path ++ [i]) <+: z) (hword : codeBits c <+: z) :
    rootHuffmanNode.look (path ++ [i]) ≠ none := by
  rcases List.prefix_or_prefix_of_prefix hword hpath with hle | hle
  · rw [look_leaf h hle]
    simp
  · rcases Nat.lt_or_ge (8 * (path ++ [i]).length) (codeBits c).length with hlt | hge
    · rw [(represents_root.internal _ (by simp)).mpr ⟨c, mem_allBytes c, hlt, hle⟩]
      simp
    · have heq := hle.eq_of_length_le (by rw [length_toBits]; exact hge)
      rw [look_leaf h (by rw [heq])]
      simp

end

/-- A string that has the symbols at its front has room for them. -/
theorem Encodes.room {s y : _} (h : Encodes maxLen (text ++ y) s)
    (htext : text = stringBits (st.buf ++ [c]) ++ x) : maxLen = 0 ∨ st.buf.length ≠ maxLen := by
  obtain ⟨r, -, htext'⟩ := h.text
  rw [htext, List.append_assoc] at htext'
  obtain ⟨s', rfl, -⟩ := eq_append_of_stringBits htext'
  have hfits := h.fits
  rw [List.length_append, List.length_append, List.length_singleton] at hfits
  omega

section
variable (h : Reading maxLen text path st)
include h

/-- Where a whole index is there, the way goes on. -/
theorem Reading.child_ne_none (hbits : 8 ≤ st.cbits) {y s : _}
    (henc : Encodes maxLen (text ++ y) s) :
    st.n.child (UInt8.ofNat (st.cur >>> (st.cbits - 8))) ≠ none := by
  obtain ⟨r, hr, htext⟩ := henc.text
  rw [h.text_eq, List.append_assoc, bitsOf_eq_index hbits] at htext
  obtain ⟨s', -, hrest⟩ := eq_append_of_stringBits htext
  have hpath : toBits (path ++ [UInt8.ofNat (st.cur >>> (st.cbits - 8))])
      <+: stringBits s' ++ List.replicate r true := by
    rw [← hrest, toBits_append, toBits_cons_index, toBits_nil]
    simp
  cases s' with
  | nil =>
    have hle := hpath.length_le
    simp only [length_toBits, List.length_append, List.length_singleton, stringBits_nil,
      List.length_nil, List.length_replicate] at hle
    omega
  | cons c s' =>
    have hne := look_ne_none h.inner hpath (c := c) (by simp [List.append_assoc])
    rw [h.look_concat] at hne
    exact fun hnone => hne (by rw [hnone]; rfl)

/-- The first loop goes on until less than eight bits are left. It fails only when no string has
this text at its front. -/
theorem decodeFull_spec (hfuel : st.cbits ≤ fuel) :
    (∃ path' st', decodeFull maxLen fuel st = .ok st' ∧ Reading maxLen text path' st' ∧
      st'.cbits < 8) ∨
    (∃ e, decodeFull maxLen fuel st = .error e) ∧ ∀ y s, ¬ Encodes maxLen (text ++ y) s := by
  induction fuel generalizing path st with
  | zero => exact .inl ⟨path, st, rfl, h, by omega⟩
  | succ fuel ih =>
    by_cases hlt : st.cbits < 8
    · exact .inl ⟨path, st, if_pos hlt, h, hlt⟩
    have hbits : 8 ≤ st.cbits := not_lt.mp hlt
    rw [decodeFull, if_neg hlt]
    cases hchild : st.n.child (UInt8.ofNat (st.cur >>> (st.cbits - 8))) with
    | none =>
      simp only [hchild]
      exact .inr ⟨⟨_, rfl⟩, fun y s henc => h.child_ne_none hbits henc hchild⟩
    | some m =>
      cases m with
      | internal children =>
        simp only [hchild]
        exact ih (h.descend hchild hbits) (by show st.cbits - 8 ≤ fuel; omega)
      | leaf len c =>
        obtain ⟨hpos, hle, -⟩ := codeBits_of_leaf (h.child_leaf_iff.mp hchild)
        have htext := h.text_leaf hchild (hle.trans hbits) (by
          rw [bitsOf_eq_index hbits, List.take_append_of_le_length (by simpa [indexBits])])
        by_cases hroom : maxLen = 0 ∨ st.buf.length ≠ maxLen
        · simp only [hchild, writeSym_ok hroom]
          exact ih (h.write htext hroom) (by show st.cbits - len ≤ fuel; omega)
        · simp only [hchild, writeSym_error hroom]
          exact .inr ⟨⟨_, rfl⟩, fun y s henc => hroom (henc.room htext)⟩

theorem Reading.push (hbits : st.cbits < 8) (b : UInt8) :
    Reading maxLen (text ++ bitsOf 8 b.toNat) path
      { st with
        cur := (st.cur <<< 8 ||| b.toNat) % 2 ^ 64
        cbits := st.cbits + 8
        sbits := st.sbits + 8 } :=
  { h with
    text_eq := by
      have hzero : bitsOf 8 (st.cur <<< 8) = List.replicate 8 false := bitsOf_shiftLeft 0 8 st.cur
      have hbyte : bitsOf (st.cbits + 8) ((st.cur <<< 8 ||| b.toNat) % 2 ^ 64)
          = bitsOf st.cbits st.cur ++ bitsOf 8 b.toNat := by
        rw [bitsOf_mod (by omega), bitsOf_or hzero b.toNat_lt, Nat.shiftLeft_shiftRight]
      rw [h.text_eq, hbyte]
      simp
    sbits := by
      rw [h.sbits, Nat.add_assoc] }

theorem foldlM_decodeByte_spec {v : Bytes} (hbits : st.cbits < 8) :
    (∃ path' st', v.foldlM (decodeByte maxLen) st = .ok st' ∧
      Reading maxLen (text ++ toBits v) path' st' ∧ st'.cbits < 8) ∨
    (∃ e, v.foldlM (decodeByte maxLen) st = .error e) ∧
      ∀ s, ¬ Encodes maxLen (text ++ toBits v) s := by
  induction v generalizing text path st with
  | nil => exact .inl ⟨path, st, rfl, by simpa using h, hbits⟩
  | cons b v ih =>
    rw [List.foldlM_cons, decodeByte, toBits_cons, ← List.append_assoc]
    obtain ⟨path', st', hok, h', hbits'⟩ | ⟨⟨e, herr⟩, hbad⟩ :=
      decodeFull_spec (h.push hbits b) le_rfl
    · rw [hok]
      exact ih h' hbits'
    · rw [herr]
      exact .inr ⟨⟨e, rfl⟩, hbad (toBits v)⟩

end

/-- The ones behind the string are the start of an index below the root. -/
theorem look_root_ones (hpos : 0 < r) (hr : r < 8)
    (hi : indexBits i = List.replicate r true ++ List.replicate (8 - r) false) :
    rootHuffmanNode.look [i] ≠ none := by
  have hall : ∀ r < 8, 0 < r → ∃ e ∈ codeTable,
      e.1 <+: List.replicate r true ++ List.replicate (8 - r) false ∨
      List.replicate r true ++ List.replicate (8 - r) false <+: e.1 := by decide +kernel
  obtain ⟨e, he, hcommon⟩ := hall r hr hpos
  have hpath : toBits ([] ++ [i]) = indexBits i := List.append_nil _
  rw [codeBits_of_mem_codeTable he, ← hi, ← hpath] at hcommon
  rcases hcommon with hword | hword
  · exact look_ne_none represents_root.root List.prefix_rfl hword
  · exact look_ne_none represents_root.root hword List.prefix_rfl

section
variable (h : Reading maxLen text path st)
include h

/-- What the second loop finds in the text of a string: the ones at its end, or the code word of the
next symbol. -/
theorem Reading.rest_cases (hbits : st.cbits < 8) (henc : Encodes maxLen text s) :
    (path = [] ∧ bitsOf st.cbits st.cur = List.replicate st.cbits true) ∨
    ∃ len c, len ≤ st.cbits ∧
      st.n.child (UInt8.ofNat (st.cur <<< (8 - st.cbits))) = some (.leaf len c) := by
  obtain ⟨r, hr, htext⟩ := henc.text
  rw [h.text_eq] at htext
  obtain ⟨s', -, hrest⟩ := eq_append_of_stringBits htext
  have hlength := congrArg List.length hrest
  rw [List.length_append, length_toBits, length_bitsOf] at hlength
  cases s' with
  | nil =>
    refine .inl ?_
    rw [stringBits_nil, List.nil_append] at hrest
    rw [stringBits_nil, List.nil_append, List.length_replicate] at hlength
    have hpath : path = [] := List.length_eq_zero_iff.mp (by omega)
    rw [hpath, toBits_nil, List.nil_append] at hrest
    refine ⟨hpath, hrest.trans ?_⟩
    rw [hpath] at hlength
    rw [← hlength, List.length_nil, Nat.mul_zero, Nat.zero_add]
  | cons c s' =>
    refine .inr ⟨(codeBits c).length - 8 * path.length, c, ?_, ?_⟩
    · simp only [stringBits_cons, List.length_append] at hlength
      omega
    · have hword : codeBits c <+: toBits path ++ bitsOf st.cbits st.cur := by
        rw [hrest, stringBits_cons, List.append_assoc]
        exact List.prefix_append ..
      have hindex : toBits path ++ bitsOf st.cbits st.cur
          <+: toBits (path ++ [UInt8.ofNat (st.cur <<< (8 - st.cbits))]) := by
        rw [toBits_append, toBits_cons_index, indexBits_rest hbits.le, toBits_nil,
          List.append_nil, ← List.append_assoc]
        exact List.prefix_append ..
      exact h.child_leaf_iff.mpr (look_leaf h.inner (hword.trans hindex))

/-- Where no symbol is left in the text of a string, its end was reached. -/
theorem Reading.ended (hbits : st.cbits < 8) (hno : ∀ len c, len ≤ st.cbits →
      st.n.child (UInt8.ofNat (st.cur <<< (8 - st.cbits))) ≠ some (.leaf len c)) (s : Bytes)
    (henc : Encodes maxLen text s) :
    path = [] ∧ bitsOf st.cbits st.cur = List.replicate st.cbits true :=
  (h.rest_cases hbits henc).resolve_right fun ⟨len, c, hle, hchild⟩ => hno len c hle hchild

theorem Reading.ended_of_zero (hzero : st.cbits = 0) (s : Bytes) (henc : Encodes maxLen text s) :
    path = [] ∧ bitsOf st.cbits st.cur = List.replicate st.cbits true := by
  refine h.ended (by omega) (fun len c hle hchild => ?_) s henc
  have hpos := (codeBits_of_leaf (h.child_leaf_iff.mp hchild)).1
  omega

/-- The second loop stops behind the last symbol. It fails only when the text is not that of a
string. -/
theorem decodeRest_spec (hbits : st.cbits < 8) (hfuel : st.cbits ≤ fuel) :
    (∃ path' st', decodeRest maxLen fuel st = .ok st' ∧ Reading maxLen text path' st' ∧
      ∀ s, Encodes maxLen text s →
        path' = [] ∧ bitsOf st'.cbits st'.cur = List.replicate st'.cbits true) ∨
    (∃ e, decodeRest maxLen fuel st = .error e) ∧ ∀ s, ¬ Encodes maxLen text s := by
  induction fuel generalizing path st with
  | zero => exact .inl ⟨path, st, rfl, h, h.ended_of_zero (by omega)⟩
  | succ fuel ih =>
    by_cases hzero : st.cbits = 0
    · exact .inl ⟨path, st, if_pos hzero, h, h.ended_of_zero hzero⟩
    rw [decodeRest, if_neg hzero]
    cases hchild : st.n.child (UInt8.ofNat (st.cur <<< (8 - st.cbits))) with
    | none =>
      -- Some code word goes on from the ones, so that a string cannot end here.
      refine .inr ⟨⟨_, rfl⟩, fun s henc => ?_⟩
      obtain ⟨rfl, hones⟩ := h.ended hbits (by simp [hchild]) s henc
      have hlook := look_root_ones (Nat.pos_of_ne_zero hzero) hbits
        (by rw [indexBits_rest hbits.le, hones])
      exact hlook ((h.look_concat _).trans (by rw [hchild]; rfl))
    | some m =>
      cases m with
      | internal children => exact .inl ⟨path, st, rfl, h, h.ended hbits (by simp [hchild])⟩
      | leaf len c =>
        by_cases hshort : st.cbits < len
        · simp only [if_pos hshort]
          refine .inl ⟨path, st, rfl, h, h.ended hbits fun len' c' hle heq => ?_⟩
          rw [hchild] at heq
          cases heq
          omega
        · simp only [if_neg hshort]
          have hle : len ≤ st.cbits := not_lt.mp hshort
          have hpos := (codeBits_of_leaf (h.child_leaf_iff.mp hchild)).1
          have htext := h.text_leaf hchild hle (by
            rw [indexBits_rest hbits.le, List.take_append_of_le_length (by simpa using hle)])
          by_cases hroom : maxLen = 0 ∨ st.buf.length ≠ maxLen
          · simp only [writeSym_ok hroom]
            exact ih (h.write htext hroom) (by show st.cbits - len < 8; omega)
              (by show st.cbits - len ≤ fuel; omega)
          · simp only [writeSym_error hroom]
            refine .inr ⟨⟨_, rfl⟩, fun s henc => hroom ?_⟩
            exact Encodes.room (y := []) (by simpa using henc) htext

end

/-- At its end the decoder has written the string. -/
theorem Reading.eq_of_encodes (h : Reading maxLen text [] st)
    (hones : bitsOf st.cbits st.cur = List.replicate st.cbits true) (henc : Encodes maxLen text s) :
    st.buf = s ∧ st.cbits < 8 := by
  obtain ⟨r, hr, htext⟩ := henc.text
  rw [h.text_eq, hones, toBits_nil, List.nil_append] at htext
  obtain ⟨s', rfl, hrest⟩ := eq_append_of_stringBits htext
  cases s' with
  | nil =>
    have hlength := congrArg List.length hrest
    rw [stringBits_nil, List.nil_append, List.length_replicate, List.length_replicate] at hlength
    exact ⟨(List.append_nil _).symm, hlength ▸ hr⟩
  | cons c s' =>
    rw [stringBits_cons, List.append_assoc] at hrest
    exact absurd (hrest ▸ List.prefix_append ..) (codeBits_ne_ones (c := c) (r := st.cbits))

end

theorem finish_eq_ok_iff {st : HuffmanState} :
    st.finish = .ok s ↔
      st.sbits < 8 ∧ bitsOf st.cbits st.cur = List.replicate st.cbits true ∧ st.buf = s := by
  rw [HuffmanState.finish, ← and_mask_eq_iff]
  by_cases hlong : 7 < st.sbits
  · rw [if_pos hlong]
    exact ⟨nofun, fun h => absurd h.1 (by omega)⟩
  · simp only [if_neg hlong, Nat.lt_succ_iff.mpr (not_lt.mp hlong), true_and]
    by_cases hmask : st.cur &&& (2 ^ st.cbits - 1) = 2 ^ st.cbits - 1
    · rw [if_neg (not_not_intro hmask), Except.ok.injEq]
      exact (and_iff_right hmask).symm
    · rw [if_pos hmask]
      exact ⟨nofun, fun h => absurd h.1 hmask⟩

theorem bind_ok {α β : Type} (a : α) (f : α → Except Err β) : (Except.ok a >>= f) = f a := rfl

/-- The decoder reads back the text of a string, and accepts no other text. -/
theorem huffmanDecode_eq_ok_iff (maxLen : Nat) (v s : Bytes) :
    huffmanDecode maxLen v = .ok s ↔ Encodes maxLen (toBits v) s := by
  rw [huffmanDecode]
  obtain ⟨path, st, hok, h, hbits⟩ | ⟨⟨e, herr⟩, hbad⟩ :=
    foldlM_decodeByte_spec (v := v) (reading_initial maxLen) (by decide)
  swap
  · rw [herr]
    exact ⟨nofun, fun henc => absurd henc (hbad s)⟩
  rw [hok, bind_ok]
  obtain ⟨path', st', hok', h', hend⟩ | ⟨⟨e, herr⟩, hbad⟩ := decodeRest_spec h hbits le_rfl
  swap
  · rw [herr]
    exact ⟨nofun, fun henc => absurd henc (hbad s)⟩
  rw [hok', bind_ok, finish_eq_ok_iff, h'.sbits]
  constructor
  · rintro ⟨hshort, hones, rfl⟩
    obtain rfl : path' = [] := List.length_eq_zero_iff.mp (by omega)
    refine ⟨h'.fits, st'.cbits, by omega, ?_⟩
    rw [← hones]
    exact h'.text_eq
  · intro henc
    obtain ⟨rfl, hones⟩ := hend s henc
    obtain ⟨rfl, hlt⟩ := h'.eq_of_encodes hones henc
    exact ⟨by rw [List.length_nil]; omega, hones, rfl⟩

/-- The length of the text says how many ones are behind the code words. -/
theorem Encodes.unique {v w : Bytes} (hv : Encodes maxLen (toBits v) s)
    (hw : Encodes maxLen (toBits w) s) : v = w := by
  obtain ⟨r, hr, hv⟩ := hv.text
  obtain ⟨r', hr', hw⟩ := hw.text
  have hvlen := congrArg List.length hv
  have hwlen := congrArg List.length hw
  rw [length_toBits, List.length_append, List.length_replicate] at hvlen hwlen
  obtain rfl : r = r' := by omega
  exact toBits_inj (hv.trans hw.symm)

theorem encodes_appendHuffmanString (hfits : maxLen = 0 ∨ s.length ≤ maxLen) :
    Encodes maxLen (toBits (appendHuffmanString [] s)) s :=
  ⟨hfits, by simpa using toBits_appendHuffmanString [] s⟩

theorem huffmanDecode_appendHuffmanString (hfits : maxLen = 0 ∨ s.length ≤ maxLen) :
    huffmanDecode maxLen (appendHuffmanString [] s) = .ok s :=
  (huffmanDecode_eq_ok_iff maxLen _ s).mpr (encodes_appendHuffmanString hfits)

/-- The decoder reads back what the encoder wrote, and accepts nothing that the encoder does not
write. -/
theorem huffmanDecode_iff_encoded (maxLen : Nat) (v s : Bytes) :
    huffmanDecode maxLen v = .ok s ↔
      v = appendHuffmanString [] s ∧ (maxLen = 0 ∨ s.length ≤ maxLen) := by
  constructor
  · intro h
    have henc := (huffmanDecode_eq_ok_iff maxLen v s).mp h
    exact ⟨henc.unique (encodes_appendHuffmanString henc.fits), henc.fits⟩
  · rintro ⟨rfl, hfits⟩
    exact huffmanDecode_appendHuffmanString hfits

/-- To append to bytes that are there. -/
theorem appendHuffmanString_eq_append (dst s : Bytes) :
    appendHuffmanString dst s = dst ++ appendHuffmanString [] s := by
  obtain ⟨r, hr, htext⟩ := toBits_appendHuffmanString dst s
  obtain ⟨r', hr', htext'⟩ := toBits_appendHuffmanString [] s
  have hlength := congrArg List.length htext
  have hlength' := congrArg List.length htext'
  simp only [length_toBits, List.length_append, List.length_replicate, toBits_nil, List.length_nil]
    at hlength hlength'
  obtain rfl : r = r' := by omega
  refine toBits_inj ?_
  rw [htext, toBits_append, htext']
  simp

/-- The length that is written before the string is that of the code words behind it. -/
theorem huffmanEncodeLength_eq (s : Bytes) :
    huffmanEncodeLength s = (appendHuffmanString [] s).length := by
  obtain ⟨r, hr, htext⟩ := toBits_appendHuffmanString [] s
  have hlength := congrArg List.length htext
  have hbits : (stringBits s).length = (s.map codeLenOf).sum := by
    rw [stringBits, List.length_flatMap]
    simp only [codeBits, length_bitsOf]
  simp only [length_toBits, List.length_append, List.length_replicate, toBits_nil, List.length_nil,
    hbits] at hlength
  rw [huffmanEncodeLength]
  omega

end IstioVendor.Hpack
