import Mathlib.Tactic.IntervalCases
import Mathlib.Tactic.Positivity
import IstioVendor.Hpack.Huffman
import IstioVendor.Lib.PrefixCode

/-!
# `IstioVendor.Proofs.Hpack.HuffmanTree`: the tree of the Huffman decoder is the code

A way through the tree is a list of bytes. `look` is what stands at its end. `Represents` says that
this is an internal node when the bits of the way are the start of a longer code word, and the leaf
of a symbol when its code word ends in the last byte of the way.

`look_addBelow` is what `addDecoderNode` changes, for a code word to which no word in the tree can
be compared. As no code word is the start of another one (`codeBits_prefixFree`), the tree that
`init` makes represents the whole code (`represents_root`).
-/

set_option autoImplicit false

namespace IstioVendor.Hpack

open Lib

/-! ### Ways through a tree -/

inductive Kind where
  | internal
  | leaf (codeLen : Nat) (sym : UInt8)
deriving DecidableEq

def Node.kind : Node → Kind
  | .internal _ => .internal
  | .leaf codeLen sym => .leaf codeLen sym

/-- The node at the end of a way. -/
def Node.walk : Node → List UInt8 → Option Node
  | n, [] => some n
  | n, i :: p => (n.child i).bind fun m => m.walk p

def Node.look (n : Node) (p : List UInt8) : Option Kind := (n.walk p).map Node.kind

/-- Every internal node has its 256 children. -/
def Node.Full (n : Node) : Prop :=
  ∀ p children, n.walk p = some (.internal children) → children.length = 256

variable {i sym : UInt8} {L code : Nat} {children : List (Option Node)} {c : List Bool}
  {syms : List UInt8}

namespace Node

@[simp] theorem walk_nil (n : Node) : n.walk [] = some n := rfl

theorem look_cons (n : Node) (i : UInt8) (p : List UInt8) :
    n.look (i :: p) = (n.child i).bind fun m => m.look p := by
  rw [look, walk]
  cases n.child i <;> rfl

theorem Full.child {n m : Node} (h : n.Full) (hm : n.child i = some m) : m.Full :=
  fun p children hp => h (i :: p) children (by rw [walk, hm]; exact hp)

theorem walk_append {n m : Node} {p q : List UInt8} (h : n.walk p = some m) :
    n.walk (p ++ q) = m.walk q := by
  induction p generalizing n with
  | nil =>
    cases h
    rfl
  | cons i p ih =>
    obtain ⟨c, hc, h⟩ := Option.bind_eq_some_iff.mp h
    rw [List.cons_append, walk, hc]
    exact ih h

end Node

theorem child_newInternalNode (i : UInt8) : newInternalNode.child i = none := by
  rw [newInternalNode, Node.child, List.getElem?_replicate, if_pos i.toNat_lt]
  rfl

theorem look_newInternalNode (p : List UInt8) :
    newInternalNode.look p = if p = [] then some .internal else none := by
  cases p with
  | nil => rfl
  | cons i p => rw [Node.look_cons, child_newInternalNode, if_neg (List.cons_ne_nil i p)]; rfl

theorem full_newInternalNode : newInternalNode.Full := by
  intro p children hp
  cases p with
  | nil =>
    cases Option.some.inj hp
    exact List.length_replicate
  | cons i p => rw [Node.walk, child_newInternalNode] at hp; cases hp

/-! ### A new code word -/

/-- The bits of an index. -/
def indexBits (i : UInt8) : List Bool := bitsOf 8 i.toNat

theorem indexBits_inj {j : UInt8} (h : indexBits i = indexBits j) : i = j :=
  UInt8.toNat_inj.mp (bitsOf_inj i.toNat_lt j.toNat_lt h)

theorem indexBits_ofNat (v : Nat) : indexBits (UInt8.ofNat v) = bitsOf 8 v := by
  exact bitsOf_mod le_rfl v

/-- What `addDecoderNode` leaves at the end of a way, for the code word `c`. -/
def afterAdd (c : List Bool) (sym : UInt8) (p : List UInt8) (before : Option Kind) : Option Kind :=
  if 8 * p.length < c.length ∧ toBits p <+: c then some .internal
  else if 8 * (p.length - 1) < c.length ∧ c <+: toBits p then
    some (.leaf (c.length - 8 * (p.length - 1)) sym)
  else before

/-- The word `c` can be added: no leaf stands on its way, and nothing behind its end. -/
structure Free (c : List Bool) (t : Node) : Prop where
  way : ∀ q len s, toBits q <+: c → t.look q ≠ some (.leaf len s)
  behind : ∀ q, c <+: toBits q → t.look q = none

/-- The indices below which a code word of up to eight bits is put are those that start with it. -/
theorem inRange_iff (hL : L ≤ 8) (i : UInt8) :
    (UInt8.ofNat (code <<< (8 - L))).toNat ≤ i.toNat ∧
      i.toNat < (UInt8.ofNat (code <<< (8 - L))).toNat + 2 ^ (8 - L) ↔
    bitsOf L code <+: indexBits i := by
  have hstart : (UInt8.ofNat (code <<< (8 - L))).toNat = code % 2 ^ L * 2 ^ (8 - L) := by
    have hpow : 2 ^ 8 = 2 ^ L * 2 ^ (8 - L) := by rw [← Nat.pow_add, Nat.add_sub_cancel' hL]
    rw [UInt8.toNat_ofNat', Nat.shiftLeft_eq, hpow, Nat.mul_mod_mul_right]
  have hbits : indexBits i = bitsOf L (i.toNat >>> (8 - L)) ++ bitsOf (8 - L) i.toNat := by
    rw [indexBits, ← bitsOf_add, Nat.add_sub_cancel' hL]
  have hlt : i.toNat >>> (8 - L) < 2 ^ L := by
    rw [Nat.shiftRight_eq_div_pow, Nat.div_lt_iff_lt_mul (by positivity), ← Nat.pow_add,
      Nat.add_sub_cancel' hL]
    exact i.toNat_lt
  have hstarts : bitsOf L code <+: indexBits i ↔ code % 2 ^ L = i.toNat / 2 ^ (8 - L) := by
    rw [hbits, ← Nat.shiftRight_eq_div_pow]
    constructor
    · intro h
      have heq := (List.prefix_of_prefix_length_le h (List.prefix_append ..) (by simp)).eq_of_length
        (by simp)
      rw [← bitsOf_mod le_rfl] at heq
      exact bitsOf_inj (Nat.mod_lt _ (by positivity)) hlt heq
    · intro h
      rw [← h, bitsOf_mod le_rfl]
      exact List.prefix_append ..
  have hpos : 0 < 2 ^ (8 - L) := by positivity
  rw [hstarts, hstart, eq_comm, Nat.div_eq_iff hpos]
  omega

theorem toBits_cons_index (i : UInt8) (p : List UInt8) :
    toBits (i :: p) = indexBits i ++ toBits p :=
  rfl

theorem child_internal (h : children.length = 256) (i : UInt8) :
    ∃ o, children[i.toNat]? = some o ∧ (Node.internal children).child i = o := by
  have hi : i.toNat < children.length := h ▸ i.toNat_lt
  exact ⟨children.get ⟨i.toNat, hi⟩, List.getElem?_eq_getElem hi, by
    rw [Node.child, List.getElem?_eq_getElem hi]; rfl⟩

/-- One level of `addDecoderNode` for a long code word. -/
theorem child_set (h : children.length = 256) (i j : UInt8) (m : Node) :
    (Node.internal (children.set i.toNat (some m))).child j
      = if j = i then some m else (Node.internal children).child j := by
  rw [Node.child, List.getElem?_set]
  by_cases hij : j = i
  · subst hij
    rw [if_pos rfl, if_pos (h ▸ j.toNat_lt), if_pos rfl]
    rfl
  · rw [if_neg fun heq => hij (UInt8.toNat_inj.mp heq).symm, if_neg hij, Node.child]

/-- The last level of `addDecoderNode`. -/
theorem child_mapIdx (h : children.length = 256) (f : Nat → Option Node → Option Node) (j : UInt8) :
    (Node.internal (children.mapIdx f)).child j = f j.toNat ((Node.internal children).child j) := by
  obtain ⟨o, hget, hchild⟩ := child_internal h j
  rw [hchild, Node.child, List.getElem?_mapIdx, hget]
  rfl

theorem addBelow_short (hL : L ≤ 8) (children : List (Option Node)) :
    addBelow sym code L (.internal children) = .internal (children.mapIdx fun i child =>
      if (UInt8.ofNat (code <<< (8 - L))).toNat ≤ i ∧
          i < (UInt8.ofNat (code <<< (8 - L))).toNat + 2 ^ (8 - L) then
        some (.leaf L sym)
      else child) := by
  interval_cases L <;> rfl

/-- Ways that start with different indices cannot be compared. -/
theorem indexBits_append_starts {j : UInt8} {x y : List Bool} :
    indexBits i ++ x <+: indexBits j ++ y ↔ i = j ∧ x <+: y := by
  constructor
  · rintro ⟨r, hr⟩
    rw [List.append_assoc] at hr
    obtain ⟨hindex, hrest⟩ := List.append_inj hr (by simp [indexBits])
    exact ⟨indexBits_inj hindex, r, hrest⟩
  · rintro ⟨rfl, h⟩
    exact (List.prefix_append_right_inj _).mpr h

theorem afterAdd_cons (hc : c ≠ []) (sym i j : UInt8) (p : List UInt8) (before : Option Kind) :
    afterAdd (indexBits i ++ c) sym (j :: p) before
      = if j = i then afterAdd c sym p before else before := by
  have hlen : (indexBits i).length = 8 := length_bitsOf ..
  have hpos := List.length_pos_iff.mpr hc
  simp only [afterAdd, toBits_cons_index, indexBits_append_starts, List.length_append,
    List.length_cons, hlen, Nat.add_sub_cancel]
  by_cases hji : j = i
  · subst hji
    cases p with
    | nil => simp [hpos]
    | cons k p =>
      have hlength : 8 + c.length - 8 * (p.length + 1) = c.length - 8 * p.length := by omega
      have hfirst : 8 * (p.length + 1 + 1) < 8 + c.length ↔ 8 * (p.length + 1) < c.length := by
        omega
      have hsecond : 8 * (p.length + 1) < 8 + c.length ↔ 8 * p.length < c.length := by omega
      simp only [List.length_cons, Nat.add_sub_cancel, true_and, hfirst, hsecond, hlength, if_true]
  · simp [hji, Ne.symm hji]

theorem Free.child {t m : Node} (h : Free (indexBits i ++ c) t) (hm : t.child i = some m) :
    Free c m where
  way := fun q len s hq => by
    have hway := h.way (i :: q) len s (indexBits_append_starts.mpr ⟨rfl, hq⟩)
    rwa [Node.look_cons, hm] at hway
  behind := fun q hq => by
    have hbehind := h.behind (i :: q) (indexBits_append_starts.mpr ⟨rfl, hq⟩)
    rwa [Node.look_cons, hm] at hbehind

theorem free_newInternalNode (hc : c ≠ []) : Free c newInternalNode where
  way := fun q len s _ => by
    rw [look_newInternalNode]
    split <;> simp
  behind := fun q hq => by
    rw [look_newInternalNode, if_neg]
    rintro rfl
    exact hc (List.prefix_nil.mp hq)

/-- The node at which the rest of a long code word is added: the child that is there, or a new
one. -/
theorem exists_next (hc : c ≠ []) (hfull : (Node.internal children).Full)
    (hfree : Free (indexBits i ++ c) (.internal children)) :
    ∃ next, ((children[i.toNat]?).join.getD newInternalNode) = .internal next ∧
      (Node.internal next).Full ∧ Free c (.internal next) ∧
      ∀ q, q ≠ [] → (Node.internal next).look q = (Node.internal children).look (i :: q) := by
  have hchild : (Node.internal children).child i = (children[i.toNat]?).join := rfl
  rw [← hchild]
  cases hm : (Node.internal children).child i with
  | none =>
    refine ⟨_, rfl, full_newInternalNode, free_newInternalNode hc, fun q hq => ?_⟩
    rw [Node.look_cons, hm]
    exact (look_newInternalNode q).trans (if_neg hq)
  | some m =>
    cases m with
    | leaf len s =>
      have hway := hfree.way [i] len s
        (by rw [toBits_cons_index]; exact indexBits_append_starts.mpr ⟨rfl, List.nil_prefix⟩)
      rw [Node.look_cons, hm] at hway
      exact absurd rfl hway
    | internal next =>
      refine ⟨next, rfl, hfull.child hm, hfree.child hm, fun q _ => ?_⟩
      rw [Node.look_cons, hm]
      rfl

/-- A long code word: its first eight bits are the index of the next node, and the rest is added
there. -/
theorem exists_addBelow_long {k : Nat} (hfull : (Node.internal children).Full)
    (hfree : Free (bitsOf (k + 9) code) (.internal children)) :
    ∃ i next, bitsOf (k + 9) code = indexBits i ++ bitsOf (k + 1) code ∧
      addBelow sym code (k + 9) (.internal children)
        = .internal (children.set i.toNat (some (addBelow sym code (k + 1) (.internal next)))) ∧
      (Node.internal next).Full ∧ Free (bitsOf (k + 1) code) (.internal next) ∧
      ∀ q, q ≠ [] → (Node.internal next).look q = (Node.internal children).look (i :: q) := by
  have hbits : bitsOf (k + 9) code
      = indexBits (UInt8.ofNat (code >>> (k + 1))) ++ bitsOf (k + 1) code := by
    rw [indexBits_ofNat, ← bitsOf_add, Nat.add_comm 8]
  rw [hbits] at hfree
  obtain ⟨next, hnext, hfull', hfree', hlook⟩ :=
    exists_next (List.ne_nil_of_length_pos (by simp)) hfull hfree
  refine ⟨_, next, hbits, ?_, hfull', hfree', hlook⟩
  rw [← hnext]
  rfl

/-- To add a code word changes the tree along its way only. -/
theorem look_addBelow (hL : 0 < L) (hfull : (Node.internal children).Full)
    (hfree : Free (bitsOf L code) (.internal children)) (p : List UInt8) :
    (addBelow sym code L (.internal children)).look p
      = afterAdd (bitsOf L code) sym p ((Node.internal children).look p) := by
  have hlen : children.length = 256 := hfull [] children rfl
  induction L using Nat.strongRecOn generalizing children p with
  | _ L ih =>
  rcases Nat.lt_or_ge 8 L with hlong | hshort
  · obtain ⟨k, rfl⟩ : ∃ k, L = k + 9 := ⟨L - 9, by omega⟩
    obtain ⟨i, next, hbits, hadd, hfull', hfree', hlook⟩ := exists_addBelow_long hfull hfree
    have hrest : bitsOf (k + 1) code ≠ [] := List.ne_nil_of_length_pos (by simp)
    rw [hbits, hadd]
    cases p with
    | nil => simp [afterAdd, Node.look, Node.walk, Node.kind]
    | cons j p =>
      rw [Node.look_cons, child_set hlen, afterAdd_cons hrest]
      split
      · rename_i hj
        rw [Option.bind_some, ih (k + 1) (by omega) (by omega) hfull' hfree' p (hfull' [] next rfl)]
        by_cases hp : p = []
        · subst hp
          simp [afterAdd]
        · rw [hlook p hp, hj]
      · exact (Node.look_cons ..).symm
  · rw [addBelow_short hshort]
    cases p with
    | nil => simp [afterAdd, Node.look, Node.walk, Node.kind, hL]
    | cons j p =>
      have hlength : (bitsOf L code).length = L := length_bitsOf ..
      have hfirst : ¬ 8 * (p.length + 1) < L := by omega
      -- A short code word is the start of a way iff it is the start of its first index.
      have hstart : bitsOf L code <+: indexBits j ++ toBits p ↔ bitsOf L code <+: indexBits j :=
        ⟨fun h => List.prefix_of_prefix_length_le h (List.prefix_append ..)
          (by simpa [indexBits] using hshort), fun h => h.trans (List.prefix_append ..)⟩
      rw [Node.look_cons, child_mapIdx hlen]
      simp only [inRange_iff hshort, afterAdd, hlength, List.length_cons, Nat.add_sub_cancel,
        toBits_cons_index, hstart, hfirst, false_and, if_false]
      by_cases hin : bitsOf L code <+: indexBits j
      · cases p with
        | nil => simp [hin, hL, Node.look, Node.walk, Node.kind]
        | cons k p =>
          have hbehind := hfree.behind (j :: k :: p) (hstart.mpr hin)
          have hsecond : ¬ 8 * (k :: p).length < L := by
            rw [List.length_cons]
            omega
          rw [if_pos hin, hbehind, if_neg fun h => hsecond h.1]
          rfl
      · rw [if_neg hin, if_neg fun h => hin h.2, Node.look_cons]

theorem full_internal (hlen : children.length = 256)
    (h : ∀ i m, (Node.internal children).child i = some m → m.Full) :
    (Node.internal children).Full := by
  intro p cs hp
  cases p with
  | nil =>
    cases Option.some.inj hp
    exact hlen
  | cons i p =>
    obtain ⟨m, hm, hp⟩ := Option.bind_eq_some_iff.mp hp
    exact h i m hm p cs hp

theorem full_leaf (codeLen : Nat) (sym : UInt8) : (Node.leaf codeLen sym).Full := by
  intro p cs hp
  cases p with
  | nil => cases hp
  | cons i p => cases hp

theorem full_addBelow (hfull : (Node.internal children).Full)
    (hfree : Free (bitsOf L code) (.internal children)) :
    (addBelow sym code L (.internal children)).Full := by
  have hlen : children.length = 256 := hfull [] children rfl
  induction L using Nat.strongRecOn generalizing children with
  | _ L ih =>
  rcases Nat.lt_or_ge 8 L with hlong | hshort
  · obtain ⟨k, rfl⟩ : ∃ k, L = k + 9 := ⟨L - 9, by omega⟩
    obtain ⟨_, next, -, hadd, hfull', hfree', -⟩ := exists_addBelow_long hfull hfree
    rw [hadd]
    refine full_internal (by rw [List.length_set, hlen]) fun i m hm => ?_
    rw [child_set hlen] at hm
    split at hm
    · cases hm
      exact ih (k + 1) (by omega) hfull' hfree' (hfull' [] next rfl)
    · exact hfull.child hm
  · rw [addBelow_short hshort]
    refine full_internal (by rw [List.length_mapIdx, hlen]) fun i m hm => ?_
    rw [child_mapIdx hlen] at hm
    split at hm
    · cases hm
      exact full_leaf L sym
    · exact hfull.child hm

/-! ### The whole code -/

/-- The tree holds the code words of the symbols. -/
structure Represents (bits : UInt8 → List Bool) (syms : List UInt8) (t : Node) : Prop where
  full : t.Full
  root : t.look [] = some .internal
  internal : ∀ p, p ≠ [] → (t.look p = some .internal ↔
    ∃ c ∈ syms, 8 * p.length < (bits c).length ∧ toBits p <+: bits c)
  leaf : ∀ p len c, p ≠ [] → (t.look p = some (.leaf len c) ↔
    c ∈ syms ∧ 8 * (p.length - 1) < (bits c).length ∧ bits c <+: toBits p ∧
      len = (bits c).length - 8 * (p.length - 1))

section
variable {bits : UInt8 → List Bool}

theorem represents_nil : Represents bits [] newInternalNode where
  full := full_newInternalNode
  root := rfl
  internal := fun p hp => by simp [look_newInternalNode, hp]
  leaf := fun p len c hp => by simp [look_newInternalNode, hp]

theorem Represents.free {t : Node} (h : Represents bits syms t) (hstarts : PrefixFree bits)
    {c : UInt8} (hc : c ∉ syms) (hne : bits c ≠ []) :
    Free (bits c) t where
  way := fun q len s hq hlook => by
    by_cases hnil : q = []
    · rw [hnil, h.root] at hlook
      cases hlook
    · obtain ⟨hs, -, hstart, -⟩ := (h.leaf q len s hnil).mp hlook
      exact hc (hstarts s c (hstart.trans hq) ▸ hs)
  behind := fun q hq => by
    have hnil : q ≠ [] := by
      rintro rfl
      exact hne (List.prefix_nil.mp hq)
    cases hlook : t.look q with
    | none => rfl
    | some kind =>
      cases kind with
      | internal =>
        obtain ⟨d, hd, -, hstart⟩ := (h.internal q hnil).mp hlook
        exact absurd (hstarts c d (hq.trans hstart) ▸ hd) hc
      | leaf len s =>
        obtain ⟨hs, -, hstart, -⟩ := (h.leaf q len s hnil).mp hlook
        exact absurd (hstarts.eq_of_common hstart hq ▸ hs) hc

theorem Represents.add {t : Node} (h : Represents bits syms t) (hstarts : PrefixFree bits)
    {c : UInt8} (hbits : bits c = bitsOf L code) (hL : 0 < L) (hc : c ∉ syms) :
    Represents bits (syms ++ [c]) (addDecoderNode t c code L) := by
  have hlen : (bits c).length = L := by rw [hbits, length_bitsOf]
  have hfree := h.free hstarts hc (List.ne_nil_of_length_pos (hlen ▸ hL))
  obtain ⟨children, rfl⟩ : ∃ children, t = .internal children := by
    cases t with
    | internal children => exact ⟨children, rfl⟩
    | leaf len s => exact absurd h.root (by simp [Node.look, Node.walk, Node.kind])
  have hlook : ∀ p, (addDecoderNode (.internal children) c code L).look p
      = afterAdd (bits c) c p ((Node.internal children).look p) := fun p => by
    rw [hbits] at hfree ⊢
    exact look_addBelow hL h.full hfree p
  -- Behind the end of the new word there was nothing before.
  have hold : ∀ p kind, bits c <+: toBits p → (Node.internal children).look p ≠ some kind :=
    fun p kind hp => by simp [hfree.behind p hp]
  refine ⟨by rw [hbits] at hfree; exact full_addBelow h.full hfree, ?_, ?_, ?_⟩
  · rw [hlook, afterAdd, if_pos ⟨hlen ▸ hL, List.nil_prefix⟩]
  · intro p hp
    rw [hlook, afterAdd]
    simp only [List.mem_append, List.mem_singleton, or_and_right, exists_or, exists_eq_left,
      ← h.internal p hp]
    split_ifs with hway hleaf
    · simp [hway]
    · simp [hway, hold p _ hleaf.2]
    · simp [hway]
  · intro p len d hp
    rw [hlook, afterAdd]
    split_ifs with hway hleaf
    · refine ⟨fun hlook => by simp at hlook, fun ⟨_, _, hd, _⟩ => ?_⟩
      obtain rfl := hstarts d c (hd.trans hway.2)
      have hle := hd.length_le
      rw [length_toBits] at hle
      omega
    · simp only [Option.some.injEq, Kind.leaf.injEq]
      constructor
      · rintro ⟨rfl, rfl⟩
        exact ⟨List.mem_append_right _ List.mem_cons_self, hleaf.1, hleaf.2, rfl⟩
      · rintro ⟨-, -, hd, rfl⟩
        obtain rfl := hstarts.eq_of_common hd hleaf.2
        exact ⟨rfl, rfl⟩
    · rw [h.leaf p len d hp, List.mem_append, List.mem_singleton]
      refine and_congr_left fun hd => ⟨.inl, fun hmem => hmem.resolve_right ?_⟩
      rintro rfl
      exact hleaf ⟨hd.1, hd.2.1⟩

/-- The tree that is made from a list of different symbols. -/
theorem represents_foldl (hstarts : PrefixFree bits) {code len : UInt8 → Nat}
    (hbits : ∀ c, bits c = bitsOf (len c) (code c)) (hpos : ∀ c, 0 < len c) (hnodup : syms.Nodup) :
    Represents bits syms
      (syms.foldl (fun t c => addDecoderNode t c (code c) (len c)) newInternalNode) := by
  induction syms using List.reverseRecOn with
  | nil => exact represents_nil
  | append_singleton syms c ih =>
    rw [List.foldl_append]
    obtain ⟨hsyms, -, hdisj⟩ := List.nodup_append.mp hnodup
    exact (ih hsyms).add hstarts (hbits c) (hpos c) fun hc =>
      hdisj c hc c List.mem_cons_self rfl

end

/-- The code word of a byte. -/
def codeBits (c : UInt8) : List Bool := bitsOf (codeLenOf c) (codeOf c)

theorem mem_allBytes (c : UInt8) : c ∈ allBytes :=
  List.mem_map.mpr ⟨c.toNat, List.mem_range.mpr c.toNat_lt, UInt8.ofNat_toNat⟩

theorem nodup_allBytes : allBytes.Nodup := by
  refine List.Nodup.map_on (fun i hi j hj h => ?_) List.nodup_range
  have heq := congrArg UInt8.toNat h
  rwa [UInt8.toNat_ofNat_of_lt' (List.mem_range.mp hi),
    UInt8.toNat_ofNat_of_lt' (List.mem_range.mp hj)] at heq

theorem length_huffmanCodes : huffmanCodes.length = 256 := by decide +kernel

theorem length_huffmanCodeLen : huffmanCodeLen.length = 256 := by decide +kernel

theorem getElem?_huffmanCodes (c : UInt8) : huffmanCodes[c.toNat]? = some (codeOf c) := by
  have hlt : c.toNat < huffmanCodes.length := length_huffmanCodes ▸ c.toNat_lt
  rw [codeOf, List.getD_eq_getElem _ _ hlt, List.getElem?_eq_getElem hlt]

theorem getElem?_huffmanCodeLen (c : UInt8) : huffmanCodeLen[c.toNat]? = some (codeLenOf c) := by
  have hlt : c.toNat < huffmanCodeLen.length := length_huffmanCodeLen ▸ c.toNat_lt
  rw [codeLenOf, List.getD_eq_getElem _ _ hlt, List.getElem?_eq_getElem hlt]

/-- The two tables side by side, in which each entry is read once. -/
def codeTable : List (List Bool × UInt8) :=
  (huffmanCodes.zip huffmanCodeLen).mapIdx fun i e => (bitsOf e.2 e.1, UInt8.ofNat i)

theorem getElem?_zip_codes (c : UInt8) :
    (huffmanCodes.zip huffmanCodeLen)[c.toNat]? = some (codeOf c, codeLenOf c) :=
  List.getElem?_zip_eq_some.mpr ⟨getElem?_huffmanCodes c, getElem?_huffmanCodeLen c⟩

theorem mem_codeTable (c : UInt8) : (codeBits c, c) ∈ codeTable := by
  refine List.mem_of_getElem? (i := c.toNat) ?_
  rw [codeTable, List.getElem?_mapIdx, getElem?_zip_codes, Option.map_some, UInt8.ofNat_toNat]
  rfl

theorem codeBits_of_mem_codeTable {e : List Bool × UInt8} (h : e ∈ codeTable) :
    e.1 = codeBits e.2 := by
  obtain ⟨i, hi, rfl⟩ := List.mem_mapIdx.mp h
  have hlt : i < 256 := by
    have hi' := hi
    rw [List.length_zip, length_huffmanCodes, length_huffmanCodeLen] at hi'
    omega
  have hget := getElem?_zip_codes (UInt8.ofNat i)
  rw [UInt8.toNat_ofNat_of_lt' hlt, List.getElem?_eq_getElem hi] at hget
  rw [Option.some.inj hget]
  rfl

theorem codeBits_prefixFree : PrefixFree codeBits :=
  prefixFree_of_separate (by decide +kernel : separate 30 codeTable = true) mem_codeTable

theorem codeLenOf_pos (c : UInt8) : 0 < codeLenOf c := by
  have hall : ∀ len ∈ huffmanCodeLen, 0 < len := by decide +kernel
  exact hall _ (List.mem_of_getElem? (getElem?_huffmanCodeLen c))

/-- The tree of the decoder. -/
theorem represents_root : Represents codeBits allBytes rootHuffmanNode :=
  represents_foldl codeBits_prefixFree (fun _ => rfl) codeLenOf_pos nodup_allBytes

end IstioVendor.Hpack
