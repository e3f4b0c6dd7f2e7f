import IstioVendor.Hpack.Tables
import IstioVendor.Lib.Fifo
import Mathlib.Algebra.Order.Group.Nat

/-!
# `IstioVendor.Proofs.Hpack.Tables`: the tables find the newest entry and keep their bound

A `HeaderFieldTable` has a map from names and one from fields to numbers that go on while entries
are evicted. `Indexed` says that the maps lead to the newest entries, and every operation keeps it.
So a search does not panic, and `Found` says what it returns. `added` is the largest of the numbers:
no table has panicked while it is below `2 ^ 64` (`Counted.not_panicked`).

A dynamic table counts its size in 32 bits. `Bounded` is what always holds of it, and `Exact` what
holds as long as no sum wraps. Then `evict` leaves what `trim` does.
-/

set_option autoImplicit false

namespace IstioVendor.Hpack

open Lib

/-! ### The maps of a table -/

/-- The maps lead to the newest entries. -/
structure HeaderFieldTable.Indexed (t : HeaderFieldTable) : Prop where
  names : Indexes HeaderField.name t.byName t.evictCount t.ents
  pairs : Indexes HeaderField.pair t.byNameValue t.evictCount t.ents

variable {fs : List HeaderField} {n : Nat} {t : HeaderFieldTable} {f g : HeaderField}
  {size : UInt32} {dt : DynamicTable}

namespace HeaderFieldTable

theorem indexed_empty : empty.Indexed := ⟨indexes_empty, indexes_empty⟩

theorem Indexed.addEntry (h : t.Indexed) (f : HeaderField) :
    (t.addEntry f).Indexed := ⟨h.names.add f, h.pairs.add f⟩

theorem indexes_forgetAll {byName : Ids Bytes} {byNameValue : Ids (Bytes × Bytes)} {base : Nat}
    {old : List HeaderField} (hnames : Indexes HeaderField.name byName base (old ++ fs))
    (hpairs : Indexes HeaderField.pair byNameValue base (old ++ fs)) :
    Indexes HeaderField.name (forgetAll byName byNameValue base old).1 (base + old.length) fs ∧
      Indexes HeaderField.pair (forgetAll byName byNameValue base old).2 (base + old.length)
        fs := by
  induction old generalizing byName byNameValue base with
  | nil => exact ⟨hnames, hpairs⟩
  | cons f old ih =>
    rw [List.length_cons, Nat.add_comm old.length, ← Nat.add_assoc]
    exact ih hnames.evict hpairs.evict

theorem Indexed.evictOldest (h : t.Indexed) (hn : n ≤ t.len) : (t.evictOldest n hn).Indexed := by
  have hlen : (t.ents.take n).length = n := List.length_take_of_le hn
  have hsplit := List.take_append_drop n t.ents
  have hnames : Indexes HeaderField.name t.byName t.evictCount (t.ents.take n ++ t.ents.drop n) :=
    hsplit.symm ▸ h.names
  have hmaps := indexes_forgetAll hnames (hsplit.symm ▸ h.pairs)
  rw [hlen] at hmaps
  exact ⟨hmaps.1, hmaps.2⟩

/-- The number of entries that were added so far, which is the id of the newest one. -/
def added (t : HeaderFieldTable) : Nat := t.evictCount + t.len

@[simp] theorem added_addEntry (t : HeaderFieldTable) (f : HeaderField) :
    (t.addEntry f).added = t.added + 1 := by
  simp [added, addEntry, len, Nat.add_assoc]

@[simp] theorem added_evictOldest (t : HeaderFieldTable) (hn : n ≤ t.len) :
    (t.evictOldest n hn).added = t.added := by
  have hlen : (t.evictOldest n hn).len = t.len - n := List.length_drop
  rw [added, hlen, added]
  show t.evictCount + n + (t.len - n) = t.evictCount + t.len
  omega

/-- A table panics only with an `evictCount` that does not fit 64 bits. -/
def Counted (t : HeaderFieldTable) : Prop := t.panicked = true → 2 ^ 64 ≤ t.evictCount

theorem Counted.evictOldest (h : t.Counted) (hn : n ≤ t.len) : (t.evictOldest n hn).Counted := by
  intro hpanicked
  rcases Bool.or_eq_true_iff.mp hpanicked with hbefore | hnow
  · exact (h hbefore).trans (Nat.le_add_right ..)
  · exact of_decide_eq_true hnow

theorem Counted.not_panicked (h : t.Counted) (hlt : t.added < 2 ^ 64) : t.panicked = false := by
  by_contra hpanicked
  have hle := h (Bool.of_not_eq_false hpanicked)
  rw [added] at hlt
  omega

theorem ents_foldl_addEntry (t : HeaderFieldTable) (fs : List HeaderField) :
    (fs.foldl addEntry t).ents = t.ents ++ fs := by
  induction fs generalizing t with
  | nil => exact (List.append_nil _).symm
  | cons f fs ih =>
    rw [List.foldl_cons, ih]
    simp [addEntry]

theorem Indexed.foldl_addEntry (h : t.Indexed) (fs : List HeaderField) :
    (fs.foldl HeaderFieldTable.addEntry t).Indexed := by
  induction fs generalizing t with
  | nil => exact h
  | cons f fs ih => exact ih (h.addEntry f)

/-- The HPACK index of an entry, from what stands before and behind it. -/
def indexOf (isStatic : Bool) (old new : List HeaderField) : Nat :=
  if isStatic then old.length + 1 else new.length + 1

/-- What `search` can find. -/
inductive Found (t : HeaderFieldTable) (isStatic : Bool) (f : HeaderField) : Nat → Bool → Prop where
  /-- The newest entry with the name and the value. -/
  | field {old g new} : f.sensitive = false → t.ents = old ++ g :: new → g.pair = f.pair →
      (∀ g' ∈ new, g'.pair ≠ f.pair) → Found t isStatic f (indexOf isStatic old new) true
  /-- The newest entry with the name. The value is in no entry, or it is not looked for. -/
  | name {old g new} : (f.sensitive = true ∨ ∀ g' ∈ t.ents, g'.pair ≠ f.pair) →
      t.ents = old ++ g :: new → g.name = f.name → (∀ g' ∈ new, g'.name ≠ f.name) →
      Found t isStatic f (indexOf isStatic old new) false
  /-- No entry has the name. -/
  | nothing : (∀ g' ∈ t.ents, g'.name ≠ f.name) → Found t isStatic f 0 false

theorem idToIndex_of_newest {κ : Type} [DecidableEq κ] {key : HeaderField → κ} {x : κ} {id : Nat}
    (h : newest key x t.evictCount t.ents = some id) (isStatic : Bool) :
    id ≠ 0 ∧ ∃ old g new, t.ents = old ++ g :: new ∧ key g = x ∧ (∀ g' ∈ new, key g' ≠ x) ∧
      t.idToIndex isStatic id = some (indexOf isStatic old new) := by
  obtain ⟨old, g, new, hents, rfl, hg, hnew⟩ := newest_eq_some h
  refine ⟨Nat.succ_ne_zero _, old, g, new, hents, hg, hnew, ?_⟩
  have hk : t.evictCount + old.length + 1 - t.evictCount - 1 = old.length := by omega
  have hlen : t.len - old.length = new.length + 1 := by
    rw [len, hents, List.length_append, List.length_cons]
    omega
  rw [idToIndex, if_neg (by omega)]
  simp only [hk, hlen, indexOf]
  cases isStatic <;> rfl

/-- A search does not panic, and finds the newest entry. -/
theorem Indexed.search (h : t.Indexed) (isStatic : Bool) (f : HeaderField) :
    ∃ i m, t.search isStatic f = some (i, m) ∧ t.Found isStatic f i m := by
  -- The entry with the name and the value, or why there is none.
  have hpair : (∃ id, (if f.sensitive then 0 else (t.byNameValue.lookup f.pair).getD 0) = id ∧
        id ≠ 0 ∧ f.sensitive = false ∧ t.byNameValue.lookup f.pair = some id) ∨
      (if f.sensitive then 0 else (t.byNameValue.lookup f.pair).getD 0) = 0 ∧
        (f.sensitive = true ∨ ∀ g' ∈ t.ents, g'.pair ≠ f.pair) := by
    cases hs : f.sensitive with
    | true => exact .inr ⟨rfl, .inl rfl⟩
    | false =>
      cases hlook : t.byNameValue.lookup f.pair with
      | none => exact .inr ⟨rfl, .inr (newest_eq_none.mp ((h.pairs _).symm.trans hlook))⟩
      | some id =>
        have hid := (idToIndex_of_newest ((h.pairs _).symm.trans hlook) isStatic).1
        exact .inl ⟨id, rfl, hid, rfl, rfl⟩
  rw [HeaderFieldTable.search]
  obtain ⟨id, hid, hne, hs, hlook⟩ | ⟨hzero, hno⟩ := hpair
  · obtain ⟨-, old, g, new, hents, hg, hnew, hindex⟩ :=
      idToIndex_of_newest ((h.pairs _).symm.trans hlook) isStatic
    refine ⟨_, _, ?_, .field hs hents hg hnew⟩
    simp only [hid, hne, ne_eq, not_false_eq_true, if_true, hindex, Option.map_some]
  · simp only [hzero, ne_eq, not_true_eq_false, if_false]
    cases hlook : t.byName.lookup f.name with
    | none => exact ⟨0, false, rfl, .nothing (newest_eq_none.mp ((h.names _).symm.trans hlook))⟩
    | some id =>
      obtain ⟨hid, old, g, new, hents, hg, hnew, hindex⟩ :=
        idToIndex_of_newest ((h.names _).symm.trans hlook) isStatic
      refine ⟨_, _, ?_, .name hno hents hg hnew⟩
      simp only [Option.getD_some, hid, not_false_eq_true, if_true, hindex, Option.map_some]

end HeaderFieldTable

theorem indexed_staticTable : staticTable.Indexed :=
  HeaderFieldTable.indexed_empty.foldl_addEntry staticTableEntries

theorem ents_staticTable : staticTable.ents = staticTableEntries :=
  HeaderFieldTable.ents_foldl_addEntry .empty staticTableEntries

theorem len_staticTable : staticTable.len = 61 := by
  rfl

/-! ### The bound of a dynamic table -/

/-- The size of an entry as a number. -/
def fieldSize (f : HeaderField) : Nat := f.size.toNat

/-- The size of an entry, not cut to 32 bits. -/
def realSize (f : HeaderField) : Nat := f.name.length + f.value.length + 32

theorem fieldSize_eq_realSize (h : realSize f < 2 ^ 32) : fieldSize f = realSize f := by
  exact Nat.mod_eq_of_lt h

theorem toNat_sub_size (h : size.toNat = weight fieldSize (f :: fs)) :
    (size - f.size).toNat = weight fieldSize fs := by
  have hle : f.size ≤ size := UInt32.le_iff_toNat_le.mpr (h ▸ Nat.le_add_right ..)
  rw [UInt32.toNat_sub_of_le _ _ hle, h]
  exact Nat.add_sub_cancel_left ..

/-- The loop of `evict` drops what `trim` drops, when the size is right. -/
theorem evictLoop_eq_trim (maxSize : UInt32) (h : size.toNat = weight fieldSize fs) :
    fs.drop (evictLoop maxSize size fs).2 = trim fieldSize maxSize.toNat fs ∧
      (evictLoop maxSize size fs).1.toNat = weight fieldSize (trim fieldSize maxSize.toNat fs) := by
  induction fs generalizing size with
  | nil => exact ⟨rfl, h⟩
  | cons f fs ih =>
    rw [evictLoop, trim, ← h]
    simp only [UInt32.lt_iff_toNat_lt]
    split
    · exact ih (toNat_sub_size h)
    · exact ⟨rfl, h⟩

/-- The loop of `evict` stops within the bound, and keeps the size up to a multiple of `2 ^ 32`. -/
theorem evictLoop_mod {maxSize : UInt32} (h : size.toNat = weight fieldSize fs % 2 ^ 32) :
    (evictLoop maxSize size fs).1 ≤ maxSize ∧
      (evictLoop maxSize size fs).1.toNat
        = weight fieldSize (fs.drop (evictLoop maxSize size fs).2) % 2 ^ 32 := by
  induction fs generalizing size with
  | nil =>
    refine ⟨UInt32.le_iff_toNat_le.mpr ?_, h⟩
    rw [evictLoop, h]
    exact Nat.zero_le _
  | cons f fs ih =>
    rw [evictLoop]
    split
    · refine ih ?_
      rw [weight_cons, ← Nat.mod_add_mod, Nat.add_comm] at h
      rw [UInt32.toNat_sub, h]
      have hf : fieldSize f < 2 ^ 32 := f.size.toNat_lt
      rw [fieldSize] at hf ⊢
      omega
    · rename_i hle
      exact ⟨UInt32.not_lt.mp hle, h⟩

namespace DynamicTable

/-- What holds of every dynamic table. The size is that of the entries as far as 32 bits go. -/
structure Bounded (dt : DynamicTable) : Prop where
  indexed : dt.table.Indexed
  counted : dt.table.Counted
  size_eq : dt.size.toNat = weight fieldSize dt.table.ents % 2 ^ 32
  size_le : dt.size ≤ dt.maxSize

theorem bounded_evict (hindexed : dt.table.Indexed) (hcounted : dt.table.Counted)
    (hsize : dt.size.toNat = weight fieldSize dt.table.ents % 2 ^ 32) : dt.evict.Bounded where
  indexed := hindexed.evictOldest (evictLoop_le ..)
  counted := hcounted.evictOldest (evictLoop_le ..)
  size_eq := (evictLoop_mod hsize).2
  size_le := (evictLoop_mod hsize).1

theorem bounded_empty (allowed v : UInt32) : (setMaxSize ⟨.empty, 0, 0, allowed⟩ v).Bounded :=
  bounded_evict HeaderFieldTable.indexed_empty nofun rfl

theorem Bounded.setMaxSize (h : dt.Bounded) (v : UInt32) :
    (dt.setMaxSize v).Bounded := bounded_evict h.indexed h.counted h.size_eq

theorem Bounded.add (h : dt.Bounded) (f : HeaderField) : (dt.add f).Bounded := by
  refine bounded_evict (h.indexed.addEntry f) h.counted ?_
  show (dt.size + f.size).toNat = weight fieldSize (dt.table.ents ++ [f]) % 2 ^ 32
  rw [UInt32.toNat_add, h.size_eq, weight_append, weight_cons, weight_nil, Nat.mod_add_mod]
  rfl

/-- A new bound adds no entry. -/
@[simp] theorem added_setMaxSize (dt : DynamicTable) (v : UInt32) :
    (dt.setMaxSize v).table.added = dt.table.added :=
  HeaderFieldTable.added_evictOldest dt.table (evictLoop_le ..)

@[simp] theorem added_add (dt : DynamicTable) (f : HeaderField) :
    (dt.add f).table.added = dt.table.added + 1 :=
  (HeaderFieldTable.added_evictOldest (dt.table.addEntry f) (evictLoop_le ..)).trans
    (HeaderFieldTable.added_addEntry dt.table f)

theorem mem_setMaxSize {v : UInt32} (h : g ∈ (dt.setMaxSize v).table.ents) :
    g ∈ dt.table.ents := List.mem_of_mem_drop h

theorem mem_add (h : g ∈ (dt.add f).table.ents) : g ∈ dt.table.ents ∨ g = f := by
  rcases List.mem_append.mp (List.mem_of_mem_drop h) with hold | hnew
  · exact .inl hold
  · exact .inr (List.mem_singleton.mp hnew)

/-- The size is that of the entries. -/
structure Exact (dt : DynamicTable) : Prop extends dt.Bounded where
  exact : dt.size.toNat = weight fieldSize dt.table.ents

theorem Exact.weight_le (h : dt.Exact) : weight fieldSize dt.table.ents ≤ dt.maxSize.toNat :=
  h.exact ▸ UInt32.le_iff_toNat_le.mp h.size_le

theorem Exact.setMaxSize (h : dt.Exact) (v : UInt32) :
    (dt.setMaxSize v).Exact ∧
      (dt.setMaxSize v).table.ents = trim fieldSize v.toNat dt.table.ents := by
  have hloop := evictLoop_eq_trim v h.exact
  exact ⟨⟨h.toBounded.setMaxSize v, hloop.2.trans (congrArg _ hloop.1.symm)⟩, hloop.1⟩

theorem Exact.add (h : dt.Exact) (hf : dt.maxSize.toNat + fieldSize f < 2 ^ 32) :
    (dt.add f).Exact ∧
      (dt.add f).table.ents = trim fieldSize dt.maxSize.toNat (dt.table.ents ++ [f]) := by
  have hsize : (dt.size + f.size).toNat = weight fieldSize (dt.table.ents ++ [f]) := by
    have hle := h.weight_le
    rw [weight_append, weight_cons, weight_nil, UInt32.toNat_add, h.exact]
    exact Nat.mod_eq_of_lt (by rw [fieldSize] at hf; omega)
  have hloop := evictLoop_eq_trim dt.maxSize hsize
  exact ⟨⟨h.toBounded.add f, hloop.2.trans (congrArg _ hloop.1.symm)⟩, hloop.1⟩

theorem exact_empty (allowed v : UInt32) : (setMaxSize ⟨.empty, 0, 0, allowed⟩ v).Exact :=
  ⟨bounded_empty allowed v, rfl⟩

end DynamicTable

end IstioVendor.Hpack
