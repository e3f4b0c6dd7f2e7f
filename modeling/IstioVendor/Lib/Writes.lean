import Mathlib.Data.List.AList

/-!
# `IstioVendor.Lib.Writes`: maps that are filled under names

Things with names are written into a map, each one under its name, and a write under a name
replaces an earlier one (`lookup_insert_eq`). `firstNamed` is the first thing with a name in a
list. With it the map is read off the list of the writes, the last one first. Nothing is lost
exactly when different things have different names (`firstNamed_self_iff`).
-/

set_option autoImplicit false

namespace IstioVendor.Lib

variable {α κ ν : Type} [DecidableEq κ]

/-- The first thing in a list that has the name `k`. -/
def firstNamed (name : α → κ) (k : κ) (xs : List α) : Option α := xs.find? fun x => name x = k

section
variable {name : α → κ} {k : κ} {xs ys : List α} {x : α}

@[simp] theorem firstNamed_nil : firstNamed name k [] = none := rfl

theorem firstNamed_cons :
    firstNamed name k (x :: xs) = if name x = k then some x else firstNamed name k xs := by
  by_cases h : name x = k <;> simp [firstNamed, h]

@[simp] theorem firstNamed_append :
    firstNamed name k (xs ++ ys) = (firstNamed name k xs).or (firstNamed name k ys) :=
  List.find?_append

theorem mem_of_firstNamed (h : firstNamed name k xs = some x) : x ∈ xs :=
  List.mem_of_find?_eq_some h

theorem name_of_firstNamed (h : firstNamed name k xs = some x) : name x = k := by
  simpa using List.find?_some h

theorem firstNamed_eq_none : firstNamed name k xs = none ↔ ∀ x ∈ xs, name x ≠ k := by
  simp [firstNamed]

theorem exists_firstNamed (name : α → κ) (h : x ∈ xs) :
    ∃ y, firstNamed name (name x) xs = some y := by
  cases hfirst : firstNamed name (name x) xs with
  | none => exact absurd rfl (firstNamed_eq_none.mp hfirst x h)
  | some y => exact ⟨y, rfl⟩

/-- A thing is kept under some name exactly when it is the first one of its own. -/
theorem exists_firstNamed_iff :
    (∃ k, firstNamed name k xs = some x) ↔ firstNamed name (name x) xs = some x := by
  refine ⟨fun ⟨k, h⟩ => ?_, fun h => ⟨name x, h⟩⟩
  rwa [name_of_firstNamed h]

/-- Every thing is the first one of its name exactly when no two things share a name. -/
theorem firstNamed_self_iff :
    (∀ x ∈ xs, firstNamed name (name x) xs = some x) ↔
      ∀ x ∈ xs, ∀ y ∈ xs, name x = name y → x = y := by
  constructor
  · intro h x hx y hy hname
    have hfirst := h x hx
    rw [hname, h y hy] at hfirst
    exact (Option.some.inj hfirst).symm
  · intro h x hx
    obtain ⟨y, hy⟩ := exists_firstNamed name hx
    rw [hy, h y (mem_of_firstNamed hy) x hx (name_of_firstNamed hy)]

end

theorem lookup_insert_eq (m : AList fun _ : κ => ν) (k k' : κ) (v : ν) :
    (m.insert k v).lookup k' = if k = k' then some v else m.lookup k' := by
  by_cases h : k = k'
  · rw [if_pos h, ← h]
    exact AList.lookup_insert m
  · rw [if_neg h]
    exact AList.lookup_insert_ne fun h' => h h'.symm

/-- The map that a list of writes leaves: the last one under a name counts. -/
theorem lookup_foldl_insert (es : List (κ × ν)) (m : AList fun _ : κ => ν) (k : κ) :
    (es.foldl (fun m e => m.insert e.1 e.2) m).lookup k
      = ((firstNamed Prod.fst k es.reverse).map Prod.snd).or (m.lookup k) := by
  induction es generalizing m with
  | nil => rfl
  | cons e es ih =>
    rw [List.foldl_cons, ih, lookup_insert_eq, List.reverse_cons, firstNamed_append,
      firstNamed_cons, firstNamed_nil]
    cases firstNamed Prod.fst k es.reverse with
    | none => split_ifs <;> simp
    | some e' => simp

/-- Without a name that is written twice, the order of the writes does not matter. -/
theorem lookup_writes_congr {es es' : List (κ × ν)} (hmem : ∀ e, e ∈ es ↔ e ∈ es')
    (hunique : ∀ e ∈ es, ∀ e' ∈ es, e.1 = e'.1 → e = e') (k : κ) :
    (es.foldl (fun m e => m.insert e.1 e.2) (∅ : AList fun _ : κ => ν)).lookup k
      = (es'.foldl (fun m e => m.insert e.1 e.2) (∅ : AList fun _ : κ => ν)).lookup k := by
  rw [lookup_foldl_insert, lookup_foldl_insert]
  have hfirst : firstNamed Prod.fst k es.reverse = firstNamed Prod.fst k es'.reverse := by
    cases h : firstNamed Prod.fst k es.reverse with
    | none =>
      refine (firstNamed_eq_none.mpr fun e he => ?_).symm
      exact firstNamed_eq_none.mp h e
        (List.mem_reverse.mpr ((hmem e).mpr (List.mem_reverse.mp he)))
    | some e =>
      have he := List.mem_reverse.mp (mem_of_firstNamed h)
      obtain rfl := name_of_firstNamed h
      obtain ⟨e', he'⟩ := exists_firstNamed Prod.fst (List.mem_reverse.mpr ((hmem e).mp he))
      have hin := (hmem e').mpr (List.mem_reverse.mp (mem_of_firstNamed he'))
      rw [he', hunique e he e' hin (name_of_firstNamed he').symm]
  rw [hfirst]

/-! ### Names without repetitions -/

/-- A name of a list without repetitions comes from one thing. -/
theorem eq_of_nodup_flatMap {β : Type} {xs : List α} {names : α → List β}
    (h : (xs.flatMap names).Nodup) {x x' : α} (hx : x ∈ xs) (hx' : x' ∈ xs) {y : β}
    (hy : y ∈ names x) (hy' : y ∈ names x') : x = x' := by
  by_contra hne
  have hsymm : Std.Symm (Function.onFun List.Disjoint names) :=
    ⟨fun _ _ hdisjoint _ hmem hmem' => hdisjoint hmem' hmem⟩
  exact (List.nodup_flatMap.mp h).2.forall hx hx' hne hy hy'

/-! ### Names that are not in a map -/

section
variable {ν : Type} {name : α → κ} {m m' : AList fun _ : κ => ν} {xs : List α}

/-- The number of things whose names a map does not have. -/
def missing (name : α → κ) (m : AList fun _ : κ => ν) (xs : List α) : Nat :=
  xs.countP fun x => (m.lookup (name x)).isNone

theorem missing_le_missing (h : ∀ k v, m.lookup k = some v → m'.lookup k = some v) :
    missing name m' xs ≤ missing name m xs := by
  refine List.countP_mono_left fun x _ hx => ?_
  cases hm : m.lookup (name x) with
  | none => rfl
  | some v => simp [h _ v hm] at hx

/-- A write under a new name lowers the number. -/
theorem missing_insert_lt {x : α} {v : ν} (hx : x ∈ xs) (hm : m.lookup (name x) = none) :
    missing name (m.insert (name x) v) xs < missing name m xs := by
  have hle : ∀ ys, missing name (m.insert (name x) v) ys ≤ missing name m ys := by
    intro ys
    refine missing_le_missing fun k w hk => ?_
    have hne : name x ≠ k := by
      rintro rfl
      rw [hm] at hk
      cases hk
    rw [lookup_insert_eq, if_neg hne, hk]
  obtain ⟨pre, post, rfl⟩ := List.append_of_mem hx
  have hpre := hle pre
  have hpost := hle post
  simp only [missing, List.countP_append, List.countP_cons] at hpre hpost ⊢
  rw [lookup_insert_eq, if_pos rfl, hm]
  simp only [Option.isNone_some, Option.isNone_none, if_true, Bool.false_eq_true, if_false]
  omega

end

end IstioVendor.Lib
