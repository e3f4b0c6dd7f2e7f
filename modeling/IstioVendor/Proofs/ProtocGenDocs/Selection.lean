import Mathlib.Algebra.Order.BigOperators.Group.List
import Mathlib.Algebra.Order.Group.Nat
import IstioVendor.Lib.Simulation
import IstioVendor.Lib.Writes
import IstioVendor.ProtocGenDocs.HtmlGenerator

/-!
# `IstioVendor.Proofs.ProtocGenDocs.Selection`: the types of a page

The types on a page should be those of the files to generate and those that can be reached from
them over the types of fields, as long as these types have no place on the web (`Reaches`).
`includeUnsituatedDependencies` does not go on with the type it has added. It goes on with the
message it came from, so it adds the types of the fields of this message only, and a second call
finds nothing new to add.

`Absorbed` says what it does to the maps of types, and `selects_of_collectTypes` what the maps
are in the end: under each name, the last message of the files, or else the first type of a
field. `handsOver_iff` compares this with what should be on the page.
-/

set_option autoImplicit false

namespace IstioVendor.ProtocGenDocs

open Lib

/-! ### The messages and enums of a file -/

/-- A message is in a file, at any depth. -/
inductive FileDescriptor.HasMessage (f : FileDescriptor) : MessageDescriptor → Prop where
  | top {m : MessageDescriptor} (mem : m ∈ f.messages) : f.HasMessage m
  | nested {m n : MessageDescriptor} (outer : f.HasMessage m) (mem : n ∈ m.messages) :
      f.HasMessage n

/-- An enum is in a file, at any depth. -/
def FileDescriptor.HasEnum (f : FileDescriptor) (e : EnumDescriptor) : Prop :=
  e ∈ f.enums ∨ ∃ m, f.HasMessage m ∧ e ∈ m.enums

/-- The nested messages of a message are smaller. -/
theorem MessageDescriptor.induct {p : MessageDescriptor → Prop}
    (step : ∀ m : MessageDescriptor, (∀ n ∈ m.messages, p n) → p m) (m : MessageDescriptor) :
    p m := by
  apply step
  intro n hn
  have hlt : sizeOf n < sizeOf m := by
    have hlist := List.sizeOf_lt_of_mem hn
    cases m
    dsimp only at hlist
    rw [MessageDescriptor.mk.sizeOf_spec]
    omega
  exact MessageDescriptor.induct step n
termination_by sizeOf m

theorem nestedMessagesOf_eq (ms : List MessageDescriptor) :
    nestedMessagesOf ms = ms.flatMap MessageDescriptor.nestedMessages := by
  induction ms with
  | nil => rfl
  | cons m ms ih => rw [nestedMessagesOf, ih, List.flatMap_cons]

theorem nestedEnumsOf_eq (ms : List MessageDescriptor) :
    nestedEnumsOf ms = ms.flatMap MessageDescriptor.nestedEnums := by
  induction ms with
  | nil => rfl
  | cons m ms ih => rw [nestedEnumsOf, ih, List.flatMap_cons]

variable {m x : MessageDescriptor} {e : EnumDescriptor} {f : FileDescriptor} {k : Bytes}

theorem mem_nestedMessages :
    x ∈ m.nestedMessages ↔ x ∈ m.messages ∨ ∃ n ∈ m.messages, x ∈ n.nestedMessages := by
  cases m
  rw [MessageDescriptor.nestedMessages, List.mem_append, nestedMessagesOf_eq, List.mem_flatMap]

theorem mem_nestedEnums :
    e ∈ m.nestedEnums ↔ e ∈ m.enums ∨ ∃ n ∈ m.messages, e ∈ n.nestedEnums := by
  cases m
  rw [MessageDescriptor.nestedEnums, List.mem_append, nestedEnumsOf_eq, List.mem_flatMap, or_comm]

/-- What is nested in a nested message is nested. -/
theorem nestedMessages_trans {y : MessageDescriptor} (hx : x ∈ m.nestedMessages)
    (hy : y ∈ x.messages) : y ∈ m.nestedMessages := by
  induction m using MessageDescriptor.induct with
  | step m ih =>
    rw [mem_nestedMessages] at hx ⊢
    rcases hx with hx | ⟨n, hn, hx⟩
    · exact .inr ⟨x, hx, mem_nestedMessages.mpr (.inl hy)⟩
    · exact .inr ⟨n, hn, ih n hn hx⟩

theorem hasMessage_of_nested (hm : f.HasMessage m) (hx : x ∈ m.nestedMessages) :
    f.HasMessage x := by
  induction m using MessageDescriptor.induct with
  | step m ih =>
    rcases mem_nestedMessages.mp hx with hx | ⟨n, hn, hx⟩
    · exact .nested hm hx
    · exact ih n hn (.nested hm hn) hx

theorem nestedEnums_iff :
    e ∈ m.nestedEnums ↔ e ∈ m.enums ∨ ∃ x ∈ m.nestedMessages, e ∈ x.enums := by
  induction m using MessageDescriptor.induct with
  | step m ih =>
    rw [mem_nestedEnums]
    refine or_congr_right ⟨?_, ?_⟩
    · rintro ⟨n, hn, he⟩
      rcases (ih n hn).mp he with he | ⟨x, hx, he⟩
      · exact ⟨n, mem_nestedMessages.mpr (.inl hn), he⟩
      · exact ⟨x, mem_nestedMessages.mpr (.inr ⟨n, hn, hx⟩), he⟩
    · rintro ⟨x, hx, he⟩
      rcases mem_nestedMessages.mp hx with hx | ⟨n, hn, hx⟩
      · exact ⟨x, hx, (ih x hx).mpr (.inl he)⟩
      · exact ⟨n, hn, (ih n hn).mpr (.inr ⟨x, hx, he⟩)⟩

namespace FileDescriptor

variable {f : FileDescriptor}

/-- `allMessages` has the messages of a file at any depth. -/
theorem mem_allMessages : m ∈ f.allMessages ↔ f.HasMessage m := by
  rw [allMessages, nestedMessagesOf_eq, List.mem_append, List.mem_flatMap]
  constructor
  · rintro (hm | ⟨n, hn, hm⟩)
    · exact .top hm
    · exact hasMessage_of_nested (.top hn) hm
  · intro h
    induction h with
    | top mem => exact .inl mem
    | @nested m n outer mem ih =>
      rcases ih with hm | ⟨x, hx, hm⟩
      · exact .inr ⟨m, hm, mem_nestedMessages.mpr (.inl mem)⟩
      · exact .inr ⟨x, hx, nestedMessages_trans hm mem⟩

/-- `allEnums` has the enums of a file at any depth. -/
theorem mem_allEnums : e ∈ f.allEnums ↔ f.HasEnum e := by
  rw [allEnums, nestedEnumsOf_eq, List.mem_append, List.mem_flatMap, or_comm, HasEnum]
  refine or_congr_right ⟨?_, ?_⟩
  · rintro ⟨m, hm, he⟩
    rcases nestedEnums_iff.mp he with he | ⟨x, hx, he⟩
    · exact ⟨m, .top hm, he⟩
    · exact ⟨x, hasMessage_of_nested (.top hm) hx, he⟩
  · rintro ⟨m, hm, he⟩
    have hall := mem_allMessages.mpr hm
    rw [allMessages, nestedMessagesOf_eq, List.mem_append, List.mem_flatMap] at hall
    rcases hall with hm | ⟨n, hn, hm⟩
    · exact ⟨m, hm, nestedEnums_iff.mpr (.inl he)⟩
    · exact ⟨n, hn, nestedEnums_iff.mpr (.inr ⟨m, hm, he⟩)⟩

end FileDescriptor

/-! ### The types of fields -/

namespace Generator

/-- The message that is the type of a field, if its package has no place on the web. -/
def fieldMessage (g : Generator) (field : FieldDescriptor) : Option MessageDescriptor :=
  match g.model.typ field with
  | some (.message m) => if m.packageDesc.homeLocation = [] then some m else none
  | _ => none

/-- The enum that is the type of a field, if its package has no place on the web. -/
def fieldEnum (g : Generator) (field : FieldDescriptor) : Option EnumDescriptor :=
  match g.model.typ field with
  | some (.enum e) => if e.packageDesc.homeLocation = [] then some e else none
  | _ => none

/-- The name of a message on the page. -/
def messageName (g : Generator) (m : MessageDescriptor) : Bytes := g.relativeName m.toBaseDesc

/-- The name of an enum on the page. -/
def enumName (g : Generator) (e : EnumDescriptor) : Bytes := g.relativeName e.toBaseDesc

/-- The name of a service on the page. -/
def serviceName (g : Generator) (s : ServiceDescriptor) : Bytes := g.relativeName s.toBaseDesc

/-- One pass of the loop of `includeUnsituatedDependencies`. `again` is the recursive call. -/
def includeField (g : Generator) (again : Types → Option Types) (types : Types)
    (field : FieldDescriptor) : Option Types :=
  match g.fieldMessage field with
  | some m =>
    if (types.messages.lookup (g.messageName m)).isNone then
      again { types with messages := types.messages.insert (g.messageName m) m }
    else some types
  | none => some ((g.fieldEnum field).elim types (g.addEnum types))

theorem includeUnsituatedDependencies_succ (g : Generator) (depth : Nat) (types : Types)
    (msg : MessageDescriptor) :
    g.includeUnsituatedDependencies (depth + 1) types msg
      = msg.fields.foldlM
          (g.includeField fun types => g.includeUnsituatedDependencies depth types msg) types := by
  rw [includeUnsituatedDependencies]
  congr 1
  funext types field
  unfold includeField fieldMessage fieldEnum
  cases g.model.typ field with
  | none => rfl
  | some o =>
    cases o with
    | message m => by_cases h : m.packageDesc.homeLocation = [] <;> simp [h, messageName]
    | enum e => by_cases h : e.packageDesc.homeLocation = [] <;> simp [h, addEnum]
    | field | enumValue | service | method => rfl

/-- The messages without a place on the web among the types of fields. -/
def messageTypes (g : Generator) (fields : List FieldDescriptor) : List MessageDescriptor :=
  fields.filterMap g.fieldMessage

/-- The enums without a place on the web among the types of fields. -/
def enumTypes (g : Generator) (fields : List FieldDescriptor) : List EnumDescriptor :=
  fields.filterMap g.fieldEnum

/-- What `includeUnsituatedDependencies` does for a message with these fields. A message is added
if its name is new, and an enum in any case. -/
structure Absorbed (g : Generator) (fields : List FieldDescriptor) (before after : Types) :
    Prop where
  messages : ∀ k, after.messages.lookup k
    = (before.messages.lookup k).or (firstNamed g.messageName k (g.messageTypes fields))
  enums : ∀ k, after.enums.lookup k
    = (firstNamed g.enumName k (g.enumTypes fields).reverse).or (before.enums.lookup k)
  services : after.services = before.services

/-- The state of the loop when the fields `rest` are still to come. -/
structure Absorbing (g : Generator) (fields rest : List FieldDescriptor) (before now : Types) :
    Prop where
  grows : ∀ k m, before.messages.lookup k = some m → now.messages.lookup k = some m
  messages : ∀ k, (now.messages.lookup k).or (firstNamed g.messageName k (g.messageTypes rest))
    = (before.messages.lookup k).or (firstNamed g.messageName k (g.messageTypes fields))
  enums : ∀ k, (firstNamed g.enumName k (g.enumTypes rest).reverse).or (now.enums.lookup k)
    = (firstNamed g.enumName k (g.enumTypes fields).reverse).or (before.enums.lookup k)
  services : now.services = before.services

section
variable {g : Generator} {field : FieldDescriptor} {fields pre rest : List FieldDescriptor}
  {before now after : Types} {again : Types → Option Types}

theorem includeField_other (hm : g.fieldMessage field = none) :
    g.includeField again now field = some ((g.fieldEnum field).elim now (g.addEnum now)) := by
  rw [includeField, hm]

theorem includeField_message (hm : g.fieldMessage field = some m) :
    g.includeField again now field
      = if (now.messages.lookup (g.messageName m)).isNone then
          again { now with messages := now.messages.insert (g.messageName m) m }
        else some now := by
  rw [includeField, hm]

theorem fieldEnum_of_fieldMessage (h : g.fieldMessage field = some m) :
    g.fieldEnum field = none := by
  unfold fieldMessage at h
  unfold fieldEnum
  cases htyp : g.model.typ field with
  | none => rfl
  | some o =>
    rw [htyp] at h
    cases o with
    | enum e => cases h
    | message | field | enumValue | service | method => rfl

theorem lookup_addEnum (g : Generator) (types : Types) (e : EnumDescriptor) (k : Bytes) :
    (g.addEnum types e).enums.lookup k
      = if g.enumName e = k then some e else types.enums.lookup k :=
  lookup_insert_eq types.enums (g.enumName e) k e

/-- The enums of later fields are written last. -/
theorem firstNamed_enumTypes_append (k : Bytes) (pre rest : List FieldDescriptor) :
    firstNamed g.enumName k (g.enumTypes (pre ++ rest)).reverse
      = (firstNamed g.enumName k (g.enumTypes rest).reverse).or
        (firstNamed g.enumName k (g.enumTypes pre).reverse) := by
  rw [enumTypes, List.filterMap_append, List.reverse_append, firstNamed_append]
  rfl

namespace Absorbing

theorem before_eq_none (h : Absorbing g fields rest before now)
    (hnow : now.messages.lookup k = none) : before.messages.lookup k = none := by
  cases hbefore : before.messages.lookup k with
  | none => rfl
  | some m => cases hnow.symm.trans (h.grows k m hbefore)

theorem start : Absorbing g fields fields before before :=
  ⟨fun _ _ h => h, fun _ => rfl, fun _ => rfl, rfl⟩

theorem absorbed (h : Absorbing g fields [] before after) : Absorbed g fields before after := by
  refine ⟨fun k => ?_, fun k => ?_, h.services⟩
  · simpa [messageTypes] using h.messages k
  · simpa [enumTypes] using h.enums k

/-- A message whose name is there already. -/
theorem present (h : Absorbing g fields (field :: rest) before now)
    (hm : g.fieldMessage field = some m) (hthere : (now.messages.lookup (g.messageName m)).isSome) :
    Absorbing g fields rest before now := by
  refine ⟨h.grows, fun k => ?_, fun k => ?_, h.services⟩
  · rw [← h.messages k, messageTypes, messageTypes, List.filterMap_cons_some hm, firstNamed_cons]
    by_cases hk : g.messageName m = k
    · obtain ⟨m', hm'⟩ := Option.isSome_iff_exists.mp (hk ▸ hthere)
      rw [hm', Option.some_or, Option.some_or]
    · rw [if_neg hk]
  · rw [← h.enums k, enumTypes, enumTypes, List.filterMap_cons_none (fieldEnum_of_fieldMessage hm)]

/-- A message whose name is new. The recursive call has added all that is still to come. -/
theorem recursed (hsplit : fields = pre ++ field :: rest)
    (h : Absorbing g fields (field :: rest) before now) (hm : g.fieldMessage field = some m)
    (hnew : now.messages.lookup (g.messageName m) = none)
    (hagain : Absorbed g fields { now with messages := now.messages.insert (g.messageName m) m }
      after) : Absorbing g fields rest before after := by
  have hmessages := fun k => (hagain.messages k).trans
    (congrArg (Option.or · _) (lookup_insert_eq now.messages (g.messageName m) k m))
  have hsame : g.enumTypes (field :: rest) = g.enumTypes rest :=
    List.filterMap_cons_none (fieldEnum_of_fieldMessage hm)
  refine ⟨fun k m' hk => ?_, fun k => ?_, fun k => ?_, hagain.services.trans h.services⟩
  · have hnow := h.grows k m' hk
    have hne : g.messageName m ≠ k := by
      rintro rfl
      rw [hnew] at hnow
      cases hnow
    rw [hmessages, if_neg hne, hnow, Option.some_or]
  · have hk := h.messages k
    rw [messageTypes, List.filterMap_cons_some hm, firstNamed_cons] at hk
    rw [hmessages]
    by_cases hname : g.messageName m = k
    · subst hname
      rw [hnew, if_pos rfl] at hk
      rw [if_pos rfl, ← hk]
      rfl
    · rw [if_neg hname] at hk ⊢
      cases hnow : now.messages.lookup k with
      | some m' =>
        rw [← hk, hnow]
        rfl
      | none =>
        rw [hnow, h.before_eq_none hnow, Option.none_or, Option.none_or] at hk
        rw [h.before_eq_none hnow, Option.none_or, ← hk, messageTypes, Option.or_self]
  · have hk := h.enums k
    have hall := firstNamed_enumTypes_append (g := g) k pre (field :: rest)
    rw [← hsplit, hsame] at hall
    rw [hsame, hall] at hk
    rw [hagain.enums k, hall]
    -- The recursive call wrote all enums, those of `rest` last.
    cases hrest : firstNamed g.enumName k (g.enumTypes rest).reverse with
    | some e => rfl
    | none =>
      rw [hrest, Option.none_or, Option.none_or] at hk
      rw [Option.none_or, Option.none_or, hk, ← Option.or_assoc, Option.or_self]

/-- A field whose type is not added as a message. -/
theorem other (h : Absorbing g fields (field :: rest) before now)
    (hm : g.fieldMessage field = none) :
    Absorbing g fields rest before ((g.fieldEnum field).elim now (g.addEnum now)) := by
  have hsame : g.messageTypes (field :: rest) = g.messageTypes rest :=
    List.filterMap_cons_none hm
  cases he : g.fieldEnum field with
  | none =>
    have hsame' : g.enumTypes (field :: rest) = g.enumTypes rest :=
      List.filterMap_cons_none he
    exact ⟨h.grows, hsame ▸ h.messages, hsame' ▸ h.enums, h.services⟩
  | some e =>
    refine ⟨h.grows, hsame ▸ h.messages, fun k => ?_, h.services⟩
    rw [← h.enums k, enumTypes, enumTypes, List.filterMap_cons_some he, List.reverse_cons,
      firstNamed_append, Option.or_assoc, firstNamed_cons, Option.elim_some, lookup_addEnum]
    split_ifs <;> rfl

end Absorbing

/-- The loop over the fields. Induction on the fields that are still to come. The number of
names that are not in the map bounds the depth of the recursive call. -/
theorem exists_absorbed {n : Nat}
    (hagain : ∀ st, missing g.messageName st.messages (g.messageTypes fields) < n →
      ∃ st', again st = some st' ∧ Absorbed g fields st st')
    (hsplit : fields = pre ++ rest) (h : Absorbing g fields rest before now)
    (hn : missing g.messageName before.messages (g.messageTypes fields) ≤ n) :
    ∃ after, rest.foldlM (g.includeField again) now = some after ∧
      Absorbed g fields before after := by
  induction rest generalizing pre now with
  | nil => exact ⟨now, rfl, h.absorbed⟩
  | cons field rest ih =>
    have hnext : fields = (pre ++ [field]) ++ rest := by rw [hsplit]; simp
    rw [List.foldlM_cons]
    cases hm : g.fieldMessage field with
    | none =>
      obtain ⟨after, hafter, habsorbed⟩ := ih hnext (h.other hm)
      exact ⟨after, by rw [includeField_other hm]; exact hafter, habsorbed⟩
    | some m =>
      cases hthere : now.messages.lookup (g.messageName m) with
      | some m' =>
        obtain ⟨after, hafter, habsorbed⟩ := ih hnext (h.present hm (by rw [hthere]; rfl))
        refine ⟨after, ?_, habsorbed⟩
        rw [includeField_message hm, hthere]
        exact hafter
      | none =>
        have hmem : m ∈ g.messageTypes fields := by
          rw [hsplit]
          exact List.mem_filterMap.mpr ⟨field, by simp, hm⟩
        -- The message is put into the map before its fields are visited.
        have hlt := (missing_insert_lt (v := m) hmem hthere).trans_le
          ((missing_le_missing h.grows).trans hn)
        obtain ⟨st, hst, hstep⟩ := hagain
          { now with messages := now.messages.insert (g.messageName m) m } hlt
        obtain ⟨after, hafter, habsorbed⟩ := ih hnext (h.recursed hsplit hm hthere hstep)
        refine ⟨after, ?_, habsorbed⟩
        rw [includeField_message hm, hthere]
        exact Option.bind_eq_some_iff.mpr ⟨st, hst, hafter⟩

end

section
variable {g : Generator} {types types' : Types} {msg : MessageDescriptor} {depth : Nat}

/-- The recursion ends, on cyclic types as well: each call adds a name. -/
theorem exists_includeUnsituatedDependencies
    (hdepth : missing g.messageName types.messages (g.messageTypes msg.fields) < depth) :
    ∃ types', g.includeUnsituatedDependencies depth types msg = some types' ∧
      Absorbed g msg.fields types types' := by
  induction depth generalizing types with
  | zero => omega
  | succ depth ih =>
    rw [includeUnsituatedDependencies_succ]
    have hsplit : msg.fields = [] ++ msg.fields := rfl
    exact exists_absorbed (fun st hst => ih hst) hsplit .start (Nat.lt_succ_iff.mp hdepth)

/-- A greater depth gives the same types. -/
theorem includeUnsituatedDependencies_mono {depth' : Nat} (hle : depth ≤ depth')
    (h : g.includeUnsituatedDependencies depth types msg = some types') :
    g.includeUnsituatedDependencies depth' types msg = some types' := by
  induction depth generalizing types types' depth' with
  | zero => cases h
  | succ depth ih =>
    obtain ⟨depth', rfl⟩ := Nat.exists_eq_add_of_le' (Nat.one_le_of_lt hle)
    rw [includeUnsituatedDependencies_succ] at h ⊢
    refine foldlM_imp (fun st field st' hst => ?_) h
    cases hm : g.fieldMessage field with
    | none =>
      rw [includeField_other hm] at hst ⊢
      exact hst
    | some m =>
      rw [includeField_message hm] at hst ⊢
      split_ifs at hst ⊢ with hnew
      · exact ih (Nat.le_of_succ_le_succ hle) hst
      · exact hst

theorem absorbed_of_includeUnsituatedDependencies
    (h : g.includeUnsituatedDependencies depth types msg = some types') :
    Absorbed g msg.fields types types' := by
  obtain ⟨enough, hle, hlt⟩ : ∃ enough, depth ≤ enough ∧
      missing g.messageName types.messages (g.messageTypes msg.fields) < enough :=
    ⟨max depth (missing g.messageName types.messages (g.messageTypes msg.fields) + 1),
      le_max_left _ _, Nat.lt_of_succ_le (le_max_right _ _)⟩
  obtain ⟨types'', htypes'', habsorbed⟩ := exists_includeUnsituatedDependencies hlt
  have hsame := includeUnsituatedDependencies_mono hle h
  cases hsame.symm.trans htypes''
  exact habsorbed

end

/-! ### All types of a page -/

/-- The messages and enums that were written, in the order in which they were written, and the
maps that this leaves. `roots` are the messages of the files, `deps` the types of their fields. -/
structure Holds (g : Generator) (roots deps : List MessageDescriptor)
    (enums : List EnumDescriptor) (services : List ServiceDescriptor) (types : Types) : Prop where
  messages : ∀ k, types.messages.lookup k
    = (firstNamed g.messageName k roots.reverse).or (firstNamed g.messageName k deps)
  enums : ∀ k, types.enums.lookup k = firstNamed g.enumName k enums.reverse
  services : ∀ k, types.services.lookup k = firstNamed g.serviceName k services.reverse

/-- The types of the fields of some messages. -/
def messageTypesOf (g : Generator) (ms : List MessageDescriptor) : List MessageDescriptor :=
  ms.flatMap fun m => g.messageTypes m.fields

def enumTypesOf (g : Generator) (ms : List MessageDescriptor) : List EnumDescriptor :=
  ms.flatMap fun m => g.enumTypes m.fields

/-- The enums that are written for a file. -/
def enumsOf (g : Generator) (f : FileDescriptor) : List EnumDescriptor :=
  g.enumTypesOf f.allMessages ++ f.allEnums

namespace Holds

variable {g : Generator} {roots deps : List MessageDescriptor} {enums : List EnumDescriptor}
  {services : List ServiceDescriptor} {types types' : Types} {depth : Nat}

section
variable (h : Holds g roots deps enums services types)
include h

theorem addMessage (hadd : g.addMessage depth types m = some types') :
    Holds g (roots ++ [m]) (deps ++ g.messageTypes m.fields) (enums ++ g.enumTypes m.fields)
      services types' := by
  have habsorbed := absorbed_of_includeUnsituatedDependencies hadd
  refine ⟨fun k => ?_, fun k => ?_, fun k => ?_⟩
  · have hinsert := lookup_insert_eq types.messages (g.messageName m) k m
    rw [habsorbed.messages k, List.reverse_concat, firstNamed_cons, firstNamed_append,
      ← Option.or_assoc]
    refine congrArg (Option.or · _) (hinsert.trans ?_)
    rw [h.messages k]
    split_ifs <;> rfl
  · rw [habsorbed.enums k, List.reverse_append, firstNamed_append]
    exact congrArg _ (h.enums k)
  · rw [habsorbed.services]
    exact h.services k

theorem addMessages {ms : List MessageDescriptor}
    (hadd : ms.foldlM (g.addMessage depth) types = some types') :
    Holds g (roots ++ ms) (deps ++ g.messageTypesOf ms) (enums ++ g.enumTypesOf ms) services
      types' := by
  induction ms generalizing roots deps enums types with
  | nil =>
    cases hadd
    simpa [messageTypesOf, enumTypesOf] using h
  | cons m ms ih =>
    obtain ⟨types₁, hm, hrest⟩ := Option.bind_eq_some_iff.mp hadd
    have hall := ih (h.addMessage hm) hrest
    simpa [messageTypesOf, enumTypesOf] using hall

theorem addEnums {es : List EnumDescriptor} :
    Holds g roots deps (enums ++ es) services (es.foldl g.addEnum types) := by
  induction es generalizing enums types with
  | nil => simpa using h
  | cons e es ih =>
    have hone : Holds g roots deps (enums ++ [e]) services (g.addEnum types e) := by
      refine ⟨h.messages, fun k => ?_, h.services⟩
      rw [lookup_addEnum, List.reverse_concat, firstNamed_cons, h.enums k]
    simpa using ih hone

theorem addServices {ss : List ServiceDescriptor} :
    Holds g roots deps enums (services ++ ss) (ss.foldl g.addService types) := by
  induction ss generalizing services types with
  | nil => simpa using h
  | cons s ss ih =>
    have hone : Holds g roots deps enums (services ++ [s]) (g.addService types s) := by
      refine ⟨h.messages, h.enums, fun k => ?_⟩
      have hinsert := lookup_insert_eq types.services (g.serviceName s) k s
      rw [List.reverse_concat, firstNamed_cons, ← h.services k]
      exact hinsert
    simpa using ih hone

theorem addFile (hadd : g.addFile depth types f = some types') :
    Holds g (roots ++ f.allMessages) (deps ++ g.messageTypesOf f.allMessages)
      (enums ++ g.enumsOf f) (services ++ f.services) types' := by
  obtain ⟨types₁, hmessages, ⟨⟩⟩ := Option.bind_eq_some_iff.mp hadd
  rw [enumsOf, ← List.append_assoc]
  exact (h.addMessages hmessages).addEnums.addServices

theorem addFiles {files : List FileDescriptor}
    (hadd : files.foldlM (g.addFile depth) types = some types') :
    Holds g (roots ++ files.flatMap FileDescriptor.allMessages)
      (deps ++ g.messageTypesOf (files.flatMap FileDescriptor.allMessages))
      (enums ++ files.flatMap g.enumsOf) (services ++ files.flatMap FileDescriptor.services)
      types' := by
  induction files generalizing roots deps enums services types with
  | nil =>
    cases hadd
    simpa [messageTypesOf] using h
  | cons f files ih =>
    obtain ⟨types₁, hf, hrest⟩ := Option.bind_eq_some_iff.mp hadd
    have hall := ih (h.addFile hf) hrest
    simpa [messageTypesOf] using hall

end

end Holds

/-- The messages of all files to generate. -/
def rootMessages (files : List FileDescriptor) : List MessageDescriptor :=
  files.flatMap FileDescriptor.allMessages

/-- The messages selected for a page. Of those with the same name, the first one is kept. -/
def selectedMessages (g : Generator) (files : List FileDescriptor) : List MessageDescriptor :=
  (rootMessages files).reverse ++ g.messageTypesOf (rootMessages files)

/-- The enums selected for a page. Of those with the same name, the first one is kept. -/
def selectedEnums (g : Generator) (files : List FileDescriptor) : List EnumDescriptor :=
  (files.flatMap g.enumsOf).reverse

/-- The services selected for a page. Of those with the same name, the first one is kept. -/
def selectedServices (files : List FileDescriptor) : List ServiceDescriptor :=
  (files.flatMap FileDescriptor.services).reverse

/-- The maps have, under each name, the first thing that is selected with this name. -/
structure Selects (g : Generator) (files : List FileDescriptor) (types : Types) : Prop where
  messages : ∀ k, types.messages.lookup k = firstNamed g.messageName k (g.selectedMessages files)
  enums : ∀ k, types.enums.lookup k = firstNamed g.enumName k (g.selectedEnums files)
  services : ∀ k, types.services.lookup k = firstNamed g.serviceName k (selectedServices files)

section
variable {g : Generator} {files : List FileDescriptor} {types : Types} {depth : Nat}

theorem selects_of_collectTypes (h : g.collectTypes depth files = some types) :
    g.Selects files types := by
  have hempty : Holds g [] [] [] [] ⟨∅, ∅, ∅⟩ := ⟨fun _ => rfl, fun _ => rfl, fun _ => rfl⟩
  have hall := hempty.addFiles h
  simp only [List.nil_append] at hall
  refine ⟨fun k => ?_, hall.enums, hall.services⟩
  rw [hall.messages k, selectedMessages, firstNamed_append]
  rfl

theorem collectTypes_mono {depth' : Nat} (hle : depth ≤ depth')
    (h : g.collectTypes depth files = some types) : g.collectTypes depth' files = some types := by
  refine foldlM_imp (fun st f st' hst => ?_) h
  obtain ⟨st₁, hmessages, hrest⟩ := Option.bind_eq_some_iff.mp hst
  refine Option.bind_eq_some_iff.mpr ⟨st₁, foldlM_imp (fun st m st' hm => ?_) hmessages, hrest⟩
  exact includeUnsituatedDependencies_mono hle hm

/-- The types are collected when no message has as many fields as the depth. -/
theorem exists_collectTypes (hdepth : ∀ m ∈ rootMessages files, m.fields.length < depth) :
    ∃ types, g.collectTypes depth files = some types := by
  refine exists_foldlM (fun st f hf => ?_) _
  have hmessages : ∃ st', f.allMessages.foldlM (g.addMessage depth) st = some st' := by
    refine exists_foldlM (fun st m hm => ?_) st
    have hlength := hdepth m (List.mem_flatMap.mpr ⟨f, hf, hm⟩)
    have htypes : (g.messageTypes m.fields).length ≤ m.fields.length :=
      List.length_filterMap_le _ _
    obtain ⟨st', hst', -⟩ := exists_includeUnsituatedDependencies
      ((List.countP_le_length.trans htypes).trans_lt hlength)
    exact ⟨st', hst'⟩
  obtain ⟨st', hst'⟩ := hmessages
  exact ⟨_, Option.bind_eq_some_iff.mpr ⟨st', hst', rfl⟩⟩

/-- The types are collected, whatever cycles there are, and do not depend on the depth. -/
theorem collectTypes_ends (g : Generator) (files : List FileDescriptor) :
    ∃ types n, ∀ depth, n ≤ depth → g.collectTypes depth files = some types := by
  obtain ⟨n, hn⟩ : ∃ n, ∀ m ∈ rootMessages files, m.fields.length < n := by
    refine ⟨((rootMessages files).map fun m => m.fields.length).sum + 1, fun m hm => ?_⟩
    exact Nat.lt_succ_of_le (List.single_le_sum (by simp) _ (List.mem_map_of_mem hm))
  obtain ⟨types, htypes⟩ := exists_collectTypes (g := g) hn
  exact ⟨types, n, fun depth hle => collectTypes_mono hle htypes⟩

end

/-! ### What should be on a page -/

/-- The messages that should be on a page: those of the files, and those that are reached over the
types of fields, each of them without a place on the web. -/
inductive Reaches (g : Generator) (files : List FileDescriptor) : MessageDescriptor → Prop where
  | root {f : FileDescriptor} {m : MessageDescriptor} (file : f ∈ files) (has : f.HasMessage m) :
      g.Reaches files m
  | field {m n : MessageDescriptor} {field : FieldDescriptor} (before : g.Reaches files m)
      (mem : field ∈ m.fields) (type : g.fieldMessage field = some n) : g.Reaches files n

/-- The enums that should be on a page. -/
def ReachesEnum (g : Generator) (files : List FileDescriptor) (e : EnumDescriptor) : Prop :=
  (∃ f ∈ files, f.HasEnum e) ∨
    ∃ m, g.Reaches files m ∧ ∃ field ∈ m.fields, g.fieldEnum field = some e

/-- The maps have what should be on the page. -/
structure HandsOver (g : Generator) (files : List FileDescriptor) (types : Types) : Prop where
  messages : ∀ m, (∃ k, types.messages.lookup k = some m) ↔ g.Reaches files m
  enums : ∀ e, (∃ k, types.enums.lookup k = some e) ↔ g.ReachesEnum files e

/-- The types of the files and of their fields have different names, and are closed: the types of
their fields are among them. -/
structure OneStep (g : Generator) (files : List FileDescriptor) : Prop where
  message_names : ∀ m ∈ g.selectedMessages files, ∀ n ∈ g.selectedMessages files,
    g.messageName m = g.messageName n → m = n
  enum_names : ∀ e ∈ g.selectedEnums files, ∀ e' ∈ g.selectedEnums files,
    g.enumName e = g.enumName e' → e = e'
  messages_closed : ∀ m ∈ g.selectedMessages files, ∀ n ∈ g.messageTypes m.fields,
    n ∈ g.selectedMessages files
  enums_closed : ∀ m ∈ g.selectedMessages files, ∀ e ∈ g.enumTypes m.fields,
    e ∈ g.selectedEnums files

section
variable {g : Generator} {files : List FileDescriptor} {types : Types}

theorem mem_rootMessages : m ∈ rootMessages files ↔ ∃ f ∈ files, f.HasMessage m := by
  simp only [rootMessages, List.mem_flatMap, FileDescriptor.mem_allMessages]

theorem mem_selectedMessages :
    m ∈ g.selectedMessages files ↔
      m ∈ rootMessages files ∨ ∃ r ∈ rootMessages files, m ∈ g.messageTypes r.fields := by
  rw [selectedMessages, List.mem_append, List.mem_reverse, messageTypesOf, List.mem_flatMap]

theorem mem_selectedEnums :
    e ∈ g.selectedEnums files ↔
      (∃ f ∈ files, f.HasEnum e) ∨ ∃ r ∈ rootMessages files, e ∈ g.enumTypes r.fields := by
  simp only [selectedEnums, List.mem_reverse, List.mem_flatMap, enumsOf, List.mem_append,
    enumTypesOf, FileDescriptor.mem_allEnums, rootMessages]
  constructor
  · rintro ⟨f, hf, ⟨r, hr, he⟩ | he⟩
    · exact .inr ⟨r, ⟨f, hf, hr⟩, he⟩
    · exact .inl ⟨f, hf, he⟩
  · rintro (⟨f, hf, he⟩ | ⟨r, ⟨f, hf, hr⟩, he⟩)
    · exact ⟨f, hf, .inr he⟩
    · exact ⟨f, hf, .inl ⟨r, hr, he⟩⟩

theorem reaches_of_root (h : m ∈ rootMessages files) : g.Reaches files m := by
  obtain ⟨f, hf, hm⟩ := mem_rootMessages.mp h
  exact .root hf hm

theorem Reaches.messageTypes {n : MessageDescriptor} (h : g.Reaches files m)
    (hn : n ∈ g.messageTypes m.fields) : g.Reaches files n := by
  obtain ⟨field, hfield, htype⟩ := List.mem_filterMap.mp hn
  exact .field h hfield htype

theorem Reaches.enumTypes (h : g.Reaches files m) (he : e ∈ g.enumTypes m.fields) :
    g.ReachesEnum files e :=
  .inr ⟨m, h, List.mem_filterMap.mp he⟩

/-- What is selected should be on the page. -/
theorem reaches_of_selected (h : m ∈ g.selectedMessages files) : g.Reaches files m := by
  rcases mem_selectedMessages.mp h with hm | ⟨r, hr, hm⟩
  · exact reaches_of_root hm
  · exact (reaches_of_root hr).messageTypes hm

theorem reachesEnum_of_selected (h : e ∈ g.selectedEnums files) : g.ReachesEnum files e := by
  rcases mem_selectedEnums.mp h with he | ⟨r, hr, he⟩
  · exact .inl he
  · exact (reaches_of_root hr).enumTypes he

/-- In a closed selection nothing else should be on the page. -/
theorem OneStep.selected (h : g.OneStep files) (hm : g.Reaches files m) :
    m ∈ g.selectedMessages files := by
  induction hm with
  | root file has => exact mem_selectedMessages.mpr (.inl (mem_rootMessages.mpr ⟨_, file, has⟩))
  | field _ mem type ih =>
    exact h.messages_closed _ ih _ (List.mem_filterMap.mpr ⟨_, mem, type⟩)

theorem OneStep.selectedEnum (h : g.OneStep files) (he : g.ReachesEnum files e) :
    e ∈ g.selectedEnums files := by
  rcases he with he | ⟨m, hm, he⟩
  · exact mem_selectedEnums.mpr (.inl he)
  · exact h.enums_closed m (h.selected hm) e (List.mem_filterMap.mpr he)

section
variable (h : g.Selects files types)
include h

theorem Selects.messageName_eq (hm : types.messages.lookup k = some m) : g.messageName m = k :=
  name_of_firstNamed ((h.messages k).symm.trans hm)

theorem Selects.enumName_eq (he : types.enums.lookup k = some e) : g.enumName e = k :=
  name_of_firstNamed ((h.enums k).symm.trans he)

theorem Selects.serviceName_eq {s : ServiceDescriptor} (hs : types.services.lookup k = some s) :
    g.serviceName s = k :=
  name_of_firstNamed ((h.services k).symm.trans hs)

theorem Selects.message_kept :
    (∃ k, types.messages.lookup k = some m) ↔
      firstNamed g.messageName (g.messageName m) (g.selectedMessages files) = some m := by
  simp only [h.messages]
  exact exists_firstNamed_iff

theorem Selects.enum_kept :
    (∃ k, types.enums.lookup k = some e) ↔
      firstNamed g.enumName (g.enumName e) (g.selectedEnums files) = some e := by
  simp only [h.enums]
  exact exists_firstNamed_iff

theorem Selects.handsOver (hone : g.OneStep files) : g.HandsOver files types := by
  constructor
  · intro m
    rw [h.message_kept]
    constructor
    · intro hm
      exact reaches_of_selected (mem_of_firstNamed hm)
    · intro hm
      exact firstNamed_self_iff.mpr hone.message_names m (hone.selected hm)
  · intro e
    rw [h.enum_kept]
    constructor
    · intro he
      exact reachesEnum_of_selected (mem_of_firstNamed he)
    · intro he
      exact firstNamed_self_iff.mpr hone.enum_names e (hone.selectedEnum he)

theorem Selects.oneStep (hover : g.HandsOver files types) : g.OneStep files := by
  have hmessages : ∀ m, g.Reaches files m →
      firstNamed g.messageName (g.messageName m) (g.selectedMessages files) = some m :=
    fun m hm => h.message_kept.mp ((hover.messages m).mpr hm)
  have henums : ∀ e, g.ReachesEnum files e →
      firstNamed g.enumName (g.enumName e) (g.selectedEnums files) = some e :=
    fun e he => h.enum_kept.mp ((hover.enums e).mpr he)
  refine ⟨?_, ?_, fun m hm n hn => ?_, fun m hm e he => ?_⟩
  · exact firstNamed_self_iff.mp fun m hm => hmessages m (reaches_of_selected hm)
  · exact firstNamed_self_iff.mp fun e he => henums e (reachesEnum_of_selected he)
  · exact mem_of_firstNamed (hmessages n ((reaches_of_selected hm).messageTypes hn))
  · exact mem_of_firstNamed (henums e ((reaches_of_selected hm).enumTypes he))

end

end

/-- The types of a page are collected, whatever cycles there are. They are what should be on the
page exactly when the types of the files and of their fields have different names and are
closed. -/
theorem handsOver_iff (g : Generator) (filesToGen : FileDescriptor → Bool)
    (pkg : PackageDescriptor) :
    ∃ types n,
      (∀ depth, n ≤ depth →
        (g.enter pkg).collectTypes depth (pkg.files.filter filesToGen) = some types) ∧
      ((g.enter pkg).HandsOver (pkg.files.filter filesToGen) types ↔
        (g.enter pkg).OneStep (pkg.files.filter filesToGen)) := by
  obtain ⟨types, n, hends⟩ := collectTypes_ends (g.enter pkg) (pkg.files.filter filesToGen)
  have hselects := selects_of_collectTypes (hends n le_rfl)
  exact ⟨types, n, hends, hselects.oneStep, hselects.handsOver⟩

end Generator

/-! ### A chain of two steps -/

/-- A package with its place on the web. -/
def Package.placed (name homeLocation : String) : Package where
  name := ascii name
  title := []
  overview := []
  homeLocation := ascii homeLocation
  frontMatter := []
  loc := none

/-- A file with the package clause of its package. -/
def File.ofPackage (pkg : Package) (fileName : String) : File where
  fileName := ascii fileName
  package := pkg.name
  parent := pkg

/-- A descriptor without a comment. -/
def BaseDesc.bare (file : File) (qualifiedName : List String) : BaseDesc where
  loc := none
  hidden := false
  cl := []
  file := file
  qualifiedName := qualifiedName.map ascii

/-- A field of a message type. -/
def FieldDescriptor.ofMessage (base : BaseDesc) (typeName : String) : FieldDescriptor where
  toBaseDesc := base
  name := base.qualifiedName.getLastD []
  type := .message
  typeName := ascii typeName
  isRepeated := false
  oneofIndex := none
  isDeprecated := false

/-- A message with these fields, and nothing in it. -/
def MessageDescriptor.flat (base : BaseDesc) (fields : List FieldDescriptor) :
    MessageDescriptor where
  toBaseDesc := base
  mapEntry := false
  fields := fields
  messages := []
  enums := []

namespace Chain

def pkgA : Package := .placed "a" "a.html"
def pkgB : Package := .placed "b" ""
def fileA : File := .ofPackage pkgA "a.proto"
def fileB : File := .ofPackage pkgB "b.proto"

/-- `a.A` has a field of the type `b.B`, and this one a field of the type `b.C`. -/
def a : PackageDescriptor where
  toPackage := pkgA
  files := [⟨fileA, [.flat (.bare fileA ["A"]) [.ofMessage (.bare fileA ["A", "b"]) ".b.B"]],
    [], []⟩]

def b : PackageDescriptor where
  toPackage := pkgB
  files := [⟨fileB, [.flat (.bare fileB ["B"]) [.ofMessage (.bare fileB ["B", "c"]) ".b.C"],
    .flat (.bare fileB ["C"]) []], [], []⟩]

def generator : Generator := ⟨.ofPackages [a, b], .htmlPage, [], pkgA, false⟩

end Chain

open Chain in
/-- A message that is two steps away from the file to generate is not on the page. -/
theorem chain_not_followed :
    ∃ types, generator.collectTypes 2 a.files = some types ∧
      ¬ generator.HandsOver a.files types := by
  have hsome : (generator.collectTypes 2 a.files).isSome := by decide +kernel
  obtain ⟨types, htypes⟩ := Option.isSome_iff_exists.mp hsome
  refine ⟨types, htypes, fun hover => ?_⟩
  have hreach : a.files.any (fun f => f.messages.any fun m => m.fields.any fun fb =>
      (generator.fieldMessage fb).any fun mb => mb.fields.any fun fc =>
        (generator.fieldMessage fc).any fun mc => mc.qualifiedName = [ascii "C"]) = true := by
    decide +kernel
  simp only [List.any_eq_true, Option.any_eq_true, decide_eq_true_eq] at hreach
  obtain ⟨f, hf, m, hm, fb, hfb, mb, hmb, fc, hfc, mc, hmc, hname⟩ := hreach
  have hreaches : generator.Reaches a.files mc :=
    .field (.field (.root hf (.top hm)) hfb hmb) hfc hmc
  have hkept := (Generator.selects_of_collectTypes htypes).message_kept.mp
    ((hover.messages mc).mpr hreaches)
  have hnames : (generator.selectedMessages a.files).map (fun m => m.qualifiedName)
      = [[ascii "A"], [ascii "B"]] := by
    decide +kernel
  have hmem := List.mem_map_of_mem (f := fun m : MessageDescriptor => m.qualifiedName)
    (mem_of_firstNamed hkept)
  rw [hnames, hname] at hmem
  exact absurd hmem (by decide +kernel)

end IstioVendor.ProtocGenDocs
