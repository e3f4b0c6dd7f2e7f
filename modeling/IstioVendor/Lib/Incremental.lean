import IstioVendor.Lib.Lines

/-!
# `IstioVendor.Lib.Incremental`: readers of a text that comes in pieces

A reader takes an item from the front of the text, or fails. Some errors say that the text is too
short (`more`). A reader is `Local` when what it does depends on the bytes that it takes: more text
behind them changes neither the item nor any other error. Local readers compose (`Local.bind`).

`drain` reads item after item until the text is empty or there is an error. When the items are read
by a local reader, the items of a text that comes in two pieces are those of the whole text
(`drain_append_of_ok`, `drain_append_of_more`, `drain_append_of_fail`).
-/

set_option autoImplicit false

namespace IstioVendor.Lib

variable {σ ε δ α β : Type} {x : Except ε α} {e : ε} {a : α} {f : ε → δ} {buf rest : Bytes}
  {k : α × Bytes → Except ε (β × Bytes)} {s : σ}

theorem except_bind_eq_ok {f : α → Except ε β} {b : β} :
    x >>= f = .ok b ↔ ∃ a, x = .ok a ∧ f a = .ok b := by
  cases x with
  | error e => exact ⟨nofun, nofun⟩
  | ok a => exact ⟨fun h => ⟨a, rfl, h⟩, fun ⟨_, ha, h⟩ => Except.ok.inj ha ▸ h⟩

theorem except_bind_eq_error {f : α → Except ε β} :
    x >>= f = .error e ↔ x = .error e ∨ ∃ a, x = .ok a ∧ f a = .error e := by
  cases x with
  | error e' =>
    exact ⟨fun h => .inl (congrArg _ (Except.error.inj h)), fun h =>
      congrArg Except.error (Except.error.inj (h.resolve_right nofun))⟩
  | ok a => exact ⟨fun h => .inr ⟨a, rfl, h⟩, fun h => by
    obtain ⟨_, ha, h⟩ := h.resolve_left nofun
    exact Except.ok.inj ha ▸ h⟩

theorem except_mapError_eq_ok : x.mapError f = .ok a ↔ x = .ok a := by
  cases x with
  | error e => exact ⟨nofun, nofun⟩
  | ok b =>
    exact ⟨fun h => congrArg _ (Except.ok.inj h), fun h => congrArg _ (Except.ok.inj h)⟩

theorem except_mapError_eq_error {e : δ} :
    x.mapError f = .error e ↔ ∃ e', x = .error e' ∧ f e' = e := by
  cases x with
  | error e' => exact ⟨fun h => ⟨e', rfl, Except.error.inj h⟩, fun ⟨_, h, he⟩ => by
    rw [Except.error.inj h, ← he]
    rfl⟩
  | ok a => exact ⟨nofun, nofun⟩

/-- A reader of the front of a text. It gives the item and the rest. -/
abbrev Reader (ε α : Type) := Bytes → Except ε (α × Bytes)

/-- What the reader does depends on what it takes only. -/
structure Local (more : ε → Prop) (r : Reader ε α) : Prop where
  ok : ∀ {buf a rest}, r buf = .ok (a, rest) →
    ∃ used, buf = used ++ rest ∧ ∀ q, r (used ++ q) = .ok (a, q)
  fail : ∀ {buf e}, r buf = .error e → ¬ more e → ∀ q, r (buf ++ q) = .error e

/-- The reader takes some text for an item. -/
def Shrinks (r : Reader ε α) : Prop :=
  ∀ buf a rest, r buf = .ok (a, rest) → rest.length < buf.length

variable {r' : Reader ε α}

namespace Local

variable {more : ε → Prop} {r : Reader ε α}

theorem append (h : Local more r) (hr : r buf = .ok (a, rest)) (q : Bytes) :
    r (buf ++ q) = .ok (a, rest ++ q) := by
  obtain ⟨used, rfl, hused⟩ := h.ok hr
  rw [List.append_assoc]
  exact hused (rest ++ q)

/-- A text that is cut short is not an item, and no error either. -/
theorem more_of_cut (h : Local more r) {p c : Bytes} (hr : r (p ++ c) = .ok (a, [])) (hc : c ≠ []) :
    ∃ e, more e ∧ r p = .error e := by
  cases hp : r p with
  | ok out =>
    have hwhole : Except.ok (out.1, out.2 ++ c) = Except.ok (a, []) :=
      (h.append hp c).symm.trans hr
    have hrest : out.2 ++ c = [] := congrArg Prod.snd (Except.ok.inj hwhole)
    exact absurd hrest (List.append_ne_nil_of_right_ne_nil _ hc)
  | error e =>
    refine ⟨e, ?_, rfl⟩
    by_contra hmore
    rw [h.fail hp hmore c] at hr
    cases hr

theorem length_le (h : Local more r) (hr : r buf = .ok (a, rest)) : rest.length ≤ buf.length := by
  obtain ⟨used, rfl, -⟩ := h.ok hr
  rw [List.length_append]
  exact Nat.le_add_left ..

theorem pure (a : α) : Local more fun buf => .ok (a, buf) where
  ok := fun h => by
    cases h
    exact ⟨[], rfl, fun q => rfl⟩
  fail := fun h => by cases h

theorem throw (e : ε) : Local (α := α) more fun _ => .error e where
  ok := fun h => by cases h
  fail := fun h _ _ => h

theorem bind (hr : Local more r) (hk : ∀ a, Local more fun buf => k (a, buf)) :
    Local more fun buf => r buf >>= k where
  ok := fun {buf b rest} h => by
    cases hbuf : r buf with
    | error e => rw [hbuf] at h; cases h
    | ok p =>
      obtain ⟨a, mid⟩ := p
      rw [hbuf] at h
      obtain ⟨used, rfl, hused⟩ := hr.ok hbuf
      obtain ⟨used', rfl, hused'⟩ := (hk a).ok h
      refine ⟨used ++ used', (List.append_assoc ..).symm, fun q => ?_⟩
      rw [List.append_assoc, hused]
      exact hused' q
  fail := fun {buf e} h hmore q => by
    cases hbuf : r buf with
    | error e' =>
      rw [hbuf] at h
      cases h
      rw [hr.fail hbuf hmore q]
      rfl
    | ok p =>
      obtain ⟨a, mid⟩ := p
      rw [hbuf] at h
      rw [hr.append hbuf q]
      exact (hk a).fail h hmore q

theorem ite {c : Prop} [Decidable c] (hr : Local more r) (hr' : Local more r') :
    Local more fun buf => if c then r buf else r' buf := by
  by_cases hc : c
  · simpa only [if_pos hc] using hr
  · simpa only [if_neg hc] using hr'

/-- A step that does not look at the text. -/
theorem lift {k : α → Reader ε β} (hk : ∀ a, Local more (k a)) :
    Local more fun buf => x >>= fun a => k a buf := by
  cases x with
  | error e => exact throw e
  | ok a => exact hk a

/-- The first byte. -/
theorem uncons (he : more e) {k : UInt8 → Reader ε α} (hk : ∀ b, Local more (k b)) :
    Local more fun
      | [] => .error e
      | b :: p => k b p where
  ok := fun {buf a rest} h => by
    cases buf with
    | nil => cases h
    | cons b p =>
      obtain ⟨used, rfl, hused⟩ := (hk b).ok h
      exact ⟨b :: used, rfl, hused⟩
  fail := fun {buf e'} h hmore q => by
    cases buf with
    | nil =>
      cases h
      exact absurd he hmore
    | cons b p => exact (hk b).fail h hmore q

/-- A look at the first byte, by a reader that takes it. -/
theorem peek (he : more e) {k : UInt8 → Reader ε α} (hk : ∀ b, Local more (k b))
    (hlt : ∀ b, Shrinks (k b)) : Local more fun
      | [] => .error e
      | b :: p => k b (b :: p) where
  ok := fun {buf a rest} h => by
    cases buf with
    | nil => cases h
    | cons b p =>
      obtain ⟨used, hsplit, hused⟩ := (hk b).ok h
      have hlen := hlt b _ _ _ h
      cases used with
      | nil => exact absurd hlen (by rw [hsplit]; exact Nat.lt_irrefl _)
      | cons b' used =>
        cases hsplit
        exact ⟨b :: used, rfl, hused⟩
  fail := fun {buf e'} h hmore q => by
    cases buf with
    | nil =>
      cases h
      exact absurd he hmore
    | cons b p => exact (hk b).fail h hmore q

/-- The first `n` bytes. -/
theorem take (he : more e) (n : Nat) {k : Bytes → Reader ε α} (hk : ∀ s, Local more (k s)) :
    Local more fun p => if p.length < n then .error e else k (p.take n) (p.drop n) where
  ok := fun {buf a rest} h => by
    by_cases hlt : buf.length < n
    · rw [if_pos hlt] at h
      cases h
    · rw [if_neg hlt] at h
      obtain ⟨used, hsplit, hused⟩ := (hk _).ok h
      have hlen : (buf.take n).length = n := List.length_take_of_le (Nat.le_of_not_lt hlt)
      refine ⟨buf.take n ++ used, ?_, fun q => ?_⟩
      · rw [List.append_assoc, ← hsplit, List.take_append_drop]
      · rw [List.append_assoc, if_neg (by rw [List.length_append, hlen]; omega),
          List.take_left' hlen, List.drop_left' hlen]
        exact hused q
  fail := fun {buf e'} h hmore q => by
    by_cases hlt : buf.length < n
    · rw [if_pos hlt] at h
      cases h
      exact absurd he hmore
    · rw [if_neg hlt] at h
      have hle : n ≤ buf.length := Nat.le_of_not_lt hlt
      rw [if_neg (by rw [List.length_append]; omega), List.take_append_of_le_length hle,
        List.drop_append_of_le_length hle]
      exact (hk _).fail h hmore q

/-- The errors can be given with more data. -/
theorem mapError {more' : δ → Prop} (h : Local more r) (hf : ∀ e, more e → more' (f e)) :
    Local more' fun buf => (r buf).mapError f where
  ok := fun {buf a rest} hok => by
    cases hbuf : r buf with
    | error e => rw [hbuf] at hok; cases hok
    | ok p =>
      rw [hbuf] at hok
      cases hok
      obtain ⟨used, hbuf', hused⟩ := h.ok hbuf
      exact ⟨used, hbuf', fun q => by rw [hused]; rfl⟩
  fail := fun {buf e} herr hmore q => by
    cases hbuf : r buf with
    | error e' =>
      rw [hbuf] at herr
      cases herr
      rw [h.fail hbuf (fun hm => hmore (hf e' hm)) q]
      rfl
    | ok p => rw [hbuf] at herr; cases herr

end Local

section
variable {more : ε → Prop} {r : Reader ε α}

theorem Shrinks.bind (hr : Shrinks r) (hk : ∀ a, Local more fun buf => k (a, buf)) :
    Shrinks fun buf => r buf >>= k := by
  intro buf b rest h
  beta_reduce at h
  cases hbuf : r buf with
  | error e => rw [hbuf] at h; cases h
  | ok p =>
    rw [hbuf] at h
    exact Nat.lt_of_le_of_lt ((hk p.1).length_le h) (hr _ _ _ hbuf)

theorem Shrinks.ite {c : Prop} [Decidable c] (hr : Shrinks r) (hr' : Shrinks r') :
    Shrinks fun buf => if c then r buf else r' buf := by
  by_cases hc : c
  · simpa only [if_pos hc] using hr
  · simpa only [if_neg hc] using hr'

theorem shrinks_throw (e : ε) : Shrinks (α := α) fun _ => .error e := fun _ _ _ h => by cases h

theorem Shrinks.mapError (h : Shrinks r) : Shrinks fun buf => (r buf).mapError f := by
  intro buf a rest hok
  beta_reduce at hok
  cases hbuf : r buf with
  | error e => rw [hbuf] at hok; cases hok
  | ok p =>
    rw [hbuf] at hok
    cases hok
    exact h _ _ _ hbuf

end

/-! ### Item after item -/

/-- Reads item after item with a state. An error is given with the text in front of which it
stands. -/
def drain (parse : σ → Reader ε σ) : Nat → σ → Bytes → Except (ε × Bytes) σ
  | 0, s, _ => .ok s
  | _ + 1, s, [] => .ok s
  | fuel + 1, s, b :: buf =>
    match parse s (b :: buf) with
    | .ok (s', rest) => drain parse fuel s' rest
    | .error e => .error (e, b :: buf)

section
variable {parse : σ → Reader ε σ}

theorem drain_nil (n : Nat) (s : σ) : drain parse n s [] = .ok s := by
  cases n <;> rfl

theorem drain_fuel (hparse : ∀ s, Shrinks (parse s)) {n : Nat} (hn : buf.length ≤ n) :
    drain parse n s buf = drain parse buf.length s buf := by
  induction n using Nat.strongRecOn generalizing s buf with
  | _ n ih =>
  cases buf with
  | nil => rw [drain_nil, drain_nil]
  | cons b buf =>
    obtain ⟨n, rfl⟩ : ∃ k, n = k + 1 := ⟨n - 1, by rw [List.length_cons] at hn; omega⟩
    rw [List.length_cons, drain, drain]
    cases hstep : parse s (b :: buf) with
    | error e => rfl
    | ok p =>
      have hlt := hparse _ _ _ _ hstep
      rw [List.length_cons] at hlt hn
      simp only
      rw [ih n (by omega) (by omega)]
      by_cases heq : buf.length = n
      · rw [heq, ih n (by omega) (by omega)]
      · rw [ih buf.length (by omega) (by omega)]

theorem drain_of_ok (hparse : ∀ s, Shrinks (parse s)) {s' : σ} (hne : buf ≠ [])
    (hstep : parse s buf = .ok (s', rest)) :
    drain parse buf.length s buf = drain parse rest.length s' rest := by
  cases buf with
  | nil => exact absurd rfl hne
  | cons b buf =>
    have hlt := hparse _ _ _ _ hstep
    rw [List.length_cons] at hlt ⊢
    rw [drain, hstep]
    exact drain_fuel hparse (by omega)

theorem drain_of_error (hne : buf ≠ []) (hstep : parse s buf = .error e) :
    drain parse buf.length s buf = .error (e, buf) := by
  cases buf with
  | nil => exact absurd rfl hne
  | cons b buf => rw [List.length_cons, drain, hstep]

/-- What every item keeps holds at the end, or where the error is. -/
theorem drain_inv {I : σ → Prop}
    (hstep : ∀ s buf s' rest, I s → parse s buf = .ok (s', rest) → I s') {n : Nat} (h : I s) :
    (∀ s', drain parse n s buf = .ok s' → I s') ∧
      ∀ e rest, drain parse n s buf = .error (e, rest) → ∃ s', I s' ∧ parse s' rest = .error e := by
  induction n generalizing s buf with
  | zero => exact ⟨fun s' hok => Except.ok.inj hok ▸ h, nofun⟩
  | succ n ih =>
    cases buf with
    | nil => exact ⟨fun s' hok => Except.ok.inj hok ▸ h, nofun⟩
    | cons b buf =>
      rw [drain]
      cases hb : parse s (b :: buf) with
      | error e =>
        refine ⟨nofun, fun e' rest herr => ?_⟩
        cases herr
        exact ⟨s, h, hb⟩
      | ok p => exact ih (hstep _ _ _ _ h hb)

/-- The induction over the items of a text. -/
theorem drain_induction (hparse : ∀ s, Shrinks (parse s)) {motive : σ → Bytes → Prop}
    (nil : ∀ s, motive s [])
    (item : ∀ s buf s' rest, buf ≠ [] → parse s buf = .ok (s', rest) → motive s' rest →
      motive s buf)
    (error : ∀ s buf e, buf ≠ [] → parse s buf = .error e → motive s buf) (s : σ) (buf : Bytes) :
    motive s buf := by
  induction hn : buf.length using Nat.strongRecOn generalizing s buf with
  | _ n ih =>
  by_cases hne : buf = []
  · exact hne ▸ nil s
  · cases hstep : parse s buf with
    | error e => exact error s buf e hne hstep
    | ok p =>
      obtain ⟨s', rest⟩ := p
      exact item s buf s' rest hne hstep
        (ih rest.length (hn ▸ hparse _ _ _ _ hstep) s' rest rfl)

variable {more : ε → Prop}

/-- The first piece ends with an item. -/
theorem drain_append_of_ok (hparse : ∀ s, Shrinks (parse s)) (hlocal : ∀ s, Local more (parse s))
    {s' : σ} (h : drain parse buf.length s buf = .ok s') (q : Bytes) :
    drain parse (buf ++ q).length s (buf ++ q) = drain parse q.length s' q := by
  induction s, buf using drain_induction hparse with
  | nil s =>
    cases h
    rfl
  | item s buf s₁ rest hne hstep ih =>
    rw [drain_of_ok hparse hne hstep] at h
    rw [drain_of_ok hparse (by simp [hne]) ((hlocal s).append hstep q)]
    exact ih h
  | error s buf e hne hstep =>
    rw [drain_of_error hne hstep] at h
    cases h

/-- The first piece ends within an item. -/
theorem drain_append_of_more (hparse : ∀ s, Shrinks (parse s))
    (hlocal : ∀ s, Local more (parse s)) (h : drain parse buf.length s buf = .error (e, rest)) :
    ∃ s', parse s' rest = .error e ∧ rest ≠ [] ∧
      ∀ q, drain parse (buf ++ q).length s (buf ++ q)
        = drain parse (rest ++ q).length s' (rest ++ q) := by
  induction s, buf using drain_induction hparse with
  | nil s => rw [drain_nil] at h; cases h
  | item s buf s₁ rest₁ hne hstep ih =>
    rw [drain_of_ok hparse hne hstep] at h
    obtain ⟨s', herr, hrest, heq⟩ := ih h
    refine ⟨s', herr, hrest, fun q => ?_⟩
    rw [drain_of_ok hparse (by simp [hne]) ((hlocal s).append hstep q)]
    exact heq q
  | error s buf e' hne hstep =>
    rw [drain_of_error hne hstep] at h
    cases h
    exact ⟨s, hstep, hne, fun q => rfl⟩

/-- Another error in the first piece. -/
theorem drain_append_of_fail (hparse : ∀ s, Shrinks (parse s))
    (hlocal : ∀ s, Local more (parse s)) (h : drain parse buf.length s buf = .error (e, rest))
    (hmore : ¬ more e) (q : Bytes) :
    drain parse (buf ++ q).length s (buf ++ q) = .error (e, rest ++ q) := by
  obtain ⟨s', herr, hrest, heq⟩ := drain_append_of_more hparse hlocal h
  rw [heq q]
  exact drain_of_error (by simp [hrest]) ((hlocal s').fail herr hmore q)

end

end IstioVendor.Lib
