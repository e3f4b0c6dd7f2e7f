import IstioVendor.Lib.Text

/-!
# `IstioVendor.Lib.Url`: parsing URLs

`Url.parse` is `Parse` of Go's `net/url`, as of version 1.10. It cuts off the fragment, the scheme
and the query, then the authority, and what is left is the path. The parts are unescaped, a byte
`%` with two hexadecimal digits being one byte.

A text that begins with the text `p` of a URL has mostly the parts of `p`. When `p` ends with a
slash and has neither a query nor a fragment, and `t` has no slash, the URL of `p ++ t` has the path
of `p` and behind it the unescaped beginning of `t` (`Url.path_of_parse_append`), and if no byte of
`t` has a meaning to the parser, all of `t` (`Url.parse_append_of_clean`). If `p` has a query or a
fragment, `t` does not come into the path at all (`Url.path_of_parse_append_of_cut`).

A host has no line end in it (`Url.isLine_host`). A query can have one.
-/

set_option autoImplicit false

namespace IstioVendor.Lib

/-! ### Escapes -/

/-- The value of a hexadecimal digit. -/
def unhex (b : UInt8) : Option UInt8 :=
  if isDigit b then some (b - 48)
  else if 97 ≤ b && b ≤ 102 then some (b - 87)
  else if 65 ≤ b && b ≤ 70 then some (b - 55)
  else none

/-- The bytes of a part of a URL that may be escaped, and those that may stand for themselves. -/
structure Escaping where
  escaped : UInt8 → Bool
  plain : UInt8 → Bool

/-- Every byte is allowed, in either way. -/
def Escaping.any : Escaping := ⟨fun _ => true, fun _ => true⟩

/-- The bytes of a host that need no escape. -/
def isHostByte (b : UInt8) : Bool :=
  128 ≤ b || isAlnum b || (ascii "-_.~!$&'()*+,;=:[]<>\"").contains b

/-- A host has escapes for bytes that are not ASCII, and for the percent sign. -/
def Escaping.host : Escaping := ⟨fun v => 128 ≤ v || v == percent, isHostByte⟩

/-- The zone of an address has escapes for the bytes of a host, and for a blank. -/
def Escaping.zone : Escaping :=
  ⟨fun v => v == percent || v == 32 || (v < 128 && isHostByte v), isHostByte⟩

/-- `unescape`. -/
def unescape (e : Escaping) : Bytes → Option Bytes
  | [] => some []
  | c :: rest =>
    if c = percent then
      match rest with
      | a :: b :: rest' => do
          let hi ← unhex a
          let lo ← unhex b
          if e.escaped (16 * hi + lo) then
            (unescape e rest').map fun d => (16 * hi + lo) :: d
          else none
      | _ => none
    else if e.plain c then (unescape e rest).map fun d => c :: d
    else none

section
variable {e : Escaping} {c : UInt8} {s t d : Bytes}

theorem unescape_cons_of_ne (hc : c ≠ percent) :
    unescape e (c :: s) = if e.plain c then (unescape e s).map fun d => c :: d else none := by
  conv_lhs => unfold unescape
  exact if_neg hc

theorem unescape_percent (a b : UInt8) (s : Bytes) :
    unescape e (percent :: a :: b :: s) = (unhex a).bind fun hi => (unhex b).bind fun lo =>
      if e.escaped (16 * hi + lo) then (unescape e s).map fun d => (16 * hi + lo) :: d
      else none := by
  rfl

/-- A byte that is not part of an escape divides a text for `unescape`. -/
theorem unescape_append_cons (hhex : unhex c = none) (s t : Bytes) :
    unescape e (s ++ c :: t) = (unescape e s).bind fun d => (unescape e (c :: t)).map (d ++ ·) := by
  induction hn : s.length using Nat.strongRecOn generalizing s with
  | _ n ih =>
    match s, hn with
    | [], _ => simp [unescape]
    | x :: s, hn =>
      by_cases hx : x = percent
      · subst hx
        match s, hn with
        | [], _ =>
          -- The escape would have to begin with `c`.
          cases t with
          | nil => simp [unescape]
          | cons y t =>
            rw [List.singleton_append, unescape_percent, hhex]
            simp [unescape]
        | [a], _ =>
          rw [List.cons_append, List.singleton_append, unescape_percent, hhex]
          cases unhex a <;> simp [unescape]
        | a :: b :: s, hn =>
          rw [List.cons_append, List.cons_append, List.cons_append, unescape_percent,
            unescape_percent, ih s.length (by simp at hn; omega) s rfl]
          cases unhex a with
          | none => rfl
          | some hi =>
            cases unhex b with
            | none => rfl
            | some lo =>
              simp only [Option.bind_some]
              split_ifs
              · cases unescape e s <;> cases unescape e (c :: t) <;> simp
              · rfl
      · rw [List.cons_append, unescape_cons_of_ne hx, unescape_cons_of_ne hx,
          ih s.length (by simp at hn; omega) s rfl]
        split_ifs
        · cases unescape e s <;> cases unescape e (c :: t) <;> simp
        · rfl

/-- How a text is unescaped, from its start: an escape stands for one byte, and every other byte for
itself. -/
inductive Unescaped (e : Escaping) : Bytes → Bytes → Prop
  | nil : Unescaped e [] []
  | escape {a b v : UInt8} {s d : Bytes} (allowed : e.escaped v = true) (rest : Unescaped e s d) :
      Unescaped e (percent :: a :: b :: s) (v :: d)
  | plain {c : UInt8} {s d : Bytes} (other : c ≠ percent) (allowed : e.plain c = true)
      (rest : Unescaped e s d) : Unescaped e (c :: s) (c :: d)

theorem unescaped_of_unescape (hd : unescape e s = some d) : Unescaped e s d := by
  -- An escape takes three bytes, so that the induction is on the length.
  induction hn : s.length using Nat.strongRecOn generalizing s d with
  | _ n ih =>
    match s, hn with
    | [], _ =>
      cases hd
      exact .nil
    | x :: s, hn =>
      by_cases hx : x = percent
      · subst hx
        match s, hn, hd with
        | [], _, hd => simp [unescape] at hd
        | [a], _, hd => simp [unescape] at hd
        | a :: b :: s, hn, hd =>
          obtain ⟨hi, _, hd⟩ := Option.bind_eq_some_iff.mp hd
          obtain ⟨lo, _, hd⟩ := Option.bind_eq_some_iff.mp hd
          split_ifs at hd with hescaped
          obtain ⟨d', hd', rfl⟩ := Option.map_eq_some_iff.mp hd
          exact .escape hescaped (ih s.length (by simp at hn; omega) hd' rfl)
      · rw [unescape_cons_of_ne hx] at hd
        split_ifs at hd with hplain
        obtain ⟨d', hd', rfl⟩ := Option.map_eq_some_iff.mp hd
        exact .plain hx hplain (ih s.length (by simp at hn; omega) hd' rfl)

/-- Without escapes nothing changes. -/
theorem unescape_of_notMem (h : percent ∉ s) (hd : unescape e s = some d) : d = s := by
  replace hd := unescaped_of_unescape hd
  induction hd with
  | nil => rfl
  | escape allowed rest ih => exact absurd List.mem_cons_self h
  | plain other allowed rest ih => rw [ih fun hmem => h (List.mem_cons_of_mem _ hmem)]

theorem unescape_any_of_notMem (h : percent ∉ s) : unescape .any s = some s := by
  induction s with
  | nil => rfl
  | cons x s ih =>
    have hx : x ≠ percent := fun hx => h (hx ▸ List.mem_cons_self)
    rw [unescape_cons_of_ne hx, ih fun hmem => h (List.mem_cons_of_mem _ hmem)]
    rfl

/-- An escape makes the text shorter. -/
theorem length_of_unescape (hd : unescape e s = some d) :
    d.length ≤ s.length ∧ (percent ∈ s → d.length < s.length) := by
  replace hd := unescaped_of_unescape hd
  induction hd with
  | nil => exact ⟨Nat.zero_le _, fun h => absurd h List.not_mem_nil⟩
  | escape allowed rest ih =>
    simp only [List.length_cons]
    exact ⟨by omega, fun _ => by omega⟩
  | plain other allowed rest ih =>
    simp only [List.length_cons]
    refine ⟨by omega, fun hmem => ?_⟩
    have := ih.2 ((List.mem_cons.mp hmem).resolve_left fun h => other h.symm)
    omega

/-- A text that ends with a slash, and what is put behind it. -/
theorem unescape_slash_append (s t : Bytes) :
    unescape .any (s ++ [slash] ++ t)
      = (unescape .any (s ++ [slash])).bind fun d => (unescape .any t).map (d ++ ·) := by
  have hc : slash ≠ percent := by decide
  have hhex : unhex slash = none := by decide
  have hslash : ∀ t, unescape .any (slash :: t) = (unescape .any t).map fun d => slash :: d :=
    fun t => by rw [unescape_cons_of_ne hc]; rfl
  rw [List.append_assoc, List.singleton_append, unescape_append_cons hhex,
    unescape_append_cons hhex, hslash, hslash]
  cases unescape .any s <;> cases unescape .any t <;> simp [unescape]

end

/-! ### The parts of a URL -/

/-- `URL`, without the field `RawPath`, which is a hint for printing. `rootless` is the field
`Opaque`: what follows the scheme when it does not begin with a slash. -/
structure Url where
  scheme : Bytes := []
  rootless : Bytes := []
  user : Option (Bytes × Option Bytes) := none
  host : Bytes := []
  path : Bytes := []
  forceQuery : Bool := false
  rawQuery : Bytes := []
  fragment : Bytes := []
deriving DecidableEq

/-- The bytes of a scheme. -/
def isSchemeByte (b : UInt8) : Bool := isAlnum b || (ascii "+-.").contains b

def toLower (b : UInt8) : UInt8 := if isUpper b then b + 32 else b

/-- `getscheme`: the scheme and what follows it. -/
def getScheme (s : Bytes) : Option (Bytes × Bytes) :=
  match s.dropWhile isSchemeByte with
  | [] => some ([], s)
  | c :: rest =>
    if c ≠ colon then some ([], s)
    else
      match s.takeWhile isSchemeByte with
      | [] => none
      | a :: lead => if isLower a || isUpper a then some (a :: lead, rest) else some ([], s)

/-- `validOptionalPort`. -/
def validOptionalPort : Bytes → Bool
  | [] => true
  | c :: port => c == colon && port.all isDigit

/-- `parseHost`. -/
def parseHost (host : Bytes) : Option Bytes :=
  if host.head? = some 91 then
    if (93 : UInt8) ∈ host then
      let colonPort := lastPart 93 host
      let address := host.take (host.length - colonPort.length - 1)
      if !validOptionalPort colonPort then none
      else
        match address.tails.findIdx? ((ascii "%25").isPrefixOf ·) with
        | some zone => do
            let host1 ← unescape .host (address.take zone)
            let host2 ← unescape .zone (address.drop zone)
            let host3 ← unescape .host (93 :: colonPort)
            some (host1 ++ host2 ++ host3)
        | none => unescape .host host
    else none
  else unescape .host host

/-- `validUserinfo`. -/
def validUserinfo (s : Bytes) : Bool :=
  s.all fun b => isAlnum b || (ascii "-._:~!$&'()*+,;=%@").contains b

/-- `parseAuthority`: the user and the host. -/
def parseAuthority (authority : Bytes) : Option (Option (Bytes × Option Bytes) × Bytes) :=
  if (64 : UInt8) ∈ authority then do
    let host ← parseHost (lastPart 64 authority)
    let userinfo := authority.take (authority.length - (lastPart 64 authority).length - 1)
    if !validUserinfo userinfo then none
    else if colon ∈ userinfo then do
      let username ← unescape .any (cut colon userinfo).1
      let password ← unescape .any (cut colon userinfo).2
      some (some (username, some password), host)
    else do
      let username ← unescape .any userinfo
      some (some (username, none), host)
  else (parseHost authority).map fun host => (none, host)

/-- An authority follows two slashes. Without a scheme, three slashes begin a path. -/
def hasAuthority (scheme rest : Bytes) : Bool :=
  [slash, slash].isPrefixOf rest && (scheme != [] || !([slash, slash, slash].isPrefixOf rest))

/-- The part of `parse` behind the query: the authority and the path. -/
def parseRest (scheme rest : Bytes) : Option Url :=
  if rest.head? ≠ some slash ∧ scheme ≠ [] then some { scheme := scheme, rootless := rest }
  else if rest.head? ≠ some slash ∧ colon ∈ rest.takeWhile (· != slash) then none
  else if hasAuthority scheme rest then do
    let (user, host) ← parseAuthority ((rest.drop 2).takeWhile (· != slash))
    let path ← unescape .any ((rest.drop 2).dropWhile (· != slash))
    some { scheme := scheme, user := user, host := host, path := path }
  else (unescape .any rest).map fun path => { scheme := scheme, path := path }

/-- `parse`, for a text without a fragment. -/
def parseReference (s : Bytes) : Option Url :=
  if s = [42] then some { path := [42] }
  else do
    let (scheme, rest) ← getScheme s
    let url ← parseRest (scheme.map toLower) (cut question rest).1
    some { url with
      forceQuery := decide (question ∈ rest) && (cut question rest).2 == []
      rawQuery := (cut question rest).2 }

/-- `Parse`. -/
def Url.parse (s : Bytes) : Option Url := do
  let url ← parseReference (cut hash s).1
  let fragment ← unescape .any (cut hash s).2
  some { url with fragment := fragment }

/-! ### The bytes of a host -/

variable {d s : Bytes} {x : UInt8}

/-- The bytes of an unescaped text are allowed, in one of the two ways. -/
theorem of_mem_unescape {e : Escaping} (hd : unescape e s = some d) :
    ∀ b ∈ d, e.escaped b = true ∨ e.plain b = true := by
  replace hd := unescaped_of_unescape hd
  induction hd with
  | nil => exact fun _ h => absurd h List.not_mem_nil
  | escape allowed rest ih =>
    intro b hb
    rcases List.mem_cons.mp hb with rfl | hb
    · exact .inl allowed
    · exact ih b hb
  | plain other allowed rest ih =>
    intro b hb
    rcases List.mem_cons.mp hb with rfl | hb
    · exact .inr allowed
    · exact ih b hb

theorem isLine_unescape_host (hd : unescape .host s = some d) : IsLine d := by
  intro b hb
  have hallowed := of_mem_unescape hd b hb
  constructor
  · rintro rfl
    exact absurd hallowed (by decide)
  · rintro rfl
    exact absurd hallowed (by decide)

theorem isLine_unescape_zone (hd : unescape .zone s = some d) : IsLine d := by
  intro b hb
  have hallowed := of_mem_unescape hd b hb
  constructor
  · rintro rfl
    exact absurd hallowed (by decide)
  · rintro rfl
    exact absurd hallowed (by decide)

theorem isLine_parseHost {host : Bytes} (h : parseHost s = some host) : IsLine host := by
  unfold parseHost at h
  split_ifs at h
  · dsimp only at h
    split_ifs at h
    split at h
    · obtain ⟨host1, h1, h⟩ := Option.bind_eq_some_iff.mp h
      obtain ⟨host2, h2, h⟩ := Option.bind_eq_some_iff.mp h
      obtain ⟨host3, h3, ⟨⟩⟩ := Option.bind_eq_some_iff.mp h
      intro b hb
      rcases List.mem_append.mp hb with hb | hb
      · rcases List.mem_append.mp hb with hb | hb
        · exact isLine_unescape_host h1 b hb
        · exact isLine_unescape_zone h2 b hb
      · exact isLine_unescape_host h3 b hb
    · exact isLine_unescape_host h
  · exact isLine_unescape_host h

theorem isLine_parseAuthority {user : Option (Bytes × Option Bytes)} {host : Bytes}
    (h : parseAuthority s = some (user, host)) : IsLine host := by
  unfold parseAuthority at h
  split_ifs at h
  · obtain ⟨host', hhost, h⟩ := Option.bind_eq_some_iff.mp h
    dsimp only at h
    split_ifs at h
    · obtain ⟨username, -, h⟩ := Option.bind_eq_some_iff.mp h
      obtain ⟨password, -, h⟩ := Option.bind_eq_some_iff.mp h
      cases Option.some.inj h
      exact isLine_parseHost hhost
    · obtain ⟨username, -, h⟩ := Option.bind_eq_some_iff.mp h
      cases Option.some.inj h
      exact isLine_parseHost hhost
  · obtain ⟨host', hhost, ⟨⟩⟩ := Option.map_eq_some_iff.mp h
    exact isLine_parseHost hhost

theorem isLine_nil : IsLine [] := fun _ hb => absurd hb List.not_mem_nil

theorem isLine_parseRest {scheme : Bytes} {url : Url} (h : parseRest scheme s = some url) :
    IsLine url.host := by
  unfold parseRest at h
  split_ifs at h
  · cases h
    exact isLine_nil
  · obtain ⟨⟨user, host⟩, hauthority, h⟩ := Option.bind_eq_some_iff.mp h
    obtain ⟨path, -, ⟨⟩⟩ := Option.bind_eq_some_iff.mp h
    exact isLine_parseAuthority hauthority
  · obtain ⟨path, -, rfl⟩ := Option.map_eq_some_iff.mp h
    exact isLine_nil

/-- The host of a URL has no line end in it. -/
theorem Url.isLine_host {url : Url} (h : Url.parse s = some url) : IsLine url.host := by
  obtain ⟨ref, href, h⟩ := Option.bind_eq_some_iff.mp h
  obtain ⟨fragment, -, ⟨⟩⟩ := Option.bind_eq_some_iff.mp h
  unfold parseReference at href
  split_ifs at href
  · cases href
    exact isLine_nil
  · obtain ⟨⟨scheme, rest⟩, -, href⟩ := Option.bind_eq_some_iff.mp href
    obtain ⟨url, hurl, href⟩ := Option.bind_eq_some_iff.mp href
    have hhost := isLine_parseRest hurl
    cases href
    exact hhost

/-! ### A text behind a URL -/

section
variable {scheme rest s p t : Bytes} {url base : Url}

/-- Slashes at the start of a text, and a text without slashes behind it. -/
theorem slashes_isPrefixOf_append (ht : slash ∉ t) (n : Nat) (s : Bytes) :
    (List.replicate n slash).isPrefixOf (s ++ t) = (List.replicate n slash).isPrefixOf s := by
  induction n generalizing s with
  | zero => rfl
  | succ n ih =>
    cases s with
    | nil =>
      cases t with
      | nil => rfl
      | cons x t =>
        have hx : slash ≠ x := fun hx => ht (hx ▸ List.mem_cons_self)
        rw [List.replicate_succ, List.nil_append, List.isPrefixOf_cons_cons,
          beq_eq_false_iff_ne.mpr hx]
        rfl
    | cons x s =>
      rw [List.replicate_succ, List.cons_append, List.isPrefixOf_cons_cons,
        List.isPrefixOf_cons_cons, ih]

theorem hasAuthority_append (ht : slash ∉ t) (scheme rest : Bytes) :
    hasAuthority scheme (rest ++ t) = hasAuthority scheme rest := by
  have htwo := slashes_isPrefixOf_append ht 2 rest
  have hthree := slashes_isPrefixOf_append ht 3 rest
  simp only [List.replicate_succ, List.replicate_zero] at htwo hthree
  rw [hasAuthority, hasAuthority, htwo, hthree]

/-- The text of a URL that a text is put behind: a slash ends it. -/
def EndsWithSlash (s : Bytes) : Prop := ∃ s', s = s' ++ [slash]

section
variable (h : EndsWithSlash s)
include h

theorem EndsWithSlash.mem : slash ∈ s := by
  obtain ⟨s', rfl⟩ := h
  exact List.mem_append_right _ (List.mem_singleton.mpr rfl)

theorem EndsWithSlash.drop {n : Nat} (hn : s.drop n ≠ []) : EndsWithSlash (s.drop n) := by
  obtain ⟨s', rfl⟩ := h
  have hlen : n ≤ s'.length := by
    by_contra hlt
    exact hn (List.drop_of_length_le (by simp; omega))
  exact ⟨s'.drop n, by rw [List.drop_append_of_le_length hlen]⟩

theorem EndsWithSlash.dropWhile : EndsWithSlash (s.dropWhile (· != slash)) := by
  have hne := dropWhile_ne_nil_of_mem h.mem
  obtain ⟨pre, hpre⟩ := List.dropWhile_suffix (l := s) (· != slash)
  have hdrop : s.dropWhile (· != slash) = s.drop pre.length := by
    conv_rhs => rw [← hpre]
    rw [List.drop_left]
  rw [hdrop] at hne ⊢
  exact h.drop hne

theorem EndsWithSlash.unescape_append (t : Bytes) :
    unescape .any (s ++ t) = (unescape .any s).bind fun d => (unescape .any t).map (d ++ ·) := by
  obtain ⟨s', rfl⟩ := h
  exact unescape_slash_append s' t

theorem EndsWithSlash.of_unescape (hd : unescape .any s = some d) : EndsWithSlash d := by
  obtain ⟨s', rfl⟩ := h
  have hlast : unescape .any [slash] = some [slash] := rfl
  rw [unescape_append_cons (by decide), hlast] at hd
  obtain ⟨d', _, hd⟩ := Option.bind_eq_some_iff.mp hd
  exact ⟨d', (Option.some.inj hd).symm⟩

end

/-- The text behind the slash comes to the end of the path. Or there is no path, because the
text comes to the end of a rootless part or of the authority. -/
theorem parseRest_append (hrest : EndsWithSlash rest) (ht : slash ∉ t)
    (hbase : parseRest scheme rest = some base) :
    (base.path = [] ∧ ∀ url, parseRest scheme (rest ++ t) = some url → url.path = []) ∨
    (EndsWithSlash base.path ∧ parseRest scheme (rest ++ t)
      = (unescape .any t).map fun d => { base with path := base.path ++ d }) := by
  have hhead : (rest ++ t).head? = rest.head? := by
    obtain ⟨s', rfl⟩ := hrest
    cases s' <;> rfl
  unfold parseRest at hbase ⊢
  rw [hhead, takeWhile_append_of_mem hrest.mem, hasAuthority_append ht]
  by_cases hrootless : rest.head? ≠ some slash ∧ scheme ≠ []
  · rw [if_pos hrootless] at hbase ⊢
    cases hbase
    refine .inl ⟨rfl, fun url hurl => ?_⟩
    cases hurl
    rfl
  rw [if_neg hrootless] at hbase ⊢
  by_cases hcolon : rest.head? ≠ some slash ∧ colon ∈ rest.takeWhile (· != slash)
  · rw [if_pos hcolon] at hbase
    cases hbase
  rw [if_neg hcolon] at hbase ⊢
  by_cases hauth : hasAuthority scheme rest = true
  · rw [if_pos hauth] at hbase ⊢
    have htwo : 2 ≤ rest.length := by
      rw [hasAuthority, Bool.and_eq_true] at hauth
      exact (List.isPrefixOf_iff_prefix.mp hauth.1).length_le
    rw [List.drop_append_of_le_length htwo]
    obtain ⟨⟨user, host⟩, huser, hbase⟩ := Option.bind_eq_some_iff.mp hbase
    obtain ⟨path, hpath, ⟨⟩⟩ := Option.bind_eq_some_iff.mp hbase
    by_cases hempty : rest.drop 2 = []
    · -- Nothing follows the two slashes, and the text comes into the authority.
      rw [hempty] at hpath ⊢
      have hdrop : t.dropWhile (· != slash) = [] := by
        have heq := dropWhile_append_of_notMem ht []
        rwa [List.append_nil] at heq
      refine .inl ⟨(Option.some.inj hpath).symm, fun url hurl => ?_⟩
      obtain ⟨_, _, hurl⟩ := Option.bind_eq_some_iff.mp hurl
      obtain ⟨path', hpath', ⟨⟩⟩ := Option.bind_eq_some_iff.mp hurl
      rw [List.nil_append, hdrop] at hpath'
      exact (Option.some.inj hpath').symm
    · have hslash := (hrest.drop hempty).mem
      have hends := (hrest.drop hempty).dropWhile
      right
      rw [takeWhile_append_of_mem hslash, dropWhile_append_of_mem hslash, huser,
        hends.unescape_append, hpath]
      refine ⟨hends.of_unescape hpath, ?_⟩
      cases unescape .any t <;> rfl
  · rw [if_neg hauth] at hbase ⊢
    obtain ⟨path, hpath, rfl⟩ := Option.map_eq_some_iff.mp hbase
    right
    rw [hrest.unescape_append, hpath]
    refine ⟨hrest.of_unescape hpath, ?_⟩
    cases unescape .any t <;> rfl

/-- A byte that is not of a scheme fixes where the scheme ends. -/
theorem getScheme_append (hx : isSchemeByte x = false) (hmem : x ∈ p) (t : Bytes) :
    getScheme (p ++ t) = (getScheme p).map fun part => (part.1, part.2 ++ t) := by
  have hdrop : p.dropWhile isSchemeByte ≠ [] := fun h0 => by
    have hall := List.dropWhile_eq_nil_iff.mp h0 x hmem
    rw [hx] at hall
    cases hall
  obtain ⟨c, rest, hrest⟩ := List.exists_cons_of_ne_nil hdrop
  have happ : (p ++ t).dropWhile isSchemeByte = c :: (rest ++ t) := by
    rw [List.dropWhile_append, hrest]
    rfl
  have htake : (p ++ t).takeWhile isSchemeByte = p.takeWhile isSchemeByte := by
    have hlen : (p.takeWhile isSchemeByte).length ≠ p.length := fun hlen => by
      have hlengths :=
        congrArg List.length (List.takeWhile_append_dropWhile (p := isSchemeByte) (l := p))
      rw [List.length_append, hrest, List.length_cons] at hlengths
      omega
    rw [List.takeWhile_append, if_neg hlen]
  unfold getScheme
  rw [happ, htake, hrest]
  dsimp only
  by_cases hcolon : c ≠ colon
  · rw [if_pos hcolon, if_pos hcolon]
    rfl
  rw [if_neg hcolon, if_neg hcolon]
  cases p.takeWhile isSchemeByte with
  | nil => rfl
  | cons a lead =>
    dsimp only
    split_ifs <;> rfl

/-- What is before the rest is a scheme and its colon. -/
theorem eq_append_of_getScheme (h : getScheme p = some (scheme, rest)) :
    ∃ lead, p = lead ++ rest ∧ ∀ x ∈ lead, isSchemeByte x = true ∨ x = colon := by
  have hnone : ∃ lead, p = lead ++ p ∧ ∀ x ∈ lead, isSchemeByte x = true ∨ x = colon :=
    ⟨[], rfl, fun x hx => absurd hx List.not_mem_nil⟩
  unfold getScheme at h
  cases hdrop : p.dropWhile isSchemeByte with
  | nil =>
    rw [hdrop] at h
    cases Option.some.inj h
    exact hnone
  | cons c rest' =>
    rw [hdrop] at h
    dsimp only at h
    by_cases hcolon : c ≠ colon
    · rw [if_pos hcolon] at h
      cases Option.some.inj h
      exact hnone
    rw [if_neg hcolon] at h
    cases htake : p.takeWhile isSchemeByte with
    | nil =>
      rw [htake] at h
      cases h
    | cons a lead =>
      rw [htake] at h
      dsimp only at h
      -- A scheme has to start with a letter.
      split_ifs at h with ha
      · cases Option.some.inj h
        refine ⟨p.takeWhile isSchemeByte ++ [c], ?_, fun x hx => ?_⟩
        · rw [List.append_assoc, List.singleton_append, ← hdrop, List.takeWhile_append_dropWhile]
        · rcases List.mem_append.mp hx with hx | hx
          · exact .inl (List.mem_takeWhile_imp hx)
          · exact .inr ((List.mem_singleton.mp hx).trans (not_not.mp hcolon))
      · cases Option.some.inj h
        exact hnone

theorem mem_rest_of_getScheme (h : getScheme p = some (scheme, rest)) (hmem : x ∈ p)
    (hx : isSchemeByte x = false) (hcolon : x ≠ colon) : x ∈ rest := by
  obtain ⟨lead, rfl, hlead⟩ := eq_append_of_getScheme h
  rcases List.mem_append.mp hmem with hmem | hmem
  · rcases hlead x hmem with h1 | h1
    · rw [hx] at h1
      cases h1
    · exact absurd h1 hcolon
  · exact hmem

theorem EndsWithSlash.rest_of_getScheme (hp : EndsWithSlash p)
    (h : getScheme p = some (scheme, rest)) : EndsWithSlash rest := by
  have hne : rest ≠ [] :=
    List.ne_nil_of_mem (mem_rest_of_getScheme h hp.mem (by decide) (by decide))
  obtain ⟨lead, rfl, -⟩ := eq_append_of_getScheme h
  have hdrop : (lead ++ rest).drop lead.length = rest := List.drop_left
  rw [← hdrop] at hne ⊢
  exact hp.drop hne

theorem EndsWithSlash.ne_star (hp : EndsWithSlash p) (t : Bytes) : p ++ t ≠ [42] := by
  intro h
  have hmem : slash ∈ p ++ t := List.mem_append_left _ hp.mem
  rw [h] at hmem
  exact absurd hmem (by decide)

theorem notMem_rest_of_getScheme (h : getScheme p = some (scheme, rest)) (hx : x ∉ p) :
    x ∉ rest := by
  obtain ⟨lead, rfl, -⟩ := eq_append_of_getScheme h
  exact fun hmem => hx (List.mem_append_right _ hmem)

theorem query_of_parseReference (hquestion : question ∉ p) (h : parseReference p = some base) :
    base.forceQuery = false ∧ base.rawQuery = [] := by
  unfold parseReference at h
  by_cases hstar : p = [42]
  · rw [if_pos hstar] at h
    cases h
    exact ⟨rfl, rfl⟩
  rw [if_neg hstar] at h
  obtain ⟨⟨scheme, rest⟩, hscheme, h⟩ := Option.bind_eq_some_iff.mp h
  obtain ⟨url₀, _, ⟨⟩⟩ := Option.bind_eq_some_iff.mp h
  have hnotMem := notMem_rest_of_getScheme hscheme hquestion
  rw [decide_eq_false hnotMem, cut_of_notMem hnotMem]
  exact ⟨rfl, rfl⟩

theorem parseReference_append (hp : EndsWithSlash p) (hquestion : question ∉ p) (ht : slash ∉ t)
    (hbase : parseReference p = some base) :
    (base.path = [] ∧ ∀ url, parseReference (p ++ t) = some url → url.path = []) ∨
    (EndsWithSlash base.path ∧ parseReference (p ++ t)
      = (unescape .any (cut question t).1).map fun d =>
          { base with
            path := base.path ++ d
            forceQuery := decide (question ∈ t) && (cut question t).2 == []
            rawQuery := (cut question t).2 }) := by
  have hstar : p ≠ [42] := by
    have hne := hp.ne_star []
    rwa [List.append_nil] at hne
  unfold parseReference at hbase ⊢
  rw [if_neg hstar] at hbase
  rw [if_neg (hp.ne_star t), getScheme_append (x := slash) (by decide) hp.mem]
  obtain ⟨⟨scheme, rest⟩, hscheme, hbase⟩ := Option.bind_eq_some_iff.mp hbase
  obtain ⟨url₀, hurl₀, ⟨⟩⟩ := Option.bind_eq_some_iff.mp hbase
  have hrest := hp.rest_of_getScheme hscheme
  have hnotMem := notMem_rest_of_getScheme hscheme hquestion
  -- The query starts in the text, if there is one.
  have hmem : (question ∈ rest ++ t) ↔ question ∈ t := by simp [hnotMem]
  have htail : slash ∉ (cut question t).1 := fun h => ht (List.takeWhile_subset _ h)
  rw [hscheme]
  dsimp only [Option.map_some, Option.bind_some, Option.bind_eq_bind]
  rw [cut_append hnotMem]
  rw [cut_of_notMem hnotMem] at hurl₀
  rcases parseRest_append hrest htail hurl₀ with ⟨hpath, hnone⟩ | ⟨hpath, heq⟩
  · refine .inl ⟨hpath, fun url hurl => ?_⟩
    obtain ⟨url₁, hurl₁, ⟨⟩⟩ := Option.bind_eq_some_iff.mp hurl
    exact hnone url₁ hurl₁
  · refine .inr ⟨hpath, ?_⟩
    rw [heq]
    cases unescape .any (cut question t).1 with
    | none => rfl
    | some d => simp only [Option.map_some, Option.bind_some, hmem]

/-- What the path of a URL is when a text without slashes is put behind a directory. -/
theorem Url.path_of_parse_append (hp : EndsWithSlash p) (hquestion : question ∉ p)
    (hhash : hash ∉ p) (ht : slash ∉ t) (hbase : Url.parse p = some base)
    (hurl : Url.parse (p ++ t) = some url) :
    url.path = [] ∨ (EndsWithSlash base.path ∧
      ∃ d, unescape .any (cut question (cut hash t).1).1 = some d ∧ url.path = base.path ++ d) := by
  unfold Url.parse at hbase hurl
  rw [cut_of_notMem hhash] at hbase
  rw [cut_append hhash] at hurl
  obtain ⟨base₀, hbase₀, ⟨⟩⟩ := Option.bind_eq_some_iff.mp hbase
  obtain ⟨url₀, hurl₀, hurl⟩ := Option.bind_eq_some_iff.mp hurl
  obtain ⟨fragment, hfragment, ⟨⟩⟩ := Option.bind_eq_some_iff.mp hurl
  have htail : slash ∉ (cut hash t).1 := fun h => ht (List.takeWhile_subset _ h)
  rcases parseReference_append hp hquestion htail hbase₀ with ⟨_, hnone⟩ | ⟨hpath, heq⟩
  · exact .inl (hnone url₀ hurl₀)
  · rw [hurl₀] at heq
    obtain ⟨d, hd, hd'⟩ := Option.map_eq_some_iff.mp heq.symm
    exact .inr ⟨hpath, d, hd, by rw [← hd']⟩

/-- A text without special bytes is put behind the path as it is. -/
theorem Url.parse_append_of_clean (hp : EndsWithSlash p) (hquestion : question ∉ p)
    (hhash : hash ∉ p) (hbase : Url.parse p = some base) (hpath : EndsWithSlash base.path)
    (hslash : slash ∉ t) (ht₁ : percent ∉ t) (ht₂ : question ∉ t) (ht₃ : hash ∉ t) :
    Url.parse (p ++ t) = some { base with path := base.path ++ t } := by
  unfold Url.parse at hbase ⊢
  rw [cut_of_notMem hhash] at hbase
  rw [cut_append hhash, cut_of_notMem ht₃]
  obtain ⟨base₀, hbase₀, ⟨⟩⟩ := Option.bind_eq_some_iff.mp hbase
  rcases parseReference_append hp hquestion hslash hbase₀ with ⟨hnil, _⟩ | ⟨_, heq⟩
  · obtain ⟨s', hs'⟩ := hpath
    rw [show base₀.path = [] from hnil] at hs'
    exact absurd hs'.symm (List.append_ne_nil_of_right_ne_nil _ (List.cons_ne_nil _ _))
  · obtain ⟨hforce, hraw⟩ := query_of_parseReference hquestion hbase₀
    rw [cut_of_notMem ht₂, unescape_any_of_notMem ht₁] at heq
    rw [heq, hforce, hraw, decide_eq_false ht₂]
    rfl

/-- A text behind a query or a fragment does not come into the path. -/
theorem Url.path_of_parse_append_of_cut (hp : question ∈ p ∨ hash ∈ p)
    (hbase : Url.parse p = some base) (hurl : Url.parse (p ++ t) = some url) :
    url.path = base.path := by
  obtain ⟨base₀, hbase₀, hbase⟩ := Option.bind_eq_some_iff.mp hbase
  obtain ⟨_, _, ⟨⟩⟩ := Option.bind_eq_some_iff.mp hbase
  obtain ⟨url₀, hurl₀, hurl⟩ := Option.bind_eq_some_iff.mp hurl
  obtain ⟨_, _, ⟨⟩⟩ := Option.bind_eq_some_iff.mp hurl
  by_cases hhash : hash ∈ p
  · rw [cut_append_of_mem hhash, hbase₀] at hurl₀
    cases hurl₀
    rfl
  -- The text goes to the query, which is cut off before the path is read.
  have hquestion := hp.resolve_right hhash
  rw [cut_of_notMem hhash] at hbase₀
  rw [cut_append hhash] at hurl₀
  have hstar : ∀ t, p ++ t ≠ [42] := fun t h => by
    have hmem : question ∈ p ++ t := List.mem_append_left _ hquestion
    rw [h] at hmem
    exact absurd hmem (by decide)
  have hstar₀ : p ≠ [42] := by
    have hne := hstar []
    rwa [List.append_nil] at hne
  unfold parseReference at hbase₀ hurl₀
  rw [if_neg hstar₀] at hbase₀
  rw [if_neg (hstar _), getScheme_append (x := question) (by decide) hquestion] at hurl₀
  obtain ⟨⟨scheme, rest⟩, hscheme, hbase₀⟩ := Option.bind_eq_some_iff.mp hbase₀
  obtain ⟨base₁, hbase₁, ⟨⟩⟩ := Option.bind_eq_some_iff.mp hbase₀
  have hrest := mem_rest_of_getScheme hscheme hquestion (by decide) (by decide)
  rw [hscheme] at hurl₀
  obtain ⟨_, hpart, hurl₀⟩ := Option.bind_eq_some_iff.mp hurl₀
  cases hpart
  obtain ⟨url₁, hurl₁, ⟨⟩⟩ := Option.bind_eq_some_iff.mp hurl₀
  rw [cut_append_of_mem hrest, hbase₁] at hurl₁
  rw [Option.some.inj hurl₁]

end

end IstioVendor.Lib
