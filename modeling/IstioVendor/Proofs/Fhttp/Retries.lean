import IstioVendor.Proofs.Fhttp.Sockets

/-!
# `IstioVendor.Proofs.Fhttp.Retries`: how often `Fetch` calls itself

`Fetch` calls itself at two places: when the request cannot be written, and when `readResponse`
leaves with the code `RetryOnce`. `fetchAgain` is the nested call that a call makes, and
`fetch_succ` takes a call apart by it. `fetchCalls` are all calls of one `Fetch`, in their order.

A nested call needs a reused socket, and it starts without one (`fetchAgain_cases`). So there is
at most one (`fetch_retries_once`), and the bound on the depth of the model is no restriction.
-/

set_option autoImplicit false

namespace IstioVendor.Fhttp

open Lib

namespace FastClient

/-- The nested call that a call of `Fetch` makes: its client, and the connections used so far. -/
def fetchAgain (g : Settings) (net : Nat → Attempt) (passes k : Nat) (c : FastClient)
    (used : List Conn) : Option (FastClient × List Conn) :=
  match c.acquire (net k) with
  | (_, none) => none
  | (c1, some conn) =>
    let c2 := { c1 with socket := none }
    if !(net k).writeOk || !(net k).deadlineOk then
      if c.socket.isSome then
        some ({ c2 with errorCount := c2.errorCount + 1 }, used ++ [conn.close])
      else none
    else if (net k).written ≠ c2.req.length then none
    else if !c2.keepAlive && c2.halfClose && !(net k).closeWriteOk then none
    else
      match c2.readResponse g passes (conn.requested (net k)) c.socket.isSome with
      | some (.returned c3 conn') =>
        if c3.code = retryOnce then some (c3, used ++ [conn']) else none
      | _ => none

/-- The clients at the start of the calls of `Fetch`, the first one and the nested ones, down to
the depth `depth`. -/
def fetchCalls (g : Settings) (net : Nat → Attempt) (passes : Nat) :
    Nat → Nat → FastClient → List Conn → List FastClient
  | 0, _, _, _ => []
  | depth + 1, k, c, used =>
    c :: match c.fetchAgain g net passes k used with
      | some (c₁, used₁) => fetchCalls g net passes depth (k + 1) c₁ used₁
      | none => []

section
variable {g : Settings} {net : Nat → Attempt} {passes depth k : Nat} {c c' c₁ : FastClient}
  {used used' used₁ : List Conn}

/-! ### One call -/

/-- A call with a nested call returns what the nested call does. Without one, the depth does not
matter. -/
theorem fetch_succ (g : Settings) (net : Nat → Attempt) (passes depth k : Nat) (c : FastClient)
    (used : List Conn) :
    c.fetch g net passes (depth + 1) k used =
      match c.fetchAgain g net passes k used with
      | some (c₁, used₁) => c₁.fetch g net passes depth (k + 1) used₁
      | none => c.fetch g net passes 1 k used := by
  rw [fetch, fetch, fetchAgain]
  generalize c.acquire (net k) = acquired
  obtain ⟨c1, _ | conn⟩ := acquired
  · rfl
  dsimp only
  split_ifs
  · rfl
  · rfl
  · rfl
  · rfl
  · generalize readResponse g passes _ (conn.requested (net k)) _ = out
    rcases out with _ | _ | _ | ⟨c3, conn'⟩
    · rfl
    · rfl
    · rfl
    · dsimp only
      split_ifs <;> rfl

theorem acquire_socketCount (c : FastClient) (a : Attempt) :
    (c.acquire a).1.socketCount = c.socketCount + if c.socket.isNone then 1 else 0 := by
  unfold acquire
  cases c.socket <;> rfl

/-- The client that waits for the answer. -/
theorem starting_acquired (c : FastClient) (a : Attempt) (conn : Conn) :
    Starting { (c.acquire a).1 with socket := none } (conn.requested a) := by
  obtain ⟨n, hacquired, -⟩ := acquire_cases c a
  rw [hacquired]
  exact ⟨rfl, rfl, rfl, rfl⟩

/-- A nested call comes behind a reused socket, and starts without one and with nothing dialed. -/
theorem fetchAgain_cases (h : c.fetchAgain g net passes k used = some (c₁, used₁)) :
    c.socket.isSome = true ∧ c₁.socket = none ∧ c₁.socketCount = c.socketCount := by
  have hcount := acquire_socketCount c (net k)
  have hstarting := starting_acquired c (net k)
  unfold fetchAgain at h
  generalize c.acquire (net k) = acquired at h hcount hstarting
  obtain ⟨c1, _ | conn⟩ := acquired
  · cases h
  dsimp only at h hcount hstarting
  split_ifs at h with _ hreuse
  · cases h
    rw [Option.isNone_eq_false_iff.mpr hreuse] at hcount
    exact ⟨hreuse, rfl, hcount⟩
  · generalize hread : readResponse g passes _ (conn.requested (net k)) _ = out at h
    rcases out with _ | _ | _ | ⟨c3, conn'⟩
    · cases h
    · cases h
    · cases h
    · dsimp only at h
      split_ifs at h with hretry
      cases h
      have hout := readResponse_eq_some_iff.mp ⟨passes, hread⟩
      obtain ⟨hreuse, -⟩ := dead_of_retry (hstarting conn) hout hretry
      obtain ⟨hsetup, hsock⟩ := retry_of_responds (hstarting conn) hout hretry
      rw [Option.isNone_eq_false_iff.mpr hreuse] at hcount
      exact ⟨hreuse, hsock, hsetup.socketCount.trans hcount⟩

/-- A call without a nested call dials when it has no socket, and it does not return the code
that asks for a retry. -/
theorem returned_of_last (h : c.fetchAgain g net passes k used = none)
    (hret : c.fetch g net passes 1 k used = some (.returned c' used')) :
    c'.socketCount = c.socketCount + (if c.socket.isNone then 1 else 0) ∧ c'.code ≠ retryOnce := by
  have hcount := acquire_socketCount c (net k)
  have hstarting := starting_acquired c (net k)
  obtain ⟨n, hreset, -⟩ := acquire_cases c (net k)
  have hcode : (c.acquire (net k)).1.code ≠ retryOnce := by
    have hstart : socketError ≠ retryOnce := by decide
    rw [hreset]
    exact hstart
  unfold fetchAgain at h
  unfold fetch at hret
  rw [← hcount]
  generalize c.acquire (net k) = acquired at h hret hcode hstarting
  obtain ⟨c1, _ | conn⟩ := acquired
  · cases hret
    exact ⟨rfl, hcode⟩
  dsimp only at h hret hcode hstarting
  -- The ways to return before the response is read leave the code of the start.
  split_ifs at h hret
  · cases hret
    exact ⟨rfl, hcode⟩
  · cases hret
    exact ⟨rfl, hcode⟩
  · cases hret
    exact ⟨rfl, hcode⟩
  · generalize hread : readResponse g passes _ (conn.requested (net k)) _ = out at h hret
    rcases out with _ | _ | _ | ⟨c3, conn'⟩
    · cases hret
    · cases hret
    · cases hret
    · dsimp only at h hret
      split_ifs at h hret with hretry
      cases hret
      have hout := readResponse_eq_some_iff.mp ⟨passes, hread⟩
      rcases responds_ended (hstarting conn) hout with _ | _ | ⟨_, _, _, _, _, _, hfinal⟩
      exact ⟨hfinal.setup.socketCount, hretry⟩

/-! ### All calls -/

/-- A call without a socket makes no nested call. -/
theorem fetchAgain_of_dial (h : c.socket = none) : c.fetchAgain g net passes k used = none := by
  cases hagain : c.fetchAgain g net passes k used with
  | none => rfl
  | some p =>
    have hreuse := (fetchAgain_cases hagain).1
    rw [h] at hreuse
    cases hreuse

theorem fetchCalls_of_last (h : c.fetchAgain g net passes k used = none) :
    c.fetchCalls g net passes depth k used <+: [c] := by
  cases depth with
  | zero => exact List.nil_prefix
  | succ depth =>
    have heq : c.fetchCalls g net passes (depth + 1) k used = [c] := by rw [fetchCalls, h]
    exact heq ▸ List.prefix_rfl

/-- The nested call is the last one. -/
theorem fetchCalls_of_again (h : c.fetchAgain g net passes k used = some (c₁, used₁)) :
    c.fetchCalls g net passes depth k used <+: [c, c₁] := by
  have hlast : c₁.fetchAgain g net passes (k + 1) used₁ = none :=
    fetchAgain_of_dial (fetchAgain_cases h).2.1
  cases depth with
  | zero => exact List.nil_prefix
  | succ depth =>
    rw [fetchCalls, h]
    exact (List.prefix_cons_inj c).mpr (fetchCalls_of_last hlast)

theorem fetch_depth (g : Settings) (net : Nat → Attempt) (passes depth k : Nat) (c : FastClient)
    (used : List Conn) :
    c.fetch g net passes (depth + 2) k used = c.fetch g net passes 2 k used := by
  cases hagain : c.fetchAgain g net passes k used with
  | none => simp only [fetch_succ g net passes (depth + 1), fetch_succ g net passes 1, hagain]
  | some p =>
    obtain ⟨c₁, used₁⟩ := p
    have hlast : c₁.fetchAgain g net passes (k + 1) used₁ = none :=
      fetchAgain_of_dial (fetchAgain_cases hagain).2.1
    simp only [fetch_succ g net passes (depth + 1) k, fetch_succ g net passes 1 k, hagain,
      fetch_succ g net passes depth (k + 1), hlast]

/-- What a call returns, with or without a nested call. -/
theorem returned_of_fetch (hret : c.fetch g net passes depth k used = some (.returned c' used')) :
    c'.socketCount ≤ c.socketCount + 1 ∧ c'.code ≠ retryOnce := by
  cases depth with
  | zero => cases hret
  | succ depth =>
    cases hagain : c.fetchAgain g net passes k used with
    | none =>
      rw [fetch_succ, hagain] at hret
      obtain ⟨hcount, hcode⟩ := returned_of_last hagain hret
      exact ⟨by rw [hcount]; split <;> omega, hcode⟩
    | some p =>
      obtain ⟨c₁, used₁⟩ := p
      obtain ⟨-, hsock, hsame⟩ := fetchAgain_cases hagain
      have hlast : c₁.fetchAgain g net passes (k + 1) used₁ = none := fetchAgain_of_dial hsock
      rw [fetch_succ, hagain] at hret
      cases depth with
      | zero => cases hret
      | succ depth =>
        simp only [fetch_succ g net passes depth, hlast] at hret
        obtain ⟨hcount, hcode⟩ := returned_of_last hlast hret
        rw [hsame, hsock] at hcount
        exact ⟨hcount.le, hcode⟩

/-- One `Fetch` calls itself at most once and dials at most once, and it does not call itself when
it starts without a socket. So two levels of calls are all there are. What it returns has
dialed at most once and is not the code that asks for a retry. -/
theorem fetch_retries_once (g : Settings) (net : Nat → Attempt) (passes depth k : Nat)
    (c : FastClient) (used : List Conn) :
    (c.fetchCalls g net passes depth k used).length ≤ 2 ∧
      ((c.fetchCalls g net passes depth k used).filter fun c => c.socket.isNone).length ≤ 1 ∧
      (c.socket = none → (c.fetchCalls g net passes depth k used).length ≤ 1) ∧
      c.fetch g net passes (depth + 2) k used = c.fetch g net passes 2 k used ∧
      ∀ c' used', c.fetch g net passes depth k used = some (.returned c' used') →
        c'.socketCount ≤ c.socketCount + 1 ∧ c'.code ≠ retryOnce := by
  have hdepth := fetch_depth g net passes depth k c used
  cases hagain : c.fetchAgain g net passes k used with
  | none =>
    have hcalls : c.fetchCalls g net passes depth k used <+: [c] := fetchCalls_of_last hagain
    have hlen : (c.fetchCalls g net passes depth k used).length ≤ 1 := hcalls.length_le
    refine ⟨hlen.trans (by decide), (List.length_filter_le _ _).trans hlen, fun _ => hlen, hdepth,
      fun c' used' hret => returned_of_fetch hret⟩
  | some p =>
    obtain ⟨c₁, used₁⟩ := p
    obtain ⟨hreuse, hsock, -⟩ := fetchAgain_cases hagain
    have hcalls : c.fetchCalls g net passes depth k used <+: [c, c₁] := fetchCalls_of_again hagain
    refine ⟨hcalls.length_le, ?_, fun hnone => ?_, hdepth,
      fun c' used' hret => returned_of_fetch hret⟩
    · -- The first call has a socket.
      have hfilter : [c, c₁].filter (fun c => c.socket.isNone) = [c₁] := by
        rw [List.filter_cons_of_neg (by simp [Option.isSome_iff_ne_none.mp hreuse]),
          List.filter_cons_of_pos (by simp [hsock]), List.filter_nil]
      have hle := (hcalls.sublist.filter fun c => c.socket.isNone).length_le
      rw [hfilter] at hle
      exact hle
    · rw [hnone] at hreuse
      cases hreuse

end

end FastClient

end IstioVendor.Fhttp
