import IstioVendor.Proofs.Fhttp.ReadLoop

/-!
# `IstioVendor.Proofs.Fhttp.Termination`: when `readResponse` ends, and when it panics

Only a chunked response can keep the loop of `readResponse` going for ever, or make it
panic. What decides is the walk along the chunks in the first `len` bytes of the stream, for
a buffer of `len` bytes. `ChunksEnd` says that the walk comes to an end that the loop
notices: a chunk at which the client stops, a position below zero, or a place where it waits
while the buffer has room.

`exists_responds` is the termination of the loop under this condition. The measure is the
number of bytes that are still to come, and for passes that do not read, the rest of the
walk. `Served.chunks_cases` is the other direction: when `readResponse` ends, the walk has come
to such an end.

`readResponse_ends_iff` and `readResponse_inBounds_iff` put the two together. A chunk that
does not fit into the buffer as the first chunk is the first kind of endless loop, and a
chunk size that wraps around so that the walk stays where it is the second. A chunk size
that wraps below zero is the panic.
-/

set_option autoImplicit false

namespace IstioVendor.Fhttp

open Lib

/-! ### The measure -/

/-- What a pass without a read goes down to: the next chunk of the walk, or no look at a
chunk any more. -/
def Sooner (data : Bytes) (len : Nat) : Option Int → Option Int → Prop
  | some m', some m => ChunkStep data len m m'
  | none, some _ => True
  | _, none => False

theorem acc_sooner_none (data : Bytes) (len : Nat) : Acc (Sooner data len) none :=
  ⟨_, fun y hy => by cases y <;> exact hy.elim⟩

variable {len r : Nat} {out : Outcome} {start : Int} {c : FastClient} {conn : Conn} {g : Settings}

/-- A walk that comes to an end is finite. Induction on the walk from its head. -/
theorem ChunkWalk.acc {data : Bytes} {m e : Int} (h : ChunkWalk data len m e)
    (hend : ∀ x, ¬ ChunkStep data len e x) : Acc (Sooner data len) (some m) := by
  induction h using Relation.ReflTransGen.head_induction_on with
  | refl =>
    refine ⟨_, fun y hy => ?_⟩
    cases y with
    | none => exact acc_sooner_none data len
    | some m' => exact absurd hy (hend m')
  | head hstep _ ih =>
    refine ⟨_, fun y hy => ?_⟩
    cases y with
    | none => exact acc_sooner_none data len
    | some m' =>
      -- The walk is deterministic, so the step is the one on the way to the end.
      obtain rfl := ChunkStep.unique hstep hy
      exact ih

/-- The walk from `start` in the bytes that the buffer can hold comes to an end that the
client notices. -/
def ChunksEnd (stream : Bytes) (len : Nat) (start : Int) : Prop :=
  ∃ m, ChunkWalk (stream.take len) len start m ∧
    (ChunkStopAt (stream.take len) len m ∨ m < 0 ∨
      stream.length < len ∧ ChunkWaitAt (stream.take len) m)

theorem not_step_of_end {data : Bytes} {m : Int}
    (h : ChunkStopAt data len m ∨ m < 0 ∨ ChunkWaitAt data m) (x : Int) :
    ¬ ChunkStep data len m x := by
  rcases h with h | h | h
  · exact h.not_step
  · rintro ⟨d, v, hc, _⟩
    exact not_chunkAt_neg h hc
  · exact h.not_step

section
variable {g : Settings} {reused : Bool} {c₀ : FastClient} {conn₀ : Conn} {st : Reading}

/-- Every walk along the chunks that the client takes comes to such an end. -/
def WalksEnd (g : Settings) (c₀ : FastClient) (conn₀ : Conn) : Prop :=
  c₀.parseHeaders = true → c₀.keepAlive = true → ∀ h r keep start,
    Headed g conn₀.pending c₀.buffer.length h r (.chunks keep start) →
    ChunksEnd conn₀.pending.flatten c₀.buffer.length start

/-- A walk in the data received is a walk in the bytes that the buffer can hold. -/
theorem Base.walk_mono (hb : Base c₀ conn₀ st) {a b : Int}
    (h : ChunkWalk st.c.data st.c.buffer.length a b) :
    ChunkWalk (conn₀.pending.flatten.take c₀.buffer.length) c₀.buffer.length a b := by
  obtain ⟨more, hmore⟩ := hb.extends
  rw [hmore, ← hb.length]
  exact h.mono

theorem Inv.chunksEnd (h : Inv g c₀ conn₀ st) (hends : WalksEnd g c₀ conn₀) {keep : Bool}
    (hbody : Body g conn₀.pending st r (.chunks keep start)) :
    ChunksEnd conn₀.pending.flatten c₀.buffer.length start :=
  hends (h.base.setup.parseHeaders ▸ hbody.parse) (h.base.setup.keepAlive ▸ hbody.client) _ r keep
    start (h.base.length ▸ hbody.headed)

/-- Where the loop looks at a chunk, the rest of the walk is finite. -/
theorem Inv.acc (h : Inv g c₀ conn₀ st) (hends : WalksEnd g c₀ conn₀) :
    Acc (Sooner (conn₀.pending.flatten.take c₀.buffer.length) c₀.buffer.length)
      (if st.skipRead then some st.max else none) := by
  -- A pass that reads needs no walk: the bytes to come get fewer.
  cases hskip : st.skipRead with
  | false => exact acc_sooner_none _ _
  | true =>
    cases h.phase with
    | looking hl => exact absurd (hl.skip.symm.trans hskip) (by decide)
    | closing hc => exact absurd (hc.skip.symm.trans hskip) (by decide)
    | length _ _ _ _ _ hs => exact absurd (hs.symm.trans hskip) (by decide)
    | chunks r keep start hbody hw =>
      obtain ⟨e, hwalk, hend⟩ := h.chunksEnd hends hbody
      have hstuck := not_step_of_end (hend.imp_right (Or.imp_right And.right))
      have hmax := h.base.walk_mono hw.walk
      -- The end lies behind the position of the loop, on the same walk.
      rcases hmax.linear hwalk with hlt | hgt
      · exact ChunkWalk.acc hlt hstuck
      · rcases hgt.cases_head with rfl | ⟨x, hx, _⟩
        · exact ChunkWalk.acc .refl hstuck
        · exact absurd hx (hstuck x)

/-- The full buffer does not hold the loop in front of a chunk. -/
theorem Inv.not_spin (h : Inv g c₀ conn₀ st) (hends : WalksEnd g c₀ conn₀)
    (hfull : st.c.size = st.c.buffer.length) (hchunked : st.chunkedMode = true)
    (hskip : st.skipRead = false) : False := by
  cases h.phase with
  | looking hl => exact absurd (hl.chunked.symm.trans hchunked) (by decide)
  | closing hc => exact absurd (hc.chunked.symm.trans hchunked) (by decide)
  | length _ _ _ _ hc => exact absurd (hc.symm.trans hchunked) (by decide)
  | chunks r keep start hbody hw =>
    obtain ⟨e, hwalk, hend⟩ := h.chunksEnd hends hbody
    have hstuck := not_step_of_end (hend.imp_right (Or.imp_right And.right))
    have hdata : st.c.data = conn₀.pending.flatten.take c₀.buffer.length := by
      rw [h.base.take, hfull, h.base.length]
    rcases hw.next with ⟨hs, _⟩ | ⟨_, hwait⟩
    · exact absurd (hs.symm.trans hskip) (by decide)
    · rw [hdata] at hwait
      obtain rfl := hwalk.end_unique (h.base.walk_mono hw.walk) hstuck
        (fun _ => hwait.not_step)
      -- The loop stands at the end of the walk and waits, which is neither a stop nor below zero,
      -- and a full buffer leaves no room.
      rcases hend with ⟨d, v, hc, _⟩ | hneg | ⟨hroom, _⟩
      · exact hwait.not_chunkAt hc
      · rcases hwait with hlt | ⟨hge, _⟩ <;> omega
      · have := h.base.readEnd.le_length
        rw [hfull, h.base.length] at this
        omega

/-- The loop ends when the walks of its chunks come to an end. -/
theorem exists_responds (reused : Bool) (hs : Starting c₀ conn₀) (hends : WalksEnd g c₀ conn₀) :
    ∃ out, Responds g c₀ conn₀ reused out := by
  refine Loop.exists_leaves_of_lex (fun st => st.conn.pending.flatten.length)
    (fun st => if st.skipRead then some st.max else none)
    (fun st (hinv : Inv g c₀ conn₀ st) => hinv.acc hends) (fun st st' hinv heq => ?_)
    _ (inv_start hs)
  rcases pass_cases reused hinv with ⟨st'', heq', hinv', hprog⟩ | ⟨out, heq', _⟩
  · obtain rfl := (Pass.again.injEq _ _).mp (heq'.symm.trans heq)
    refine ⟨hinv', ?_⟩
    -- A read is a step down in the first component, a look at a chunk in the second one.
    cases hprog with
    | read hlt => exact .inl hlt
    | look hconn hskip hstep =>
      refine .inr ⟨by rw [hconn], ?_⟩
      rw [hskip, if_pos rfl]
      cases hskip' : st''.skipRead with
      | false => trivial
      | true =>
        obtain ⟨more, hmore⟩ := hinv.base.extends
        rw [hmore, ← hinv.base.length]
        exact (hstep hskip').mono
    | spin hfull hchunked hskip => exact (hinv.not_spin hends hfull hchunked hskip).elim
  · exact nomatch heq'.symm.trans heq

/-- When `readResponse` ends in a chunked response, the walk has come to an end: below zero
in a panic, and elsewhere in every other result. -/
theorem Served.chunks_cases {keep : Bool} (h : Served g c₀ conn₀ r (.chunks keep start) out) :
    ∃ m, ChunkWalk (conn₀.pending.flatten.take c₀.buffer.length) c₀.buffer.length start m ∧
      (out = .panic ∧ m < 0 ∨ out ≠ .panic ∧
        (ChunkStopAt (conn₀.pending.flatten.take c₀.buffer.length) c₀.buffer.length m ∨
          conn₀.pending.flatten.length < c₀.buffer.length ∧
            ChunkWaitAt (conn₀.pending.flatten.take c₀.buffer.length) m)) := by
  -- While the buffer has room, it can hold the whole stream.
  have hwaits : conn₀.pending.flatten.length < c₀.buffer.length →
      (Framing.chunks keep start).Waits c₀.buffer.length conn₀.pending.flatten →
      ∃ m, ChunkWalk (conn₀.pending.flatten.take c₀.buffer.length) c₀.buffer.length start m ∧
        ChunkWaitAt (conn₀.pending.flatten.take c₀.buffer.length) m := fun hroom hw => by
    rw [List.take_of_length_le (Nat.le_of_lt hroom)]
    exact hw
  cases h with
  | panic keep' start' m heq walk neg =>
    obtain ⟨-, rfl⟩ := (Framing.chunks.injEq ..).mp heq
    exact ⟨m, walk, .inl ⟨rfl, neg⟩⟩
  | blocked room waits =>
    obtain ⟨m, hwalk, hwait⟩ := hwaits room waits
    exact ⟨m, hwalk, .inr ⟨nofun, .inr ⟨room, hwait⟩⟩⟩
  | failed c conn room waits =>
    obtain ⟨m, hwalk, hwait⟩ := hwaits room waits
    exact ⟨m, hwalk, .inr ⟨nofun, .inr ⟨room, hwait⟩⟩⟩
  | eof c conn room waits =>
    obtain ⟨m, hwalk, hwait⟩ := hwaits room waits
    exact ⟨m, hwalk, .inr ⟨nofun, .inr ⟨room, hwait⟩⟩⟩
  | done s c conn le now before final =>
    obtain ⟨m, hwalk, hstop⟩ := now.mono_take final.readEnd.le
    exact ⟨m, hwalk, .inr ⟨nofun, .inl hstop⟩⟩

/-- A walk that falls below zero has come to its end there. -/
theorem chunksEnd_of_neg {stream : Bytes} {m : Int}
    (hwalk : ChunkWalk (stream.take len) len start m) (hneg : m < 0) : ChunksEnd stream len start :=
  ⟨m, hwalk, .inr (.inl hneg)⟩

/-- No walk along the chunks that the client takes leads below zero. -/
def WalksInside (g : Settings) (c₀ : FastClient) (conn₀ : Conn) : Prop :=
  c₀.parseHeaders = true → c₀.keepAlive = true → ∀ h r keep start m,
    Headed g conn₀.pending c₀.buffer.length h r (.chunks keep start) →
    ChunkWalk (conn₀.pending.flatten.take c₀.buffer.length) c₀.buffer.length start m → 0 ≤ m

end

theorem readResponse_eq_some_iff {reused : Bool} :
    (∃ passes, c.readResponse g passes conn reused = some out) ↔ Responds g c conn reused out :=
  Loop.leaves_iff_run.symm

/-- When `readResponse` has ended, the walks have come to their ends. -/
theorem walksEnd_of_responds {reused : Bool} (hs : Starting c conn)
    (hout : Responds g c conn reused out) : WalksEnd g c conn := by
  intro hparse hkeep h r keep start hh
  obtain ⟨m, hwalk, ⟨_, hneg⟩ | ⟨_, hend⟩⟩ :=
    ((responds_ended hs hout).served hparse hkeep hh).chunks_cases
  · exact chunksEnd_of_neg hwalk hneg
  · exact ⟨m, hwalk, hend.imp_right .inr⟩

/-- When the response is complete after some read, `readResponse` returns after the first
such read. -/
theorem exists_done (reused : Bool) {h s : Nat} {f : Framing} (hs : Starting c conn)
    (hparse : c.parseHeaders = true) (hkeep : c.keepAlive = true)
    (hh : Headed g conn.pending c.buffer.length h r f)
    (hend : ReadEnd conn.pending c.buffer.length s) (hr : r ≤ s)
    (hdone : f.Done c.buffer.length (conn.pending.flatten.take s)) :
    ∃ s' c' conn', Responds g c conn reused (.returned c' conn') ∧ r ≤ s' ∧ s' ≤ s ∧
      f.Done c.buffer.length (conn.pending.flatten.take s') ∧
      Final c conn s' statusOK f.keep c' conn' := by
  have hall : f.Done c.buffer.length (conn.pending.flatten.take c.buffer.length) :=
    hdone.mono_take hend.le
  have hends : WalksEnd g c conn := fun _ _ _ _ _ _ hh' => by
    obtain ⟨_, _, rfl⟩ := hh.unique hh'
    obtain ⟨m, hwalk, hstop⟩ := hall
    exact ⟨m, hwalk, .inl hstop⟩
  have hwaits : conn.pending.flatten.length < c.buffer.length →
      ¬ f.Waits c.buffer.length conn.pending.flatten := fun hroom hw => by
    rw [List.take_of_length_le (Nat.le_of_lt hroom)] at hall
    exact hw.not_done hall
  obtain ⟨out, hout⟩ := exists_responds reused hs hends
  -- Of all results only `done` is possible: the walk stops at a chunk, so it neither falls below
  -- zero nor waits.
  cases (responds_ended hs hout).served hparse hkeep hh with
  | panic keep start m heq walk neg =>
    subst heq
    obtain ⟨m', hwalk, hstop⟩ := hall
    obtain rfl := walk.end_unique hwalk (not_step_of_end (.inr (.inl neg)))
      (fun _ => hstop.not_step)
    obtain ⟨d, v, hc, _⟩ := hstop
    exact absurd hc (not_chunkAt_neg neg)
  | blocked room waits => exact absurd waits (hwaits room)
  | failed _ _ room waits => exact absurd waits (hwaits room)
  | eof _ _ room waits => exact absurd waits (hwaits room)
  | done s' c' conn' le now before final =>
    refine ⟨s', c', conn', hout, le, ?_, now, final⟩
    -- The loop returns after the first read that completes the response.
    by_contra hgt
    exact before s hend hr (by omega) hdone

/-! ### The results -/

/-- `readResponse` ends, in finitely many passes of its loop, exactly when every walk along
the chunks that it takes comes to an end that it notices. -/
theorem readResponse_ends_iff (g : Settings) (reused : Bool) (c : FastClient) (conn : Conn)
    (hs : Starting c conn) :
    (∃ passes, (c.readResponse g passes conn reused).isSome) ↔ WalksEnd g c conn := by
  constructor
  · rintro ⟨passes, hsome⟩
    obtain ⟨out, hout⟩ := Option.isSome_iff_exists.mp hsome
    exact walksEnd_of_responds hs (readResponse_eq_some_iff.mp ⟨passes, hout⟩)
  · intro hends
    obtain ⟨out, hout⟩ := exists_responds reused hs hends
    obtain ⟨passes, heq⟩ := readResponse_eq_some_iff.mpr hout
    exact ⟨passes, by rw [heq]; rfl⟩

/-- The settings of a client that does not look for `connection: close` and logs little. -/
def quiet : Settings := ⟨false, false, false⟩

/-- A response with a content length, in one piece. -/
def greeting : List Bytes := [ascii "HTTP/1.1 200 OK\r\nContent-Length: 2\r\n\r\nhi"]

theorem headed_greeting : Headed quiet greeting 64 38 40 (.length true 40) := by decide +kernel

theorem readResponse_ends_greeting :
    ∃ passes, ((FastClient.idle 64 (by decide)).readResponse quiet passes
      (.arriving greeting (some .eof) (by decide)) false).isSome :=
  (readResponse_ends_iff quiet false _ _ starting_idle).mpr
    fun _ _ _ _ _ _ hh => nomatch (hh.unique headed_greeting).2.2

/-- A chunked response whose first chunk does not fit into a buffer of 60 bytes. -/
def largeChunk : List Bytes :=
  [ascii "HTTP/1.1 200 OK\r\nTransfer-Encoding: chunked\r\n\r\n14\r\nabcdefghijklmnopqrst\r\n0\r\n\r\n"]

/-- The client waits at the end of its full buffer for the next size line, for ever. -/
theorem readResponse_largeChunk_endless :
    ¬ ∃ passes, ((FastClient.idle 60 (by decide)).readResponse quiet passes
      (.arriving largeChunk (some .eof) (by decide)) false).isSome := by
  rintro ⟨passes, hsome⟩
  obtain ⟨out, hout⟩ := Option.isSome_iff_exists.mp hsome
  have hends := walksEnd_of_responds starting_idle (readResponse_eq_some_iff.mp ⟨passes, hout⟩)
  have hh : Headed quiet largeChunk 60 47 60 (.chunks true 60) := by decide +kernel
  obtain ⟨m, hwalk, hend⟩ := hends rfl rfl _ _ _ _ hh
  have hwait : ChunkWaitAt (largeChunk.flatten.take 60) 60 := .inr (by decide +kernel)
  -- The walk starts where the client waits, so it ends there.
  obtain rfl := hwalk.end_unique .refl
    (not_step_of_end (hend.imp_right (Or.imp_right And.right))) (fun _ => hwait.not_step)
  rcases hend with ⟨d, v, hc, _⟩ | hneg | ⟨hroom, _⟩
  · exact hwait.not_chunkAt hc
  · exact absurd hneg (by decide)
  · exact absurd hroom (by decide +kernel)

/-- Every slice expression that `readResponse` evaluates is in bounds exactly when no walk
along the chunks leads below zero. -/
theorem readResponse_inBounds_iff (g : Settings) (reused : Bool) (c : FastClient) (conn : Conn)
    (hs : Starting c conn) :
    (∀ passes, c.readResponse g passes conn reused ≠ some .panic) ↔ WalksInside g c conn := by
  constructor
  · intro hno hparse hkeep h r keep start m hh hwalk
    by_contra hneg
    have hends : WalksEnd g c conn := fun _ _ _ _ _ _ hh' => by
      obtain ⟨_, _, heq⟩ := hh.unique hh'
      obtain ⟨-, rfl⟩ := (Framing.chunks.injEq ..).mp heq
      exact chunksEnd_of_neg hwalk (by omega)
    obtain ⟨out, hout⟩ := exists_responds reused hs hends
    obtain ⟨m', hwalk', ⟨rfl, _⟩ | ⟨_, hend⟩⟩ :=
      ((responds_ended hs hout).served hparse hkeep hh).chunks_cases
    · obtain ⟨passes, heq⟩ := readResponse_eq_some_iff.mpr hout
      exact hno passes heq
    · -- A walk has one end, and this one is not below zero.
      obtain rfl := hwalk.end_unique hwalk' (not_step_of_end (.inr (.inl (by omega))))
        (not_step_of_end (hend.imp_right fun h => .inr h.2))
      rcases hend with ⟨d, v, hc, _⟩ | ⟨_, hlt | ⟨hge, _⟩⟩
      · exact not_chunkAt_neg (by omega) hc
      · omega
      · exact hneg hge
  · intro hin passes heq
    cases responds_ended hs (readResponse_eq_some_iff.mp ⟨passes, heq⟩) with
    | panic h r keep start m parse keepAlive headed walk neg =>
      have := hin parse keepAlive h r keep start m headed walk
      omega

theorem readResponse_inBounds_greeting :
    ∃ out, (FastClient.idle 64 (by decide)).readResponse quiet 2
      (.arriving greeting (some .eof) (by decide)) false = some out ∧ out ≠ .panic := by
  have hsome : ((FastClient.idle 64 (by decide)).readResponse quiet 2
      (.arriving greeting (some .eof) (by decide)) false).isSome := by decide +kernel
  obtain ⟨out, hout⟩ := Option.isSome_iff_exists.mp hsome
  have hbounds := (readResponse_inBounds_iff quiet false (.idle 64 (by decide))
    (.arriving greeting (some .eof) (by decide)) starting_idle).mpr
      fun _ _ _ _ _ _ _ hh => nomatch (hh.unique headed_greeting).2.2
  exact ⟨out, hout, fun hpanic => hbounds 2 (hpanic ▸ hout)⟩

/-- A chunked response whose second chunk announces a size of `2 ^ 63`, which is negative as
an `int`. -/
def wrappedSize : List Bytes :=
  [ascii "HTTP/1.1 200 OK\r\nTransfer-Encoding: chunked\r\n\r\n1\r\nA\r\n8000000000000000\r\n"]

theorem readResponse_wrappedSize_panics :
    (FastClient.idle 200 (by decide)).readResponse quiet 3
      (.arriving wrappedSize (some .eof) (by decide)) false = some .panic := by
  decide +kernel

end IstioVendor.Fhttp
