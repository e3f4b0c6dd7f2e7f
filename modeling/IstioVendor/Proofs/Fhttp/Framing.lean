import IstioVendor.Proofs.Fhttp.HeaderScan
import IstioVendor.Proofs.Fhttp.HttpUtils
import Mathlib.Logic.Relation

/-!
# `IstioVendor.Proofs.Fhttp.Framing`: how the fast client frames a body

Once the headers are found, `readResponse` decides how many bytes it waits for. `framing` is
that decision as a function of the bytes received: no length, a content length, or chunks
from a first position on. `frameBody_cases` says that `frameBody` computes it, and that no
slice expression in it is out of bounds.

In chunked mode the client goes from chunk to chunk. `ChunkStep data len m m'` says that the
chunk whose size line stands at `m` ends at `m'`, and `ChunkWalk` is the walk along these
positions. The walk stops at a chunk of size zero and at a chunk that does not fit into the
buffer (`ChunkStopAt`). It waits where the size line is not complete (`ChunkWaitAt`). The
sizes are read with wrapping arithmetic, so a step may lead backwards, or below zero, where
the client panics. `checkMax_cases` says that the end of a pass takes one step of the walk.

A walk on a part of the stream is a walk on the whole stream (`ChunkWalk.mono`), and a walk
has at most one end (`ChunkWalk.end_unique`).
-/

set_option autoImplicit false

namespace IstioVendor.Fhttp

open Lib

/-! ### Slices inside the buffer -/

theorem slice_nat (b : Bytes) (lo hi : Nat) (hlo : lo ≤ hi) (hhi : hi ≤ b.length) :
    slice b lo hi = .ok ((b.take hi).drop lo) := by
  unfold slice
  rw [if_pos ⟨by omega, by omega, by omega⟩]
  simp

theorem logSlice_nat (cond : Bool) (b : Bytes) (lo hi : Nat) (hlo : lo ≤ hi)
    (hhi : hi ≤ b.length) : logSlice cond b lo hi = .ok () := by
  unfold logSlice
  cases cond with
  | false => rfl
  | true => simp [slice_nat b lo hi hlo hhi, Except.map]

theorem slice_neg (b : Bytes) (lo hi : Int) (h : lo < 0) : slice b lo hi = .error .panic := by
  unfold slice
  rw [if_neg (by omega)]

/-! ### The walk along the chunks -/

/-- The chunk whose size line stands at `m`: its size line has the length `d` and announces
the size `v`. -/
def ChunkAt (data : Bytes) (m : Int) (d : Nat) (v : Int) : Prop :=
  0 ≤ m ∧ m ≤ data.length ∧ parseChunkSize (data.drop m.toNat) = (d, v) ∧ v ≠ -1

/-- The position after the chunk at `m`, in the arithmetic of the client. -/
def chunkEnd (m : Int) (d : Nat) (v : Int) : Int := int64 (m + d + v + 2)

/-- One step of the walk: the chunk at `m` is not the last one, and it ends at `m'` inside a
buffer of `len` bytes. -/
def ChunkStep (data : Bytes) (len : Nat) (m m' : Int) : Prop :=
  ∃ d v, ChunkAt data m d v ∧ v ≠ 0 ∧ m' = chunkEnd m d v ∧ m' ≤ len

/-- The client stops at the chunk at `m`: it is the last one, or it does not fit. -/
def ChunkStopAt (data : Bytes) (len : Nat) (m : Int) : Prop :=
  ∃ d v, ChunkAt data m d v ∧ (v = 0 ∨ (len : Int) < chunkEnd m d v)

/-- The walk from chunk to chunk. -/
def ChunkWalk (data : Bytes) (len : Nat) : Int → Int → Prop :=
  Relation.ReflTransGen (ChunkStep data len)

/-- The client waits for more bytes at `m`. -/
def ChunkWaitAt (data : Bytes) (m : Int) : Prop :=
  (data.length : Int) < m ∨ 0 ≤ m ∧ (parseChunkSize (data.drop m.toNat)).2 = -1

/-- The walk from `m` comes to a chunk at which the client stops. -/
def ChunkStop (data : Bytes) (len : Nat) (m : Int) : Prop :=
  ∃ m', ChunkWalk data len m m' ∧ ChunkStopAt data len m'

variable {d len : Nat} {data more : Bytes} {m v a b : Int}

theorem ChunkAt.unique {d' : Nat} {v' : Int} (h : ChunkAt data m d v) (h' : ChunkAt data m d' v') :
    d = d' ∧ v = v' := by
  have := h.2.2.1.symm.trans h'.2.2.1
  simpa using this

/-- The size line lies inside the data. -/
theorem ChunkAt.end_le (h : ChunkAt data m d v) : m.toNat + d ≤ data.length := by
  obtain ⟨_, hle, hp, hne⟩ := h
  have hbound := (parseChunkSize_bound (data.drop m.toNat) (by rw [hp]; exact hne)).2
  rw [hp, List.length_drop] at hbound
  omega

theorem ChunkStep.unique (ha : ChunkStep data len m a) (hb : ChunkStep data len m b) : a = b := by
  obtain ⟨d, v, hc, _, rfl, _⟩ := ha
  obtain ⟨d', v', hc', _, rfl, _⟩ := hb
  obtain ⟨rfl, rfl⟩ := hc.unique hc'
  rfl

/-- A step leads nowhere from a chunk at which the client stops. -/
theorem ChunkStopAt.not_step {m' : Int} (h : ChunkStopAt data len m) :
    ¬ ChunkStep data len m m' := by
  rintro ⟨d, v, hc, hv, rfl, hle⟩
  obtain ⟨d', v', hc', hstop⟩ := h
  obtain ⟨rfl, rfl⟩ := hc.unique hc'
  rcases hstop with h0 | hbig
  · exact hv h0
  · omega

/-- A step leads nowhere from a place where the client waits. -/
theorem ChunkWaitAt.not_chunkAt (h : ChunkWaitAt data m) : ¬ ChunkAt data m d v := by
  rintro ⟨h0, hle, hp, hv⟩
  rcases h with hlt | ⟨_, hwait⟩
  · omega
  · rw [hp] at hwait
    exact hv hwait

theorem ChunkWaitAt.not_step {m' : Int} (h : ChunkWaitAt data m) : ¬ ChunkStep data len m m' :=
  fun ⟨_, _, hc, _⟩ => h.not_chunkAt hc

theorem not_chunkAt_neg (h : m < 0) : ¬ ChunkAt data m d v := fun hc => by
  have := hc.1
  omega

/-- Two walks from one place lie on one line. -/
theorem ChunkWalk.linear (ha : ChunkWalk data len m a) (hb : ChunkWalk data len m b) :
    ChunkWalk data len a b ∨ ChunkWalk data len b a :=
  Relation.ReflTransGen.total_of_right_unique (fun _ _ _ h h' => h.unique h') ha hb

/-- A walk that reaches a place without a further step has reached the end of every walk. -/
theorem ChunkWalk.end_unique (ha : ChunkWalk data len m a) (hb : ChunkWalk data len m b)
    (hna : ∀ x, ¬ ChunkStep data len a x) (hnb : ∀ x, ¬ ChunkStep data len b x) : a = b := by
  -- One of the walks continues the other, and the one that is shorter has no step left.
  rcases ha.linear hb with h | h
  · rcases h.cases_head with rfl | ⟨x, hx, _⟩
    · rfl
    · exact absurd hx (hna x)
  · rcases h.cases_head with rfl | ⟨x, hx, _⟩
    · rfl
    · exact absurd hx (hnb x)

/-- Induction along the walk to the chunk at which the client stops, from that chunk back. -/
theorem ChunkStop.induction {P : Int → Prop} (h : ChunkStop data len m)
    (stop : ∀ x d v, ChunkWalk data len m x → ChunkAt data x d v →
      (v = 0 ∨ (len : Int) < chunkEnd x d v) → P x)
    (step : ∀ x d v, ChunkWalk data len m x → ChunkAt data x d v → P (chunkEnd x d v) → P x) :
    P m := by
  obtain ⟨e, hwalk, d, v, hc, hstop⟩ := h
  have hall : ∀ x, ChunkWalk data len x e → ChunkWalk data len m x → P x := by
    intro x hx
    induction hx using Relation.ReflTransGen.head_induction_on with
    | refl => exact fun hpre => stop e d v hpre hc hstop
    | head hstep _ ih =>
      intro hpre
      have hnext := ih (hpre.tail hstep)
      obtain ⟨d, v, hc, _, rfl, _⟩ := hstep
      exact step _ d v hpre hc hnext
  exact hall m hwalk .refl

/-- A chunk does not change when more bytes arrive. -/
theorem ChunkAt.mono (h : ChunkAt data m d v) : ChunkAt (data ++ more) m d v := by
  obtain ⟨h0, hle, hp, hv⟩ := h
  refine ⟨h0, by rw [List.length_append]; omega, ?_, hv⟩
  rw [List.drop_append_of_le_length (by omega), parseChunkSize_append _ _ (by rw [hp]; exact hv)]
  exact hp

theorem ChunkStep.mono (h : ChunkStep data len a b) : ChunkStep (data ++ more) len a b := by
  obtain ⟨d, v, hc, hrest⟩ := h
  exact ⟨d, v, hc.mono, hrest⟩

theorem ChunkWalk.mono (h : ChunkWalk data len a b) : ChunkWalk (data ++ more) len a b := by
  induction h with
  | refl => exact .refl
  | tail _ hstep ih => exact ih.tail hstep.mono

theorem ChunkStop.mono (h : ChunkStop data len m) : ChunkStop (data ++ more) len m := by
  obtain ⟨m', hw, d, v, hc, hstop⟩ := h
  exact ⟨m', hw.mono, d, v, hc.mono, hstop⟩

/-- Where the walk waits, it does not stop. -/
theorem ChunkWalk.not_stop_of_wait (hw : ChunkWalk data len m a) (hwait : ChunkWaitAt data a) :
    ¬ ChunkStop data len m := by
  rintro ⟨b, hb, hstop⟩
  obtain rfl := hw.end_unique hb (fun _ => hwait.not_step) (fun _ => hstop.not_step)
  obtain ⟨d, v, hc, _⟩ := hstop
  exact hwait.not_chunkAt hc

/-! ### The decision after the headers -/

/-- How the client frames the body. `chunks` holds the position of the first size line that
it will look at in the main loop: behind the first chunk when that chunk was read with the
headers, else the end of the headers. -/
inductive Framing where
  | unframed
  | length (keep : Bool) (max : Int)
  | chunks (keep : Bool) (start : Int)
deriving DecidableEq

/-- `max` after the clamp to a buffer of `len` bytes and the look for a closing server, and
whether the connection is kept. -/
def limited (g : Settings) (headers : Bytes) (len : Nat) (max : Int) : Bool × Int :=
  if g.checkConnectionClosedHeader ∧ (foldFind headers connectionCloseHeader).isSome then
    (false, len)
  else (true, min max len)

/-- The framing that the client reads from the received bytes `data`, of which the first
`headerLen` are the headers, with a buffer of `len` bytes. -/
def framing (g : Settings) (len : Nat) (data : Bytes) (headerLen : Nat) : Framing :=
  match foldFind (data.take headerLen) contentLengthHeader with
  | some offset =>
    let n := parseDecimal ((data.take headerLen).drop (offset + contentLengthHeader.length))
    if n < 0 then .unframed
    else
      let lim := limited g (data.take headerLen) len (int64 (headerLen + n))
      .length lim.1 lim.2
  | none =>
    if (foldFind (data.take headerLen) chunkedHeader).isSome then
      let chunk := parseChunkSize (data.drop headerLen)
      if chunk.2 = -1 then .chunks true headerLen
      else
        let lim := limited g (data.take headerLen) len
          (int64 (headerLen + chunk.1 + chunk.2 + 2))
        .chunks lim.1 lim.2
    else .unframed

theorem limited_le (g : Settings) (headers : Bytes) (len : Nat) (max : Int) :
    (limited g headers len max).2 ≤ len := by
  unfold limited
  split
  · exact Int.le_refl _
  · exact min_le_right _ _

/-- The client never waits for more bytes than the buffer holds. -/
theorem framing_length_le {g : Settings} {headerLen : Nat} {keep : Bool} {max : Int}
    (h : framing g len data headerLen = .length keep max) : max ≤ len := by
  unfold framing at h
  split at h
  · dsimp only at h
    split at h
    · exact nomatch h
    · obtain ⟨-, rfl⟩ := (Framing.length.injEq ..).mp h
      exact limited_le _ _ _ _
  · split at h
    · dsimp only at h
      split at h <;> exact nomatch h
    · exact nomatch h

/-- What `frameBody` does with a framing. -/
def Framing.apply (st : Reading) : Framing → Except Exit Reading
  | .unframed => .error (.brk { st with keepAlive := false })
  | .length keep max => .ok { st with keepAlive := keep, max := max }
  | .chunks keep start => .ok { st with chunkedMode := true, keepAlive := keep, max := start }

theorem limitMax_eq (g : Settings) (st : Reading) (hkeep : st.keepAlive = true)
    (hhl : st.c.headerLen ≤ st.c.buffer.length) :
    limitMax g st = .ok { st with
      keepAlive := (limited g (st.c.buffer.take st.c.headerLen) st.c.buffer.length st.max).1
      max := (limited g (st.c.buffer.take st.c.headerLen) st.c.buffer.length st.max).2 } := by
  unfold limitMax limited
  have hslice := slice_nat st.c.buffer 0 st.c.headerLen (Nat.zero_le _) hhl
  -- The clamp is a minimum.
  have hmin : (if (st.c.buffer.length : Int) < st.max
      then { st with max := st.c.buffer.length } else st)
        = { st with max := min st.max st.c.buffer.length } := by
    split
    · rw [min_eq_right (by omega)]
    · rw [min_eq_left (by omega)]
  simp only [hmin]
  cases hc : g.checkConnectionClosedHeader with
  | false => simp [hkeep]
  | true =>
    simp only [Nat.cast_zero] at hslice
    simp only [hslice, if_true, List.drop_zero, true_and]
    show (if _ then _ else _) = _
    split
    · simp
    · simp [hkeep]

/-- The byte that agrees with a colon up to case is a colon. -/
theorem eq_colon_of_foldDiffers (h : UInt8) (hh : foldDiffers h 58 = false) : h = 58 := by
  -- A check of all bytes: only the colon itself and the byte `0x1a` differ from a colon in the
  -- case bit at most, and the latter is a control character.
  have key : ∀ n : Fin 256, foldDiffers (UInt8.ofFin n) 58 = false → UInt8.ofFin n = 58 := by
    decide +kernel
  exact key h.toFin hh

/-- The name of the content-length field is followed by at least the four bytes that end the
headers. -/
theorem contentLength_offset {headers : Bytes} {p offset : Nat}
    (hlen : headers.length = p + 4) (h1 : CrlfAt headers p) (h2 : CrlfAt headers (p + 2))
    (hm : FoldMatchAt headers contentLengthHeader offset) :
    offset + contentLengthHeader.length + 4 ≤ headers.length := by
  have hl : contentLengthHeader.length = 17 := rfl
  obtain ⟨hin, hall⟩ := hm
  -- The last byte of the name is the colon.
  have hcolon := hall 16 (by rw [hl]; omega)
  have hbyte := eq_colon_of_foldDiffers _ hcolon
  by_contra hgt
  -- The colon would be one of the last four bytes.
  rw [List.getD_eq_getElem?_getD] at hbyte
  obtain ⟨ha, hb⟩ := h1
  obtain ⟨hc, hd⟩ := h2
  obtain heq | heq | heq | heq : offset + 16 = p ∨ offset + 16 = p + 1 ∨ offset + 16 = p + 2 ∨
      offset + 16 = p + 2 + 1 := by omega
  · rw [heq, ha] at hbyte; exact absurd hbyte (by decide)
  · rw [heq, hb] at hbyte; exact absurd hbyte (by decide)
  · rw [heq, hc] at hbyte; exact absurd hbyte (by decide)
  · rw [heq, hd] at hbyte; exact absurd hbyte (by decide)

theorem FastClient.length_data (c : FastClient) : c.data.length = c.size := by
  have := c.size_le
  unfold FastClient.data
  rw [List.length_take]
  omega

theorem FastClient.take_buffer (c : FastClient) {n : Nat} (hn : n ≤ c.size) :
    c.buffer.take n = c.data.take n := by
  unfold FastClient.data
  rw [List.take_take, Nat.min_eq_left hn]

theorem FastClient.slice_data (c : FastClient) (lo hi : Nat) (hlo : lo ≤ hi)
    (hhi : hi ≤ c.size) : slice c.buffer lo hi = .ok ((c.data.take hi).drop lo) := by
  rw [slice_nat c.buffer lo hi hlo (hhi.trans c.size_le), c.take_buffer hhi]

/-- The content-length section computes `framing`, and all its slices are in bounds. When
the first size line has not arrived, it goes round the loop at once. -/
theorem frameBody_cases (g : Settings) (st : Reading) {p : Nat} (hkeep : st.keepAlive = true)
    (hp : st.c.headerLen = p + 4) (hsize : st.c.headerLen ≤ st.c.size)
    (h1 : CrlfAt st.c.data p) (h2 : CrlfAt st.c.data (p + 2)) :
    frameBody g st = (framing g st.c.buffer.length st.c.data st.c.headerLen).apply st ∨
      framing g st.c.buffer.length st.c.data st.c.headerLen = .chunks true st.c.headerLen ∧
        ChunkWaitAt st.c.data st.c.headerLen ∧
        frameBody g st = .error (.cont { st with chunkedMode := true, max := st.c.headerLen }) := by
  have hle : st.c.headerLen ≤ st.c.buffer.length := hsize.trans st.c.size_le
  have hheaders : slice st.c.buffer 0 st.c.headerLen = .ok (st.c.data.take st.c.headerLen) := by
    simpa using st.c.slice_data 0 st.c.headerLen (Nat.zero_le _) hsize
  have htake := st.c.take_buffer hsize
  have hlen : (st.c.data.take st.c.headerLen).length = p + 4 := by
    rw [List.length_take, st.c.length_data, Nat.min_eq_left hsize, hp]
  -- The headers themselves end with the blank line.
  have hget : ∀ i < p + 4, (st.c.data.take st.c.headerLen)[i]? = st.c.data[i]? := by
    intro i hi
    rw [List.getElem?_take, if_pos (by omega)]
  have h1' : CrlfAt (st.c.data.take st.c.headerLen) p :=
    ⟨by rw [hget p (by omega)]; exact h1.1, by rw [hget (p + 1) (by omega)]; exact h1.2⟩
  have h2' : CrlfAt (st.c.data.take st.c.headerLen) (p + 2) :=
    ⟨by rw [hget (p + 2) (by omega)]; exact h2.1, by rw [hget (p + 2 + 1) (by omega)]; exact h2.2⟩
  unfold frameBody framing
  simp only [hheaders, bind, Except.bind]
  cases hcl : foldFind (st.c.data.take st.c.headerLen) contentLengthHeader with
  | some offset =>
    have hm := ((foldFind_eq_some_iff _ _ (by decide) _).mp hcl).1
    -- The blank line keeps the name away from the end, which is what bounds the log slice.
    have hoff := contentLength_offset hlen h1' h2' hm
    have hnum := st.c.slice_data (offset + contentLengthHeader.length) st.c.headerLen
      (by omega) hsize
    have hlog := logSlice_nat true st.c.buffer (offset + 2)
      (offset + contentLengthHeader.length + 4) (by omega) (by omega)
    push_cast at hnum hlog
    simp only [hnum]
    by_cases hneg : parseDecimal ((st.c.data.take st.c.headerLen).drop
        (offset + contentLengthHeader.length)) < 0
    · left
      simp only [hneg, if_true, hlog, Framing.apply]
    · left
      simp only [hneg, if_false, Framing.apply]
      rw [limitMax_eq g _ (by exact hkeep) (by exact hle)]
      simp only [htake]
  | none =>
    by_cases hch : (foldFind (st.c.data.take st.c.headerLen) chunkedHeader).isSome = true
    · have hbody := st.c.slice_data st.c.headerLen st.c.size hsize (Nat.le_refl _)
      rw [List.take_of_length_le (by rw [st.c.length_data])] at hbody
      simp only [hch, if_true, hbody]
      -- Without the first size line the section ends the pass, which `Framing.apply` does not do.
      by_cases hno : (parseChunkSize (st.c.data.drop st.c.headerLen)).2 = -1
      · right
        simp only [hno, if_true]
        exact ⟨trivial, .inr ⟨by omega, by simpa using hno⟩, trivial⟩
      · left
        -- A size line has three bytes at least, so the log slice does not start behind its end.
        have hb := parseChunkSize_bound _ hno
        rw [List.length_drop, st.c.length_data] at hb
        have hlog := logSlice_nat true st.c.buffer st.c.headerLen
          (st.c.headerLen + (parseChunkSize (st.c.data.drop st.c.headerLen)).1 - 2)
          (by omega) (by have := st.c.size_le; omega)
        rw [Nat.cast_sub (by omega)] at hlog
        push_cast at hlog
        simp only [hno, if_false, hlog, Framing.apply]
        rw [limitMax_eq g _ (by exact hkeep) (by exact hle)]
        simp only [htake]
    · left
      have hlog := logSlice_nat g.logVerbose st.c.buffer 0 st.c.headerLen (Nat.zero_le _) hle
      push_cast at hlog
      simp only [hch, Bool.false_eq_true, if_false, hlog, Framing.apply]

/-! ### The end of a pass -/

/-- The last two bytes of a client that has received more than the headers. -/
theorem slice_tail (c : FastClient) (h : 2 ≤ c.size) :
    slice c.buffer (c.size - 2) c.size = .ok ((c.data.take c.size).drop (c.size - 2)) := by
  have := c.slice_data (c.size - 2) c.size (by omega) (Nat.le_refl _)
  rwa [Nat.cast_sub h] at this

/-- The look at the next chunk is one step of the walk. It panics below zero, and nowhere
else. -/
theorem nextChunk_cases (st : Reading) (hmax : st.max ≤ (st.c.size : Int))
    (hsize : 2 ≤ st.c.size) :
    (st.max < 0 ∧ nextChunk st = .error .panic) ∨
    (ChunkWaitAt st.c.data st.max ∧ nextChunk st = .error (.cont st)) ∨
    (∃ d v, ChunkAt st.c.data st.max d v ∧ v = 0 ∧ nextChunk st = .error (.brk st)) ∨
    (∃ d v, ChunkAt st.c.data st.max d v ∧ v ≠ 0 ∧
      (st.c.buffer.length : Int) < chunkEnd st.max d v ∧
      nextChunk st = .error (.brk { st with max := chunkEnd st.max d v })) ∨
    (∃ d v, ChunkAt st.c.data st.max d v ∧ v ≠ 0 ∧
      chunkEnd st.max d v ≤ st.c.buffer.length ∧
      nextChunk st = .error (.cont { st with
        max := chunkEnd st.max d v
        skipRead := decide (chunkEnd st.max d v ≤ (st.c.size : Int)) })) := by
  unfold nextChunk
  -- `max` is at most `size` here, so the slice `c.buffer[max:c.size]` fails below zero only.
  by_cases hneg : st.max < 0
  · exact .inl ⟨hneg, by rw [slice_neg _ _ _ hneg]; rfl⟩
  · right
    obtain ⟨m, hm⟩ : ∃ m : Nat, st.max = m := ⟨st.max.toNat, by omega⟩
    have hle : m ≤ st.c.size := by omega
    have hslice := st.c.slice_data m st.c.size hle (Nat.le_refl _)
    rw [List.take_of_length_le (by rw [st.c.length_data])] at hslice
    have hlog : ∀ cond, logSlice cond st.c.buffer m st.c.size = .ok () :=
      fun cond => logSlice_nat cond st.c.buffer m st.c.size hle st.c.size_le
    have hdata := st.c.length_data
    rw [hm]
    simp only [bind, Except.bind, hslice, hlog]
    cases hp : parseChunkSize (st.c.data.drop m) with
    | mk d v =>
      by_cases hv : v = -1
      · simp only [hv, if_true]
        exact .inl ⟨.inr ⟨by omega, by simp [hp, hv]⟩, trivial⟩
      · right
        have hc : ChunkAt st.c.data (m : Int) d v := ⟨by omega, by omega, by simpa using hp, hv⟩
        simp only [hv, if_false]
        -- The last chunk ends the loop, whether the final line end is there or not.
        by_cases h0 : v = 0
        · left
          refine ⟨d, v, hc, h0, ?_⟩
          split <;> simp [slice_tail _ hsize, Except.map]
        · right
          simp only [h0, if_false]
          -- A chunk beyond the buffer ends the loop. Otherwise the walk goes on behind it.
          by_cases hbig : (st.c.buffer.length : Int) < chunkEnd m d v
          · left
            refine ⟨d, v, hc, h0, hbig, ?_⟩
            unfold chunkEnd at hbig ⊢
            simp only [hbig, if_true]
          · right
            refine ⟨d, v, hc, h0, by omega, ?_⟩
            unfold chunkEnd at hbig ⊢
            simp only [hbig, if_false]

/-- The end of a pass in chunked mode is one step of the walk from `max`: the client panics
below zero, waits, stops, or goes on to the next chunk. -/
theorem checkMax_cases (st : Reading) (hchunked : st.chunkedMode = true)
    (hparsed : st.parsedHeaders = true) (hsize : 2 ≤ st.c.size) :
    (st.max < 0 ∧ checkMax st = .error .panic) ∨
    (ChunkWaitAt st.c.data st.max ∧ (checkMax st = .ok st ∨ checkMax st = .error (.cont st))) ∨
    (ChunkStopAt st.c.data st.c.buffer.length st.max ∧
      ∃ max, checkMax st = .error (.brk { st with max := max })) ∨
    (∃ m', ChunkStep st.c.data st.c.buffer.length st.max m' ∧
      checkMax st = .error (.cont { st with
        max := m'
        skipRead := decide (m' ≤ (st.c.size : Int)) })) := by
  by_cases hle : st.max ≤ (st.c.size : Int)
  · have hnext : checkMax st = nextChunk st := by simp [checkMax, hle, hparsed, hchunked]
    rw [hnext]
    rcases nextChunk_cases st hle hsize with h | ⟨hw, h⟩ | ⟨d, v, hc, h0, h⟩ |
      ⟨d, v, hc, _, hbig, h⟩ | ⟨d, v, hc, h0, hfit, h⟩
    · exact .inl h
    · exact .inr (.inl ⟨hw, .inr h⟩)
    · exact .inr (.inr (.inl ⟨⟨d, v, hc, .inl h0⟩, st.max, h⟩))
    · exact .inr (.inr (.inl ⟨⟨d, v, hc, .inr hbig⟩, _, h⟩))
    · exact .inr (.inr (.inr ⟨_, ⟨d, v, hc, h0, rfl, hfit⟩, h⟩))
  · right; left
    rw [checkMax, if_neg hle]
    exact ⟨.inl (by rw [st.c.length_data]; omega), .inl rfl⟩

end IstioVendor.Fhttp
