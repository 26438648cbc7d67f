/-
# BackedData.Disks.Network — a response body, read chunk by chunk

`ReqwestRead` hands the body of a response out through `poll_read`.  It polls a future for the next chunk;
what of a chunk did not fit the caller's buffer is left over, and goes first the next time.  What the
response has yet to hand out, and whether it ends in an error, is given; whether the future is ready is up
to each call.

Until the body has ended nothing is lost and nothing repeated (`body_conserved`).  At its end two things go
wrong: the future is replaced only behind a chunk, so a call behind the end, or behind an error, polls one
that has completed, which panics; and a chunk without bytes is reported as the end is, by `Ok(0)`.
`endOfBody_exact` says which runs meet neither.
-/
import BackedData.Logic.Buffer
import BackedData.Logic.Trace

namespace BackedData.Disks

open Logic.Outcome
open Logic.Buffer
open Logic.Trace

set_option autoImplicit false

variable {E : Type}

/-- `reqwest::Response`: the chunks its body has yet to hand out, and the error it ends in, if it does. -/
structure Response (E : Type) where
  chunks : List (List UInt8)
  failure : Option E
  deriving DecidableEq, Repr

/-- The future of `response.chunk()`, which completes once. -/
inductive ChunkFuture where
  | waiting
  | completed
  deriving DecidableEq, Repr

/-- `ReqwestRead`. -/
structure ReqwestRead (E : Type) where
  response : Response E
  chunk : ChunkFuture
  leftoverSlice : Option (List UInt8)
  deriving DecidableEq, Repr

/-- A call of `poll_read`: the buffer, and whether the future is ready if it is polled. -/
structure ReadCall where
  ready : Bool
  buf : List UInt8
  deriving DecidableEq, Repr

/-- `Poll<io::Result<usize>>`. -/
inductive ReadPoll (E : Type) where
  | pending
  | failed (error : E)
  | read (numBytes : Nat)
  deriving DecidableEq, Repr

/-! ## `poll_read` -/

/-- Fill the buffer from the front of `slice`: the number of bytes, the buffer, and what is left over. -/
def fillBuf (slice buf : List UInt8) : Exec (Nat × List UInt8 × Option (List UInt8)) := do
  let bufLen := buf.length
  let numBytes := min slice.length bufLen
  if slice.length > bufLen then do
    -- write partial and advance
    let front ← sliceOf slice 0 bufLen
    let buf ← copyFromSlice buf 0 buf.length front
    let rest ← sliceOf slice bufLen slice.length
    pure (numBytes, buf, some rest)
  else do
    let buf ← copyFromSlice buf 0 slice.length slice
    pure (numBytes, buf, none)

namespace ReqwestRead

/-- `async_read_disk`, behind the request: the future of the first chunk is there. -/
def new (response : Response E) : ReqwestRead E := { response, chunk := .waiting, leftoverSlice := none }

/-- `chunk.poll(cx)`: the next chunk, the end, or the error; `none` is `Pending`.  A future that has
completed panics. -/
def pollChunk (self : ReqwestRead E) (ready : Bool) :
    Exec (Option (Except E (Option (List UInt8))) × ReqwestRead E) :=
  match self.chunk, ready with
  | .completed, _ => .error .explicit
  | .waiting, false => pure (none, self)
  | .waiting, true =>
      match self.response.chunks, self.response.failure with
      | x :: rest, failure =>
          pure (some (.ok (some x)), { self with response := { chunks := rest, failure }, chunk := .completed })
      | [], none => pure (some (.ok none), { self with chunk := .completed })
      | [], some e => pure (some (.error e), { self with chunk := .completed })

/-- `poll_read`: the answer, the buffer, and the reader. -/
def pollRead (self : ReqwestRead E) (call : ReadCall) : Exec ((ReadPoll E × List UInt8) × ReqwestRead E) :=
  match self.leftoverSlice with
  | some leftoverSlice => do
      let (numBytes, buf, leftoverSlice) ← fillBuf leftoverSlice call.buf
      pure ((.read numBytes, buf), { self with leftoverSlice })
  | none => do
      match ← self.pollChunk call.ready with
      | (none, self) => pure ((.pending, call.buf), self)
      | (some (.error e), self) => pure ((.failed e, call.buf), self)
      | (some (.ok none), self) => pure ((.read 0, call.buf), self)
      | (some (.ok (some x)), self) => do
          -- the next future replaces this one
          let self := { self with chunk := .waiting }
          let (numBytes, buf, leftoverSlice) ← fillBuf x call.buf
          pure ((.read numBytes, buf), { self with leftoverSlice })

end ReqwestRead

/-! ## Runs -/

/-- The call takes the end of the body, or its error: nothing is left over, no chunk is to come, and the
future is ready. -/
def ReqwestRead.takesEnd (self : ReqwestRead E) (call : ReadCall) : Bool :=
  self.leftoverSlice.isNone && call.ready && self.response.chunks.isEmpty

/-- What a caller knows: the bytes it was given, and whether it was told that there are no more; and whether
a call of it has taken the end of the body, or its error. -/
structure Known where
  delivered : List UInt8
  told : Bool
  past : Bool
  deriving DecidableEq, Repr

/-- What it makes of an answer, and the buffer. -/
def Known.note (known : Known) (answer : ReadPoll E × List UInt8) : Known :=
  match answer.1 with
  | .read numBytes =>
      { known with
        delivered := known.delivered ++ answer.2.take numBytes, told := known.told || numBytes == 0 }
  | _ => known

/-- It has made a call that took the end of the body, or another. -/
def Known.notePast (known : Known) (takesEnd : Bool) : Known := { known with past := known.past || takesEnd }

/-- The reader, unless a call has panicked, and what its caller knows. -/
abbrev Reading (E : Type) : Type := Option (ReqwestRead E) × Known

/-- A call of a run. -/
def Reading.next (st : Reading E) (call : ReadCall) :
    Option (Exec (ReadPoll E × List UInt8) × Reading E) :=
  match st.1 with
  | none => none
  | some self =>
      match self.pollRead call with
      | .error p => some (.error p, none, st.2)
      | .ok (answer, self') =>
          some (.ok answer, some self', (st.2.note answer).notePast (self.takesEnd call))

/-- Nothing has been read of the body. -/
def Reading.new (body : Response E) : Reading E := (some (.new body), ⟨[], false, false⟩)

/-- **`Conserves body st`** — what was delivered, what is left over and what is still to come are the
body. -/
def Conserves (body : Response E) (st : Reading E) : Prop :=
  ∀ self ∈ st.1, self.response.failure = body.failure ∧
    st.2.delivered ++ self.leftoverSlice.getD [] ++ self.response.chunks.flatten = body.chunks.flatten

/-- **`ReportsCopied`** — the call returns; the bytes it reports are those it has put at the front of the
buffer, and those it has delivered. -/
def ReportsCopied (st : Reading E) (l : ReadCall × Exec (ReadPoll E × List UInt8)) (st' : Reading E) :
    Prop :=
  ∃ poll copied, l.2 = .ok (poll, copied ++ l.1.buf.drop copied.length) ∧
    copied.length ≤ l.1.buf.length ∧ st'.2.delivered = st.2.delivered ++ copied ∧
    (∀ numBytes, poll = .read numBytes → numBytes = copied.length) ∧
    ((∀ numBytes, poll ≠ .read numBytes) → copied = [])

/-- The body has not ended: its future has not completed. -/
def NotEnded (st : Reading E) : Prop := ∀ self ∈ st.1, self.chunk = .waiting

/-! ## One call -/

/-- The bytes that fit are copied, and the others are left over. -/
theorem fillBuf_ok (slice buf : List UInt8) :
    fillBuf slice buf = .ok (min slice.length buf.length,
      slice.take buf.length ++ buf.drop (slice.take buf.length).length,
      if slice.length > buf.length then some (slice.drop buf.length) else none) := by
  unfold fillBuf
  by_cases hmore : slice.length > buf.length
  · have hfront : sliceOf slice 0 buf.length = .ok (slice.take buf.length) :=
      sliceOf_ok (Nat.zero_le _) (Nat.le_of_lt hmore)
    have hlen : (slice.take buf.length).length = buf.length := by
      rw [List.length_take]
      omega
    have hrest : sliceOf slice buf.length slice.length = .ok (slice.drop buf.length) := by
      rw [sliceOf_ok (Nat.le_of_lt hmore) (Nat.le_refl _), List.take_length]
    simp only [if_pos hmore, hfront, exec_bind_ok, copyFromSlice_whole hlen.symm, hrest, exec_pure, hlen,
      List.drop_length, List.append_nil]
  · have hle : slice.length ≤ buf.length := Nat.le_of_not_lt hmore
    simp only [if_neg hmore, copyFromSlice_front hle, exec_bind_ok, exec_pure, List.take_of_length_le hle]

/-- What is left over, as bytes. -/
theorem fillBuf_leftover (slice buf : List UInt8) :
    (if slice.length > buf.length then some (slice.drop buf.length) else none).getD [] =
      slice.drop buf.length := by
  split
  · rfl
  · rename_i hle
    exact (List.drop_eq_nil_of_le (Nat.le_of_not_lt hle)).symm

/-- What is left over is not empty. -/
theorem fillBuf_leftover_ne {slice buf rest : List UInt8}
    (h : (if slice.length > buf.length then some (slice.drop buf.length) else none) = some rest) :
    rest ≠ [] := by
  split at h
  · rename_i hlt
    cases h
    intro hnil
    have := congrArg List.length hnil
    rw [List.length_drop, List.length_nil] at this
    omega
  · cases h

/-- **What a call can do**, and when. -/
inductive Polled (self : ReqwestRead E) (call : ReadCall) :
    Exec ((ReadPoll E × List UInt8) × ReqwestRead E) → Prop where
  | leftover {slice : List UInt8} (hslice : self.leftoverSlice = some slice) :
      Polled self call (.ok ((.read (slice.take call.buf.length).length,
        slice.take call.buf.length ++ call.buf.drop (slice.take call.buf.length).length),
        { self with leftoverSlice :=
            if slice.length > call.buf.length then some (slice.drop call.buf.length) else none }))
  | panicked (hnone : self.leftoverSlice = none) (hdone : self.chunk = .completed) :
      Polled self call (.error .explicit)
  | pending (hnone : self.leftoverSlice = none) (hwait : self.chunk = .waiting) (hready : call.ready = false) :
      Polled self call (.ok ((.pending, call.buf), self))
  | chunk {x : List UInt8} {rest : List (List UInt8)} (hnone : self.leftoverSlice = none)
      (hwait : self.chunk = .waiting) (hready : call.ready = true) (hchunks : self.response.chunks = x :: rest) :
      Polled self call (.ok ((.read (x.take call.buf.length).length,
        x.take call.buf.length ++ call.buf.drop (x.take call.buf.length).length),
        { response := { chunks := rest, failure := self.response.failure }, chunk := .waiting,
          leftoverSlice := if x.length > call.buf.length then some (x.drop call.buf.length) else none }))
  | ended (hnone : self.leftoverSlice = none) (hwait : self.chunk = .waiting) (hready : call.ready = true)
      (hchunks : self.response.chunks = []) (hfailure : self.response.failure = none) :
      Polled self call (.ok ((.read 0, call.buf), { self with chunk := .completed }))
  | failed {e : E} (hnone : self.leftoverSlice = none) (hwait : self.chunk = .waiting)
      (hready : call.ready = true) (hchunks : self.response.chunks = [])
      (hfailure : self.response.failure = some e) :
      Polled self call (.ok ((.failed e, call.buf), { self with chunk := .completed }))

theorem pollRead_polled (self : ReqwestRead E) (call : ReadCall) : Polled self call (self.pollRead call) := by
  obtain ⟨⟨chunks, failure⟩, chunk, leftover⟩ := self
  have hcount : ∀ slice : List UInt8,
      min slice.length call.buf.length = (slice.take call.buf.length).length := by
    intro slice
    rw [List.length_take, Nat.min_comm]
  rcases leftover with _ | slice
  · rcases hc : chunk with _ | _
    · rcases hr : call.ready with _ | _
      · simp only [ReqwestRead.pollRead, ReqwestRead.pollChunk, hr, exec_pure, exec_bind_ok]
        exact .pending rfl rfl hr
      · rcases chunks with _ | ⟨x, rest⟩
        · rcases failure with _ | e
          · simp only [ReqwestRead.pollRead, ReqwestRead.pollChunk, hr, exec_pure, exec_bind_ok]
            exact .ended rfl rfl hr rfl rfl
          · simp only [ReqwestRead.pollRead, ReqwestRead.pollChunk, hr, exec_pure, exec_bind_ok]
            exact .failed rfl rfl hr rfl rfl
        · simp only [ReqwestRead.pollRead, ReqwestRead.pollChunk, hr, exec_pure, exec_bind_ok, fillBuf_ok,
            hcount]
          exact .chunk rfl rfl hr rfl
    · exact .panicked rfl rfl
  · simp only [ReqwestRead.pollRead, fillBuf_ok, exec_bind_ok, exec_pure, hcount]
    exact .leftover rfl

/-- A step of a run is a call on the reader that is there. -/
theorem Reading.next_inv {st st' : Reading E} {l : ReadCall × Exec (ReadPoll E × List UInt8)}
    (h : Reacts Reading.next st l st') : ∃ self, st.1 = some self ∧
      ((∃ answer self', Polled self l.1 (.ok (answer, self')) ∧ l.2 = .ok answer ∧
          st' = (some self', (st.2.note answer).notePast (self.takesEnd l.1))) ∨
        ∃ p, Polled self l.1 (.error p) ∧ l.2 = .error p) := by
  obtain ⟨call, r⟩ := l
  obtain ⟨_ | self, known⟩ := st
  · cases h
  · have hpolled := pollRead_polled self call
    unfold Reacts Reading.next at h
    rcases hrun : self.pollRead call with p | ⟨answer, self'⟩
    · rw [hrun] at hpolled
      simp only [hrun, Option.some.injEq, Prod.mk.injEq] at h
      exact ⟨self, rfl, Or.inr ⟨p, hpolled, h.1.symm⟩⟩
    · rw [hrun] at hpolled
      simp only [hrun, Option.some.injEq, Prod.mk.injEq] at h
      exact ⟨self, rfl, Or.inl ⟨answer, self', hpolled, h.1.symm, h.2.symm⟩⟩

/-! ## Until the body has ended -/

/-- What was copied is noted. -/
theorem Known.note_read (known : Known) (copied spare : List UInt8) :
    known.note ((.read copied.length : ReadPoll E), copied ++ spare) =
      { known with delivered := known.delivered ++ copied, told := known.told || copied.length == 0 } := by
  simp [Known.note]

/-- A call moves bytes from the front of what there is to what was delivered. -/
theorem Polled.conserves {body : Response E} {self self' : ReqwestRead E} {known : Known} {call : ReadCall}
    {answer : ReadPoll E × List UInt8} (h : Polled self call (.ok (answer, self')))
    (hbody : Conserves body (some self, known)) : Conserves body (some self', known.note answer) := by
  obtain ⟨hfailure, hbytes⟩ := hbody self rfl
  have hsplit : ∀ slice : List UInt8, slice.take call.buf.length ++ slice.drop call.buf.length = slice :=
    fun slice => List.take_append_drop _ slice
  rintro _ ⟨⟩
  cases h with
  | leftover hslice =>
      refine ⟨hfailure, ?_⟩
      rw [Known.note_read, fillBuf_leftover]
      rw [hslice] at hbytes
      show (known.delivered ++ _) ++ _ ++ _ = _
      rw [List.append_assoc known.delivered, hsplit]
      exact hbytes
  | pending hnone hwait hready => exact ⟨hfailure, hbytes⟩
  | chunk hnone hwait hready hchunks =>
      refine ⟨hfailure, ?_⟩
      rw [Known.note_read, fillBuf_leftover]
      rw [hnone, hchunks] at hbytes
      show (known.delivered ++ _) ++ _ ++ _ = _
      rw [List.append_assoc known.delivered, hsplit, ← hbytes, List.flatten_cons]
      show _ = known.delivered ++ [] ++ _
      rw [List.append_nil, List.append_assoc]
  | ended hnone hwait hready hchunks hend =>
      refine ⟨hfailure, ?_⟩
      show (known.delivered ++ []) ++ _ ++ _ = _
      rw [List.append_nil]
      exact hbytes
  | failed hnone hwait hready hchunks hend => exact ⟨hfailure, hbytes⟩

/-- A call that returned reports what it copied. -/
theorem Polled.reports {self self' : ReqwestRead E} {known : Known} {call : ReadCall}
    {answer : ReadPoll E × List UInt8} (h : Polled self call (.ok (answer, self'))) :
    ReportsCopied (some self, known) (call, .ok answer) (some self', known.note answer) := by
  have hcopy : ∀ (copied : List UInt8) (rest : Option (ReqwestRead E)), copied.length ≤ call.buf.length →
      ReportsCopied (some self, known)
        (call, .ok (.read copied.length, copied ++ call.buf.drop copied.length))
        (rest, known.note ((.read copied.length : ReadPoll E), copied ++ call.buf.drop copied.length)) := by
    intro copied rest hle
    refine ⟨.read copied.length, copied, rfl, hle, ?_, ?_, ?_⟩
    · rw [Known.note_read]
    · rintro _ ⟨⟩
      rfl
    · intro hno
      exact absurd rfl (hno _)
  have hnothing : ∀ (poll : ReadPoll E) (rest : Option (ReqwestRead E)),
      (∀ numBytes, poll ≠ .read numBytes) →
      ReportsCopied (some self, known) (call, .ok (poll, call.buf)) (rest, known.note (poll, call.buf)) := by
    intro poll rest hno
    refine ⟨poll, [], rfl, Nat.zero_le _, ?_, fun n hn => absurd hn (hno n), fun _ => rfl⟩
    rw [List.append_nil]
    unfold Known.note
    split
    · rename_i n hn
      exact absurd hn (hno n)
    · rfl
  cases h with
  | leftover hslice => exact hcopy _ _ (List.length_take_le _ _)
  | pending hnone hwait hready => exact hnothing _ _ nofun
  | chunk hnone hwait hready hchunks => exact hcopy _ _ (List.length_take_le _ _)
  | ended hnone hwait hready hchunks hend => exact hcopy [] _ (Nat.zero_le _)
  | failed hnone hwait hready hchunks hend => exact hnothing _ _ nofun

/-- The calls made until the body has ended. -/
def UntilEnd (st : Reading E) (l : ReadCall × Exec (ReadPoll E × List UInt8)) (st' : Reading E) : Prop :=
  Reacts Reading.next st l st' ∧ NotEnded st

/-- **The step lemma.** -/
theorem UntilEnd.step {body : Response E} {st st' : Reading E}
    {l : ReadCall × Exec (ReadPoll E × List UInt8)} (h : UntilEnd st l st') (hbody : Conserves body st) :
    ReportsCopied st l st' ∧ Conserves body st' := by
  obtain ⟨hnext, hopen⟩ := h
  obtain ⟨self, hself, hcall⟩ := Reading.next_inv hnext
  obtain ⟨reader, known⟩ := st
  obtain ⟨call, r⟩ := l
  obtain rfl : reader = some self := hself
  rcases hcall with ⟨answer, self', hpolled, hr, rfl⟩ | ⟨p, hpolled, -⟩
  · obtain rfl : r = .ok answer := hr
    exact ⟨hpolled.reports, hpolled.conserves hbody⟩
  · -- only a future that has completed panics
    cases hpolled with
    | panicked hnone hdone =>
        have hwait := hopen self rfl
        rw [hdone] at hwait
        cases hwait

/-- **Until the body has ended**, whatever the chunks and the buffers, the bytes delivered, then what is left
over, then the chunks still to come are the body, and every call reports what it copied. -/
theorem body_conserved (body : Response E)
    {tr : List ((ReadCall × Exec (ReadPoll E × List UInt8)) × Reading E)}
    (htr : IsTrace UntilEnd (.new body) tr) :
    StepsMeet ReportsCopied (.new body) tr ∧ StatesMeet (Conserves body) (.new body) tr := by
  have hnew : Conserves body (Reading.new body) := by
    rintro _ ⟨⟩
    exact ⟨rfl, rfl⟩
  have hkeep : ∀ st l st', Conserves body st → UntilEnd st l st' → Conserves body st' :=
    fun _ _ _ hbody hstep => (hstep.step hbody).2
  have hreport : ∀ st l st', Conserves body st → UntilEnd st l st' → ReportsCopied st l st' :=
    fun _ _ _ hbody hstep => (hstep.step hbody).1
  exact ⟨stepsMeet_of_invariant hkeep hreport hnew htr, invariant hkeep hnew htr⟩

/-! ## At its end -/

/-- **`EndsRight body`** — the call does not panic; it says that there are no more bytes only when all have
been delivered, and the body has not failed; and once it was said it is said again. -/
def EndsRight (body : Response E) (st : Reading E) (l : ReadCall × Exec (ReadPoll E × List UInt8))
    (_ : Reading E) : Prop :=
  (∃ answer, l.2 = .ok answer) ∧
    (∀ buf, l.2 = .ok (.read 0, buf) → st.2.delivered = body.chunks.flatten ∧ body.failure = none) ∧
    (st.2.told = true → ∃ buf, l.2 = .ok (.read 0, buf))

/-- **`PollsInTime`** — of a call with nothing left over: no call before it has taken the end of the body or
its error; the chunk that the future is ready with is not empty, unless nothing but empty chunks and the end
are to come; and it is ready if the caller has been told that there are no more bytes. -/
def PollsInTime (st : Reading E) (l : ReadCall × Exec (ReadPoll E × List UInt8)) (_ : Reading E) : Prop :=
  ∀ self ∈ st.1, self.leftoverSlice = none →
    st.2.past = false ∧
      (l.1.ready = true → self.response.chunks.head? = some [] →
        self.response.chunks.flatten = [] ∧ self.response.failure = none) ∧
      (st.2.told = true → l.1.ready = true)

/-- The calls with non-empty buffers. -/
def IntoBuffers (st : Reading E) (l : ReadCall × Exec (ReadPoll E × List UInt8)) (st' : Reading E) : Prop :=
  Reacts Reading.next st l st' ∧ l.1.buf ≠ []

/-- **`Ending body st`** — the invariant: what is left over is not empty, and nothing is to come for a caller
who was told so; and the future waits until a call has taken the end. -/
structure Ending (body : Response E) (st : Reading E) : Prop where
  conserves : Conserves body st
  future : ∀ self ∈ st.1, self.chunk = .waiting ↔ st.2.past = false
  leftover : ∀ self ∈ st.1, ∀ slice, self.leftoverSlice = some slice → slice ≠ []
  told : st.2.told = true → ∀ self ∈ st.1,
    self.leftoverSlice = none ∧ self.response.chunks.flatten = [] ∧ self.response.failure = none

theorem ending_new (body : Response E) : Ending body (.new body) where
  conserves := by
    rintro _ ⟨⟩
    exact ⟨rfl, rfl⟩
  future := by
    rintro _ ⟨⟩
    exact ⟨fun _ => rfl, fun _ => rfl⟩
  leftover := by
    rintro _ ⟨⟩
    exact nofun
  told := nofun

/-- The future still waits behind a call exactly if it did, and the call has not taken the end. -/
theorem Polled.future {self self' : ReqwestRead E} {call : ReadCall} {answer : ReadPoll E × List UInt8}
    (h : Polled self call (.ok (answer, self'))) :
    self'.chunk = .waiting ↔ self.chunk = .waiting ∧ self.takesEnd call = false := by
  cases h with
  | leftover hslice => simp [ReqwestRead.takesEnd, hslice]
  | pending _ _ hready => simp [ReqwestRead.takesEnd, hready]
  | chunk _ hwait _ hchunks => simp [ReqwestRead.takesEnd, hwait, hchunks]
  | ended hnone _ hready hchunks | failed hnone _ hready hchunks =>
      simp [ReqwestRead.takesEnd, hnone, hready, hchunks]

/-- Bytes there are, into a buffer that is not empty. -/
theorem take_length_ne {slice buf : List UInt8} (hslice : slice ≠ []) (hbuf : buf ≠ []) :
    (slice.take buf.length).length ≠ 0 := by
  have hs := List.length_pos_iff.mpr hslice
  have hb := List.length_pos_iff.mpr hbuf
  rw [List.length_take]
  omega

/-- Bytes that were read tell nobody that there are none. -/
theorem told_before {told : Bool} {numBytes : Nat} (h : (told || numBytes == 0) = true) (hne : numBytes ≠ 0) :
    told = true := by
  rcases (Bool.or_eq_true _ _).mp h with htold | hzero
  · exact htold
  · exact absurd (beq_iff_eq.mp hzero) hne

section Outcomes

variable {body : Response E} {st st' : Reading E} {self : ReqwestRead E} {known : Known} {call : ReadCall}
variable {r : Exec (ReadPoll E × List UInt8)} {buf : List UInt8}

/-- A call that reads bytes, for a caller who was not told that there are none. -/
theorem EndsRight.of_bytes {numBytes : Nat} (hne : numBytes ≠ 0) (hmore : ¬st.2.told = true) :
    EndsRight body st (call, .ok (.read numBytes, buf)) st' := by
  refine ⟨⟨_, rfl⟩, fun buf' heq => ?_, fun ht => absurd ht hmore⟩
  simp only [Except.ok.injEq, Prod.mk.injEq, ReadPoll.read.injEq] at heq
  exact absurd heq.1 hne

/-- One that says that there are none, when there are none. -/
theorem EndsRight.of_end (hall : st.2.delivered = body.chunks.flatten) (hend : body.failure = none) :
    EndsRight body st (call, .ok (.read 0, buf)) st' :=
  ⟨⟨_, rfl⟩, fun _ _ => ⟨hall, hend⟩, fun _ => ⟨buf, rfl⟩⟩

/-- One that reads nothing. -/
theorem EndsRight.of_silent {poll : ReadPoll E} (hno : ∀ numBytes, poll ≠ .read numBytes)
    (hmore : ¬st.2.told = true) : EndsRight body st (call, .ok (poll, buf)) st' := by
  refine ⟨⟨_, rfl⟩, fun buf' heq => ?_, fun ht => absurd ht hmore⟩
  cases heq
  exact absurd rfl (hno 0)

/-- A call that goes on with what is left over polls no future. -/
theorem PollsInTime.of_leftover {slice : List UInt8} (hslice : self.leftoverSlice = some slice) :
    PollsInTime (some self, known) (call, r) st' := by
  rintro _ ⟨⟩ hnone
  rw [hslice] at hnone
  cases hnone

/-- A future that is ready with something else than an empty chunk. -/
theorem PollsInTime.of_ready (hpast : known.past = false) (hready : call.ready = true)
    (hhead : self.response.chunks.head? ≠ some []) : PollsInTime (some self, known) (call, r) st' := by
  rintro _ ⟨⟩ -
  exact ⟨hpast, fun _ hempty => absurd hempty hhead, fun _ => hready⟩

/-- With nothing left over, what was delivered is the body when nothing is to come. -/
theorem Conserves.whole_iff (h : Conserves body (some self, known)) (hnone : self.leftoverSlice = none) :
    self.response.chunks.flatten = [] ↔ known.delivered = body.chunks.flatten := by
  obtain ⟨-, hbytes⟩ := h self rfl
  rw [hnone] at hbytes
  rw [← hbytes]
  show _ ↔ known.delivered = known.delivered ++ [] ++ _
  rw [List.append_nil]
  exact List.self_eq_append_right.symm

/-- An empty chunk ends right exactly when it is in time. -/
theorem emptyChunk_iff (h : Ending body (some self, known)) (hnone : self.leftoverSlice = none)
    (hpast : known.past = false) (hready : call.ready = true)
    (hhead : self.response.chunks.head? = some []) :
    EndsRight body (some self, known) (call, .ok (.read 0, buf)) st' ↔
      PollsInTime (some self, known) (call, r) st' := by
  obtain ⟨hfailure, -⟩ := h.conserves self rfl
  have hwhole := h.conserves.whole_iff hnone
  constructor
  · rintro ⟨-, hsaid, -⟩ _ ⟨⟩ -
    obtain ⟨hall, hend⟩ := hsaid buf rfl
    exact ⟨hpast, fun _ _ => ⟨hwhole.mpr hall, hfailure.trans hend⟩, fun _ => hready⟩
  · intro htime
    obtain ⟨-, hlast, -⟩ := htime self rfl hnone
    obtain ⟨hempty, hend⟩ := hlast hready hhead
    exact .of_end (hwhole.mp hempty) (hfailure ▸ hend)

end Outcomes

/-- **When a call ends right**: exactly when it polls in time. -/
theorem endsRight_iff {body : Response E} {st st' : Reading E}
    {l : ReadCall × Exec (ReadPoll E × List UInt8)} (h : Ending body st) (hstep : IntoBuffers st l st') :
    EndsRight body st l st' ↔ PollsInTime st l st' := by
  obtain ⟨hnext, hbuf⟩ := hstep
  obtain ⟨self, hself, hcall⟩ := Reading.next_inv hnext
  obtain ⟨reader, known⟩ := st
  obtain ⟨call, r⟩ := l
  obtain rfl : reader = some self := hself
  have htold : known.told = true →
      self.leftoverSlice = none ∧ self.response.chunks.flatten = [] ∧ self.response.failure = none :=
    fun ht => h.told ht self rfl
  have hfuture : self.chunk = .waiting ↔ known.past = false := h.future self rfl
  rcases hcall with ⟨answer, self', hpolled, hr, rfl⟩ | ⟨p, hpolled, hr⟩
  · obtain rfl : r = .ok answer := hr
    have hpolled : Polled self call (.ok (answer, self')) := hpolled
    cases hpolled with
    | @leftover slice hslice =>
        have hmore : ¬known.told = true := by
          intro ht
          have hnone := (htold ht).1
          rw [hslice] at hnone
          cases hnone
        have hne := take_length_ne (h.leftover self rfl slice hslice) hbuf
        exact ⟨fun _ => .of_leftover hslice, fun _ => .of_bytes hne hmore⟩
    | pending hnone hwait hready =>
        have hnot : ¬call.ready = true := by
          rw [hready]
          exact Bool.false_ne_true
        constructor
        · rintro ⟨-, -, hagain⟩ _ ⟨⟩ -
          refine ⟨hfuture.mp hwait, fun hr => absurd hr hnot, fun ht => ?_⟩
          obtain ⟨buf, heq⟩ := hagain ht
          cases heq
        · intro htime
          exact .of_silent nofun fun ht => hnot ((htime self rfl hnone).2.2 ht)
    | @chunk x rest hnone hwait hready hchunks =>
        by_cases hx : x = []
        · subst hx
          have hread : ((.read (([] : List UInt8).take call.buf.length).length : ReadPoll E),
              ([] : List UInt8).take call.buf.length ++
                call.buf.drop (([] : List UInt8).take call.buf.length).length) = (.read 0, call.buf) := by
            simp
          have hhead : self.response.chunks.head? = some [] := by
            rw [hchunks]
            rfl
          rw [hread]
          exact emptyChunk_iff h hnone (hfuture.mp hwait) hready hhead
        · have hmore : ¬known.told = true := by
            intro ht
            have hempty := (htold ht).2.1
            rw [hchunks, List.flatten_cons] at hempty
            exact hx (List.append_eq_nil_iff.mp hempty).1
          have hhead : self.response.chunks.head? ≠ some [] := by
            rw [hchunks]
            exact fun heq => hx (Option.some.inj heq)
          have hne := take_length_ne hx hbuf
          exact ⟨fun _ => .of_ready (hfuture.mp hwait) hready hhead, fun _ => .of_bytes hne hmore⟩
    | ended hnone hwait hready hchunks hend =>
        obtain ⟨hfailure, -⟩ := h.conserves self rfl
        have hempty : self.response.chunks.flatten = [] := by rw [hchunks]; rfl
        have hhead : self.response.chunks.head? ≠ some [] := by
          rw [hchunks]
          exact nofun
        refine ⟨fun _ => .of_ready (hfuture.mp hwait) hready hhead, fun _ => .of_end ?_ (hfailure ▸ hend)⟩
        exact (h.conserves.whole_iff hnone).mp hempty
    | failed hnone hwait hready hchunks hend =>
        have hmore : ¬known.told = true := by
          intro ht
          have hclean := (htold ht).2.2
          rw [hend] at hclean
          cases hclean
        have hhead : self.response.chunks.head? ≠ some [] := by
          rw [hchunks]
          exact nofun
        exact ⟨fun _ => .of_ready (hfuture.mp hwait) hready hhead, fun _ => .of_silent nofun hmore⟩
  · obtain rfl : r = .error p := hr
    cases hpolled with
    | panicked hnone hdone =>
        constructor
        · rintro ⟨⟨answer, heq⟩, -, -⟩
          cases heq
        · intro htime
          have hwait := hfuture.mpr (htime self rfl hnone).1
          rw [hdone] at hwait
          cases hwait

/-- **The step lemma.** -/
theorem Ending.step {body : Response E} {st st' : Reading E}
    {l : ReadCall × Exec (ReadPoll E × List UInt8)} (h : Ending body st) (hstep : IntoBuffers st l st')
    (htime : PollsInTime st l st') : Ending body st' := by
  obtain ⟨hnext, hbuf⟩ := hstep
  obtain ⟨self, hself, hcall⟩ := Reading.next_inv hnext
  obtain ⟨reader, known⟩ := st
  obtain ⟨call, r⟩ := l
  obtain rfl : reader = some self := hself
  have htold : known.told = true →
      self.leftoverSlice = none ∧ self.response.chunks.flatten = [] ∧ self.response.failure = none :=
    fun ht => h.told ht self rfl
  rcases hcall with ⟨answer, self', hpolled, -, rfl⟩ | ⟨p, hpolled, -⟩
  · have hconserves := hpolled.conserves h.conserves
    have hfuture' : ∀ other ∈ some self', other.chunk = .waiting ↔
        (known.past || self.takesEnd call) = false := by
      rintro _ ⟨⟩
      rw [hpolled.future, h.future self rfl, Bool.or_eq_false_iff]
    cases hpolled with
    | @leftover slice hslice =>
        have hne := take_length_ne (h.leftover self rfl slice hslice) hbuf
        refine ⟨hconserves, hfuture', ?_, ?_⟩
        · rintro _ ⟨⟩ rest hrest
          exact fillBuf_leftover_ne hrest
        · intro ht
          rw [Known.note_read] at ht
          have hbefore : known.told = true := told_before ht hne
          have hnone := (htold hbefore).1
          rw [hslice] at hnone
          cases hnone
    | pending hnone hwait hready => exact ⟨hconserves, hfuture', h.leftover, h.told⟩
    | @chunk x rest hnone hwait hready hchunks =>
        refine ⟨hconserves, hfuture', ?_, ?_⟩
        · rintro _ ⟨⟩ slice hslice
          exact fillBuf_leftover_ne hslice
        · intro ht
          rw [Known.note_read] at ht
          -- either way the chunk is empty, and nothing comes behind it
          have hlast : x = [] ∧ self.response.chunks.flatten = [] ∧ self.response.failure = none := by
            by_cases hx : x = []
            · have hhead : self.response.chunks.head? = some [] := by rw [hchunks, hx]; rfl
              exact ⟨hx, (htime self rfl hnone).2.1 hready hhead⟩
            · have hbefore : known.told = true := told_before ht (take_length_ne hx hbuf)
              obtain ⟨-, hempty, -⟩ := htold hbefore
              rw [hchunks, List.flatten_cons] at hempty
              exact absurd (List.append_eq_nil_iff.mp hempty).1 hx
          obtain ⟨rfl, hempty, hend⟩ := hlast
          rintro _ ⟨⟩
          rw [hchunks] at hempty
          exact ⟨rfl, hempty, hend⟩
    | ended hnone hwait hready hchunks hend =>
        refine ⟨hconserves, hfuture', ?_, ?_⟩
        · rintro _ ⟨⟩ slice hslice
          exact h.leftover self rfl slice hslice
        · rintro - _ ⟨⟩
          have hempty : self.response.chunks.flatten = [] := by rw [hchunks]; rfl
          exact ⟨hnone, hempty, hend⟩
    | failed hnone hwait hready hchunks hend =>
        refine ⟨hconserves, hfuture', ?_, ?_⟩
        · rintro _ ⟨⟩ slice hslice
          exact h.leftover self rfl slice hslice
        · rintro ht _ ⟨⟩
          exact htold ht
  · cases hpolled with
    | panicked hnone hdone =>
        have hwait := (h.future self rfl).mpr (htime self rfl hnone).1
        rw [hdone] at hwait
        cases hwait

/-- **The end of the body**, over any calls with non-empty buffers: every call ends right exactly when every
call polls in time. -/
theorem endOfBody_exact (body : Response E)
    {tr : List ((ReadCall × Exec (ReadPoll E × List UInt8)) × Reading E)}
    (htr : IsTrace IntoBuffers (.new body) tr) :
    StepsMeet (EndsRight body) (.new body) tr ↔ StepsMeet PollsInTime (.new body) tr :=
  stepsMeet_iff (I := Ending body) (fun _ _ _ h hstep htime => h.step hstep htime)
    (fun _ _ _ h hstep => endsRight_iff h hstep) (ending_new body) htr

/-! ### Runs -/

instance (st : Reading E) : Decidable (NotEnded st) :=
  inferInstanceAs (Decidable (∀ self ∈ st.1, self.chunk = .waiting))

instance (st : Reading Unit) (l : ReadCall × Exec (ReadPoll Unit × List UInt8)) (st' : Reading Unit) :
    Decidable (PollsInTime st l st') :=
  inferInstanceAs (Decidable (∀ self ∈ st.1, self.leftoverSlice = none → _ ∧ (_ → _ → _ ∧ _) ∧ (_ → _)))

/-- The run on a body, with these calls. -/
def readBody (body : Response Unit) (calls : List ReadCall) :
    List ((ReadCall × Exec (ReadPoll Unit × List UInt8)) × Reading Unit) :=
  react Reading.next (.new body) calls

/-- A chunk that fits no buffer, an empty one, and one behind it. -/
def threeChunks : Response Unit := { chunks := [[1, 2, 3], [], [4]], failure := none }

/-- A buffer of no bytes, one of two, one that is not filled, and one that waits. -/
def unevenCalls : List ReadCall :=
  [{ ready := true, buf := [] }, { ready := false, buf := [0, 0] }, { ready := true, buf := [0, 0, 0] },
    { ready := false, buf := [0] }, { ready := true, buf := [0] }, { ready := true, buf := [0, 0] }]

/-- The run makes its calls before the body ends. -/
theorem body_conserved_uneven :
    StepsMeet ReportsCopied (.new threeChunks) (readBody threeChunks unevenCalls) ∧
      StatesMeet (Conserves threeChunks) (.new threeChunks) (readBody threeChunks unevenCalls) :=
  body_conserved threeChunks (isTrace_and.mpr ⟨isTrace_react _ _ _, by decide⟩)

/-- Calls with a buffer of two bytes, for which the future is ready. -/
def readyCalls (n : Nat) : List ReadCall := List.replicate n { ready := true, buf := [0, 0] }

/-- An empty chunk is taken for the end, and a second call at the end panics. -/
theorem endOfBody_early :
    ¬StepsMeet (EndsRight threeChunks) (.new threeChunks) (readBody threeChunks (readyCalls 3)) ∧
      (readBody { chunks := [[1]], failure := none } (readyCalls 3)).map (·.1.2) =
        [.ok (.read 1, [1, 0]), .ok (.read 0, [0, 0]), .error .explicit] := by
  refine ⟨?_, by decide⟩
  intro h
  have hsaid := h.2.2.1.2.1 [0, 0] rfl
  exact absurd hsaid.1 (by decide)

/-- A run that ends with the body. -/
theorem endOfBody_exact_once :
    StepsMeet (EndsRight { chunks := [[1, 2, 3], []], failure := none })
      (.new { chunks := [[1, 2, 3], []], failure := none })
      (readBody { chunks := [[1, 2, 3], []], failure := none } (readyCalls 4)) :=
  (endOfBody_exact { chunks := [[1, 2, 3], []], failure := none }
    (isTrace_and.mpr ⟨isTrace_react _ _ _, by decide⟩)).mpr (by decide)

end BackedData.Disks
