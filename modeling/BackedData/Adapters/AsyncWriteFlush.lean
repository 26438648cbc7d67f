/-
# BackedData.Adapters.AsyncWriteFlush — what a finished `poll_flush` has put into the inner writer

As long as the inner writer does not fail, no byte is lost or duplicated on its way (`Conserves`): what
was handed to `poll_write` is what the inner writer accepted, followed by the rest of the command in
work, the queued commands and the batching buffer.  And `num_cmds_pending` counts the commands whose
status is still to come.  So when `poll_flush` returns `Ready(Ok(()))` everything that was *sent* is
written; but it sends nothing itself, and what `poll_write` left in the buffer stays there
(`flush_exact`).
-/
import BackedData.Adapters.AsyncWrite

namespace BackedData.Adapters

open Logic.Trace

set_option autoImplicit false

variable {B E : Type} {s t : State B E} {past : List (Event B E)} {ev : Event B E}

/-! ## Conservation -/

/-- The thread is not in the part of the loop that only a failing writer leads to. -/
def Bg.healthy : Bg B E → Prop
  | .reporting _ _ _ => False
  | .waiting _ _ => False
  | .sendingStatus status => status = .ok ()
  | .returned => False
  | .panicked => False
  | _ => True

/-- **`Conserves past s`** — without failures: the bytes handed in are the bytes written and those
underway, in order; every command sent is accounted for; every status is a success. -/
structure Conserves (past : List (Event B E)) (s : State B E) : Prop where
  bytes : accepted past = s.writer ++ s.underway
  pending : s.numCmdsPending = s.cmds.length + s.bg.busy + s.statuses.length
  all_ok : ∀ r ∈ s.statuses, r = .ok ()
  connected : s.cmdTx = true ∧ s.statusRx = true
  healthy : s.bg.healthy
  present : s.poller ≠ .panicked ∧ s.poller.gone = false

@[simp] theorem accepted_append (es fs : List (Event B E)) :
    accepted (es ++ fs) = accepted es ++ accepted fs := List.flatMap_append

/-- An inner step hands nothing in. -/
theorem accepted_inner (past : List (Event B E)) (h : ev.inner = true) :
    accepted (past ++ [ev]) = accepted past := by
  cases ev with
  | poller => simp [accepted]
  | bg answer => simp [accepted]
  | _ => cases h

theorem accepted_inner_run {tr : List (Event B E × State B E)} (h : ∀ x ∈ tr, x.1.inner = true) :
    accepted (tr.map Prod.fst) = [] := by
  unfold accepted
  rw [List.flatMap_eq_nil_iff]
  intro ev hev
  obtain ⟨x, hx, rfl⟩ := List.mem_map.mp hev
  have hi := h x hx
  cases hx1 : x.1 with
  | pollWrite buf =>
      rw [hx1] at hi
      cases hi
  | _ => rfl

theorem conserves_new (min : Nat) : Conserves ([] : List (Event B E)) (.new min) where
  bytes := rfl
  pending := rfl
  all_ok := by simp [State.new]
  connected := ⟨rfl, rfl⟩
  healthy := trivial
  present := ⟨nofun, rfl⟩

/-! ## One lemma per kind of step -/

/-- What is sent is what the poll carried, and it goes on with nothing in hand. -/
theorem Poller.Sends.bytes {p q : Poller B E} {cmd : AsyncWriteCommand B} (h : p.Sends cmd q) :
    p.outgoing = cmd.bytes ∧ p.incoming = [] ∧ q.outgoing = [] ∧ q.incoming = [] := by
  cases h with
  | write data n => exact ⟨rfl, rfl, rfl, rfl⟩
  | flush cx => exact ⟨rfl, rfl, rfl, rfl⟩

theorem Poller.Sends.present {p q : Poller B E} {cmd : AsyncWriteCommand B} (h : p.Sends cmd q) :
    q ≠ .panicked ∧ q.gone = false := by
  cases h with
  | write data n => exact ⟨nofun, rfl⟩
  | flush cx => exact ⟨nofun, rfl⟩

/-- Sending a command: its bytes move from the poll to the queue. -/
theorem Conserves.sent {cmd : AsyncWriteCommand B} {poller : Poller B E} (h : Conserves past s)
    (hsends : s.poller.Sends cmd poller) :
    Conserves past { s with
      cmds := s.cmds ++ [cmd], numCmdsPending := s.numCmdsPending + 1, poller := poller } := by
  obtain ⟨hout, hin, hout', hin'⟩ := hsends.bytes
  refine ⟨?_, ?_, h.all_ok, h.connected, h.healthy, hsends.present⟩
  · rw [h.bytes]
    simp [State.underway, hout, hin, hout', hin']
  · have := h.pending
    simp only [List.length_append, List.length_singleton]
    omega

/-- While a status is there, a command is pending. -/
theorem Conserves.some_pending {r : Except (WriteError E) Unit}
    {statuses : List (Except (WriteError E) Unit)} (h : Conserves past s)
    (hs : s.statuses = r :: statuses) :
    s.numCmdsPending = s.cmds.length + s.bg.busy + statuses.length + 1 := by
  rw [h.pending, hs, List.length_cons, ← Nat.add_assoc]

/-- Collecting a status: a success is a command counted off. -/
theorem Conserves.counted {r : Except (WriteError E) Unit}
    {statuses : List (Except (WriteError E) Unit)} (h : Conserves past s)
    (hs : s.statuses = r :: statuses) :
    Conserves past { s with statuses, numCmdsPending := s.numCmdsPending - 1 } := by
  refine ⟨h.bytes, ?_, fun r hr => ?_, h.connected, h.healthy, h.present⟩
  · show s.numCmdsPending - 1 = s.cmds.length + s.bg.busy + statuses.length
    rw [h.some_pending hs, Nat.add_sub_cancel]
  · exact h.all_ok r (by rw [hs]; exact List.mem_cons_of_mem _ hr)

/-- A step that only moves the poller's program counter, keeping what it carries. -/
theorem Conserves.move {poller : Poller B E} {retry : Bool} {retryToggle : Retry}
    {flushWaker : Option Nat} (h : Conserves past s)
    (hout : poller.outgoing = s.poller.outgoing) (hin : poller.incoming = s.poller.incoming)
    (hp : poller ≠ .panicked ∧ poller.gone = false) :
    Conserves past { s with poller, retry, retryToggle, flushWaker } := by
  refine ⟨?_, h.pending, h.all_ok, h.connected, h.healthy, hp⟩
  rw [h.bytes]
  simp [State.underway, hout, hin]

/-- Putting the bytes of a `poll_write` into the buffer, or behind it into the poll's own hands. -/
theorem Conserves.buffer {buf writeBuffer : List B} {poller : Poller B E} (h : Conserves past s)
    (hp : s.poller = .drainingForWrite buf)
    (hall : poller.outgoing ++ writeBuffer = s.writeBuffer ++ buf) (hin : poller.incoming = [])
    (hpr : poller ≠ .panicked ∧ poller.gone = false) :
    Conserves past { s with writeBuffer, poller } := by
  refine ⟨?_, h.pending, h.all_ok, h.connected, h.healthy, hpr⟩
  have hout : s.poller.outgoing = [] := by rw [hp]; rfl
  have hbuf : s.poller.incoming = buf := by rw [hp]; rfl
  rw [h.bytes]
  simp [State.underway, hout, hbuf, hin, hall]

/-- Every step of a poll conserves. -/
theorem Conserves.poller (h : Conserves past s) (hs : pollerNext s = some t) :
    Conserves past t := by
  cases pollerNext_moves hs with
  | retrying hp => exact h.move (by rw [hp]; rfl) (by rw [hp]; rfl) ⟨nofun, rfl⟩
  | failed hd hfail =>
      have hok := h.all_ok _ (by rw [hfail]; exact List.mem_cons_self)
      cases hok
  | miscounted hd hone hz =>
      have hcount := h.some_pending hone
      omega
  | counted hd hone => exact h.counted hone
  | taken hp hmin => exact h.buffer hp (List.append_nil _) rfl ⟨nofun, rfl⟩
  | buffered hp => exact h.buffer hp rfl rfl ⟨nofun, rfl⟩
  | sent hsends => exact h.sent hsends
  | unsent hsends hbg =>
      have hh := h.healthy
      rcases hbg with hb | hb
      · rw [hb] at hh
        exact hh.elim
      · rw [hb] at hh
        exact hh.elim
  | starting hp => exact h.move (by rw [hp]; rfl) (by rw [hp]; rfl) ⟨nofun, rfl⟩
  | goingOn hp => exact h.move (by rw [hp]; rfl) (by rw [hp]; rfl) ⟨nofun, rfl⟩
  | waiting hp => exact h.move (by rw [hp]; rfl) (by rw [hp]; rfl) ⟨nofun, rfl⟩
  | flushed hp hz => exact h.move (by rw [hp]; rfl) (by rw [hp]; rfl) ⟨nofun, rfl⟩
  | stored hp => exact h.move (by rw [hp]; rfl) (by rw [hp]; rfl) ⟨nofun, rfl⟩
  | dropping hp => exact absurd h.present.2 (by rw [hp]; nofun)
  | closing hp => exact absurd h.present.2 (by rw [hp]; nofun)

/-- The thread's send, while the poller listens. -/
theorem Conserves.sendStatus_eq (h : Conserves past s) (status : Except (WriteError E) Unit)
    (bg : Bg B E) :
    s.sendStatus status bg = { s with statuses := s.statuses ++ [status], bg } :=
  if_pos h.connected.2

/-- The thread finishes a command with a success. -/
theorem Conserves.sendOk {bg : Bg B E} (h : Conserves past s) (hbusy : s.bg.busy = 1)
    (hrest : s.bg.rest = []) (hbusy' : bg.busy = 0) (hrest' : bg.rest = [])
    (hh : bg.healthy) : Conserves past (s.sendStatus (.ok ()) bg) := by
  rw [h.sendStatus_eq]
  refine ⟨?_, ?_, fun r hr => ?_, h.connected, hh, h.present⟩
  · rw [h.bytes]
    simp [State.underway, hrest, hrest']
  · have := h.pending
    simp only [List.length_append, List.length_singleton]
    omega
  · rcases List.mem_append.mp hr with hr | hr
    · exact h.all_ok r hr
    · exact List.mem_singleton.mp hr

/-- A step of the thread that leaves its bytes and its command as they are. -/
theorem Conserves.bgMove {bg : Bg B E} (h : Conserves past s) (hbusy : bg.busy = s.bg.busy)
    (hrest : bg.rest = s.bg.rest) (hh : bg.healthy) : Conserves past { s with bg } := by
  refine ⟨?_, ?_, h.all_ok, h.connected, hh, h.present⟩
  · rw [h.bytes]
    simp [State.underway, hrest]
  · rw [h.pending, hbusy]

/-- The thread takes a command. -/
theorem Conserves.recv {bg : Bg B E} {cmd : AsyncWriteCommand B}
    {cmds : List (AsyncWriteCommand B)} (h : Conserves past s) (hc : s.cmds = cmd :: cmds)
    (hidle : s.bg = .recv) (hbusy : bg.busy = 1) (hrest : bg.rest = cmd.bytes)
    (hh : bg.healthy) : Conserves past { s with cmds, bg } := by
  have hnone : s.bg.rest = [] := by rw [hidle]; rfl
  refine ⟨?_, ?_, h.all_ok, h.connected, hh, h.present⟩
  · rw [h.bytes]
    simp [State.underway, hc, hnone, hrest]
  · have := h.pending
    rw [hc, hidle] at this
    simp only [List.length_cons, Bg.busy] at this
    show s.numCmdsPending = cmds.length + bg.busy + s.statuses.length
    omega

/-- The inner writer takes some of the bytes it was offered. -/
theorem Conserves.wrote {data : List B} {pos advance : Nat} (h : Conserves past s)
    (hb : s.bg = .writing data pos) :
    Conserves past
      { s with
        writer := s.writer ++ (data.drop pos).take advance
        bg := .writing data (pos + advance) } := by
  have hrest : s.bg.rest = data.drop pos := by rw [hb]; rfl
  have hbusy : s.bg.busy = 1 := by rw [hb]; rfl
  refine ⟨?_, ?_, h.all_ok, h.connected, trivial, h.present⟩
  · have hsplit : data.drop pos = (data.drop pos).take advance ++ data.drop (pos + advance) := by
      rw [← List.drop_drop, List.take_append_drop]
    have hrest' : (Bg.writing data (pos + advance) : Bg B E).rest = data.drop (pos + advance) := rfl
    rw [h.bytes]
    simp only [State.underway, hrest, hrest', List.append_assoc]
    conv_lhs => rw [hsplit]
    simp only [List.append_assoc]
  · rw [h.pending, hbusy]
    rfl

/-- Every step of the thread that is not a failure conserves. -/
theorem Conserves.bg {answer : InnerAnswer E} (h : Conserves past s)
    (hok : (Event.bg answer : Event B E).fails = false) (hs : bgNext s answer = some t) :
    Conserves past t := by
  have hh := h.healthy
  cases bgNext_moves hs with
  | @received cmd cmds hb hc =>
      cases cmd with
      | write data => exact h.recv hc hb rfl rfl trivial
      | flush => exact h.recv hc hb rfl rfl trivial
  | disconnected hb htx =>
      rw [h.connected.1] at htx
      cases htx
  | wrote hb => exact h.wrote hb
  | interrupted => exact h
  | @written data pos hb hlen =>
      refine h.sendOk (by rw [hb]; rfl) ?_ rfl rfl trivial
      rw [hb]
      exact List.drop_eq_nil_of_le hlen
  | flushed hb => exact h.bgMove (by rw [hb]; rfl) (by rw [hb]; rfl) rfl
  | @answered status hb =>
      rw [hb] at hh
      obtain rfl : status = .ok () := hh
      exact h.sendOk (by rw [hb]; rfl) (by rw [hb]; rfl) rfl rfl trivial
  | waking hb => exact h.bgMove (by rw [hb]; rfl) (by rw [hb]; rfl) trivial
  | writeFailed hb | flushFailed hb => cases hok
  | reported hb | unheard hb | abandoned hb | resumed hb | wokenUp hb =>
      rw [hb] at hh
      exact hh.elim

/-! ## What a step leaves alone -/

/-- A step of the thread does not touch the poller or its buffer. -/
theorem bgNext_frame {answer : InnerAnswer E} (hs : bgNext s answer = some t) :
    t.poller = s.poller ∧ t.writeBuffer = s.writeBuffer ∧ t.numCmdsPending = s.numCmdsPending := by
  cases bgNext_moves hs with
  | written | reported | answered =>
      rw [State.sendStatus_eq]
      exact ⟨rfl, rfl, rfl⟩
  | _ => exact ⟨rfl, rfl, rfl⟩

/-- Once `drop` has begun there is no way back to a poll. -/
theorem gone_step (h : s.poller.gone = true) (hs : next s ev = some t) : t.poller.gone = true := by
  have hidle : ∀ answer, s.poller ≠ .idle answer := by
    intro answer hp
    rw [hp] at h
    cases h
  cases ev with
  | bg answer =>
      rw [(bgNext_frame hs).1]
      exact h
  | poller =>
      cases pollerNext_moves hs with
      | counted hd => exact h
      | dropping hp => rfl
      | closing hp => rfl
      | failed hd | miscounted hd =>
          generalize s.poller = p at h hd
          cases p with
          | dropping | closing | dropped => cases hd
          | _ => cases h
      | sent hsends | unsent hsends =>
          generalize s.poller = p at h hsends
          cases hsends with
          | write | flush => cases h
      | retrying hp | taken hp | buffered hp | starting hp | goingOn hp | waiting hp | flushed hp
      | stored hp =>
          rw [hp] at h
          cases h
  | pollWrite buf =>
      obtain ⟨⟨answer, hp⟩, -⟩ := pollWrite_inv hs
      exact absurd hp (hidle answer)
  | pollFlush cx =>
      obtain ⟨⟨answer, hp⟩, -⟩ := pollFlush_inv hs
      exact absurd hp (hidle answer)
  | drop =>
      obtain ⟨⟨answer, hp⟩, -⟩ := drop_inv hs
      exact absurd hp (hidle answer)

/-- Where a poll that started as `poll_flush` can be. -/
def Poller.inFlush : Poller B E → Bool
  | .checkingWaker _ => true
  | .sendingFlush _ => true
  | .drainingForFlush _ => true
  | .storingWaker _ => true
  | .idle _ => true
  | .panicked => true
  | _ => false

/-- **`poll_flush` never touches the buffer.** -/
theorem inFlush_step (h : s.poller.inFlush = true) (hi : ev.inner = true)
    (hs : next s ev = some t) :
    t.poller.inFlush = true ∧ t.writeBuffer = s.writeBuffer := by
  cases ev with
  | bg answer =>
      obtain ⟨hp, hw, -⟩ := bgNext_frame hs
      exact ⟨hp ▸ h, hw⟩
  | poller =>
      cases pollerNext_moves hs with
      | counted hd => exact ⟨h, rfl⟩
      | sent hsends =>
          generalize s.poller = p at h hsends
          cases hsends with
          | write data n => cases h
          | flush cx => exact ⟨rfl, rfl⟩
      | failed | miscounted | unsent | starting | goingOn | waiting | flushed | stored =>
          exact ⟨rfl, rfl⟩
      | retrying hp | taken hp | buffered hp | dropping hp | closing hp =>
          rw [hp] at h
          cases h
  | _ => cases hi

/-- **`poll_flush` returns `Ready(Ok(()))` only with every command counted off.** -/
theorem flushed_step (h : s.poller = .idle (some .flushed) → s.numCmdsPending = 0)
    (hs : next s ev = some t) : t.poller = .idle (some .flushed) → t.numCmdsPending = 0 := by
  intro ht
  cases ev with
  | bg answer =>
      obtain ⟨hp, -, hn⟩ := bgNext_frame hs
      rw [hn]
      exact h (hp ▸ ht)
  | poller =>
      cases pollerNext_moves hs with
      | counted hd =>
          rw [show s.poller = .idle (some .flushed) from ht] at hd
          cases hd
      | sent hsends =>
          generalize s.poller = p at hsends
          cases hsends with
          | write | flush => cases ht
      | flushed hp hz => exact hz
      | _ => cases ht
  | pollWrite buf =>
      obtain ⟨-, rfl | rfl⟩ := pollWrite_inv hs
      · cases ht
      · cases ht
  | pollFlush cx =>
      obtain ⟨-, rfl⟩ := pollFlush_inv hs
      cases ht
  | drop =>
      obtain ⟨-, rfl⟩ := drop_inv hs
      cases ht

/-! ## Runs -/

/-- A `poll_write` begins: its bytes are handed in. -/
theorem Conserves.pollWrite {buf : List B} {answer : Option (PollAnswer E)} {poller : Poller B E}
    {retry : Bool} (h : Conserves past s) (hp : s.poller = .idle answer)
    (hout : poller.outgoing = []) (hin : poller.incoming = buf)
    (hpr : poller ≠ .panicked ∧ poller.gone = false) :
    Conserves (past ++ [.pollWrite buf]) { s with retry, poller } := by
  have hout' : s.poller.outgoing = [] := by rw [hp]; rfl
  have hin' : s.poller.incoming = [] := by rw [hp]; rfl
  refine ⟨?_, h.pending, h.all_ok, h.connected, h.healthy, hpr⟩
  rw [accepted_append, h.bytes]
  simp [State.underway, hout, hin, hout', hin', accepted]

/-- **The step lemma**: without failures every step conserves, unless the adapter is being dropped. -/
theorem conserves_step (h : s.poller.gone = true ∨ Conserves past s) (hok : ev.fails = false)
    (hs : next s ev = some t) : t.poller.gone = true ∨ Conserves (past ++ [ev]) t := by
  rcases h with h | h
  · exact Or.inl (gone_step h hs)
  have hsame : ev.inner = true → Conserves past t → Conserves (past ++ [ev]) t := by
    intro hi ht
    exact ⟨(accepted_inner past hi).trans ht.bytes, ht.pending, ht.all_ok, ht.connected, ht.healthy,
      ht.present⟩
  cases ev with
  | pollWrite buf =>
      right
      obtain ⟨⟨answer, hp⟩, rfl | rfl⟩ := pollWrite_inv hs
      · exact h.pollWrite hp rfl rfl ⟨nofun, rfl⟩
      · exact h.pollWrite hp rfl rfl ⟨nofun, rfl⟩
  | pollFlush cx =>
      right
      obtain ⟨⟨answer, hp⟩, rfl⟩ := pollFlush_inv hs
      have ht : Conserves past { s with poller := .checkingWaker cx } :=
        h.move (by rw [hp]; rfl) (by rw [hp]; rfl) ⟨nofun, rfl⟩
      refine ⟨?_, ht.pending, ht.all_ok, ht.connected, ht.healthy, ht.present⟩
      rw [accepted_append, ht.bytes]
      simp [accepted]
  | drop =>
      left
      obtain ⟨-, rfl⟩ := drop_inv hs
      rfl
  | poller => exact Or.inr (hsame rfl (h.poller hs))
  | bg answer => exact Or.inr (hsame rfl (h.bg hok hs))

/-- **The run lemma.** -/
theorem conserves_run {tr : List (Event B E × State B E)}
    (h : s.poller.gone = true ∨ Conserves past s) (htr : IsTrace (Steps next) s tr)
    (hok : ∀ x ∈ tr, x.1.fails = false) :
    (last s tr).poller.gone = true ∨ Conserves (past ++ tr.map Prod.fst) (last s tr) := by
  induction tr generalizing s past with
  | nil => simpa [last] using h
  | cons a rest ih =>
      obtain ⟨ev, t⟩ := a
      have hstep := conserves_step h (hok _ List.mem_cons_self) htr.1
      have hrest := ih hstep htr.2 fun x hx => hok x (List.mem_cons_of_mem _ hx)
      simpa [last] using hrest

/-- Within one `poll_flush` the buffer stays what it was. -/
theorem inFlush_run {tr : List (Event B E × State B E)} (h : s.poller.inFlush = true)
    (htr : IsTrace (Steps next) s tr) (hi : ∀ x ∈ tr, x.1.inner = true) :
    (last s tr).writeBuffer = s.writeBuffer := by
  induction tr generalizing s with
  | nil => rfl
  | cons a rest ih =>
      obtain ⟨ev, t⟩ := a
      obtain ⟨hp, hw⟩ := inFlush_step h (hi _ List.mem_cons_self) htr.1
      exact (ih hp htr.2 fun x hx => hi x (List.mem_cons_of_mem _ hx)).trans hw

/-- With every command counted off, nothing is underway but the buffer. -/
theorem Conserves.idle_bytes {answer : Option (PollAnswer E)} (h : Conserves past s)
    (hp : s.poller = .idle answer) (hn : s.numCmdsPending = 0) :
    accepted past = s.writer ++ s.writeBuffer := by
  have hcount := h.pending
  rw [hn] at hcount
  have hcmds : s.cmds = [] := List.eq_nil_of_length_eq_zero (by omega)
  have hrest : s.bg.rest = [] := by
    have hbusy : s.bg.busy = 0 := by omega
    cases hb : s.bg with
    | writing data pos => rw [hb] at hbusy; cases hbusy
    | reporting data pos e => rw [hb] at hbusy; cases hbusy
    | waiting data pos => rw [hb] at hbusy; cases hbusy
    | _ => rfl
  rw [h.bytes]
  simp [State.underway, hcmds, hrest, hp, Poller.outgoing, Poller.incoming]

/-- **The exact condition of `poll_flush`.**  A run without failures leads to a call of `poll_flush`
(or `poll_close`), and the steps of that call and of the thread lead to its return with
`Ready(Ok(()))`.  Then everything handed to `poll_write` before has reached the inner writer, once and
in order, and nothing is left in the buffer, exactly when the buffer was empty at the call. -/
theorem flush_exact (bufferMinSize : Nat) (pre mid : List (Event B E × State B E))
    (hpre : IsTrace (Steps next) (.new bufferMinSize) pre) (cx : Nat) (called : State B E)
    (hcall : next (last (.new bufferMinSize) pre) (.pollFlush cx) = some called)
    (hmid : IsTrace (Steps next) called mid) (hinner : ∀ x ∈ mid, x.1.inner = true)
    (hok : ∀ x ∈ pre ++ mid, x.1.fails = false)
    (hret : (last called mid).poller = .idle (some .flushed)) :
    ((last called mid).writer = accepted (pre.map Prod.fst) ∧
        (last called mid).writeBuffer = []) ↔
      (last (.new bufferMinSize) pre).writeBuffer = [] := by
  have hpok : ∀ x ∈ pre, x.1.fails = false := fun x hx => hok x (List.mem_append_left _ hx)
  have hmok : ∀ x ∈ mid, x.1.fails = false := fun x hx => hok x (List.mem_append_right _ hx)
  -- the call starts between two polls, and touches only the program counter
  obtain ⟨-, hstart⟩ := pollFlush_inv hcall
  have hcalled : called.poller = .checkingWaker cx := by rw [hstart]
  have hbuffer : called.writeBuffer = (last (.new bufferMinSize) pre).writeBuffer := by rw [hstart]
  have hnew : (State.new bufferMinSize : State B E).poller.gone = true ∨
      Conserves [] (State.new bufferMinSize : State B E) := Or.inr (conserves_new bufferMinSize)
  have hbefore := conserves_run hnew hpre hpok
  have hafter := conserves_run (conserves_step hbefore rfl hcall) hmid hmok
  have hconserves : Conserves ([] ++ pre.map Prod.fst ++ [.pollFlush cx] ++ mid.map Prod.fst)
      (last called mid) := by
    rcases hafter with hgone | hc
    · rw [hret] at hgone
      cases hgone
    · exact hc
  have hnone : (last called mid).numCmdsPending = 0 := by
    have hinv := invariant
      (P := fun s : State B E => s.poller = .idle (some .flushed) → s.numCmdsPending = 0)
      (fun s ev t h hs => flushed_step h hs) (fun h => by rw [hcalled] at h; cases h) hmid
    exact hinv.last hret
  have hkept : (last called mid).writeBuffer = (last (.new bufferMinSize) pre).writeBuffer :=
    (inFlush_run (by rw [hcalled]; rfl) hmid hinner).trans hbuffer
  have hbytes := hconserves.idle_bytes hret hnone
  have hflush : accepted [(.pollFlush cx : Event B E)] = [] := rfl
  rw [List.nil_append, accepted_append, accepted_append, accepted_inner_run hinner, hflush, List.append_nil,
    List.append_nil] at hbytes
  rw [hbytes, hkept]
  constructor
  · rintro ⟨-, h⟩
    exact h
  · intro h
    rw [h, List.append_nil]
    exact ⟨rfl, rfl⟩

/-- One byte is written with `buffer_min_size = 2`, and flushed. -/
def lostTail : List (Event Nat Unit) :=
  [.pollWrite [7], .poller, .pollFlush 0, .poller, .poller, .bg .silent, .bg .flushed, .bg .silent,
    .poller, .poller]

/-- `poll_flush` returns `Ready(Ok(()))`, the inner writer has been flushed, and the byte is still in
the buffer. -/
theorem lostTail_unwritten :
    (follow next (.new 2) lostTail).map Prod.fst = lostTail ∧
      (∀ ev ∈ lostTail, ev.fails = false) ∧
      (last (.new 2) (follow next (.new 2) lostTail)).poller = .idle (some .flushed) ∧
      accepted lostTail = [7] ∧
      (last (.new 2) (follow next (.new 2) lostTail)).writer = [] ∧
      (last (.new 2) (follow next (.new 2) lostTail)).writeBuffer = [7] := by
  decide

/-- Two bytes reach the threshold; the thread takes them in two pieces, with the flush between. -/
def wholeWrite : List (Event Nat Unit × State Nat Unit) :=
  follow next (.new 2) [.pollWrite [7, 8], .poller, .poller, .bg .silent, .bg (.wrote 1)]

/-- `wholeWrite`, and the call of `poll_flush`. -/
def wholeCalled : State Nat Unit :=
  { last (.new 2) wholeWrite with poller := .checkingWaker 0 }

/-- The steps of that call, and what the thread does meanwhile. -/
def wholeFlush : List (Event Nat Unit × State Nat Unit) :=
  follow next wholeCalled
    [.poller, .bg .interrupted, .poller, .bg (.wrote 1), .bg .silent, .bg .silent, .bg .flushed,
      .poller, .bg .silent, .poller, .poller]

theorem flush_exact_whole :
    (last wholeCalled wholeFlush).writer = accepted (wholeWrite.map Prod.fst) ∧
      (last wholeCalled wholeFlush).writeBuffer = [] :=
  (flush_exact 2 wholeWrite wholeFlush (isTrace_follow _ _ _) 0 wholeCalled (by decide)
    (isTrace_follow _ _ _) (by decide) (by decide) (by decide)).mpr (by decide)

example : (last wholeCalled wholeFlush).writer = [7, 8] := by decide

end BackedData.Adapters
