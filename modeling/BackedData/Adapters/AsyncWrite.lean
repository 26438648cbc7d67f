/-
# BackedData.Adapters.AsyncWrite — a blocking writer behind two channels

`SyncAsAsyncWrite` and its background thread `SyncAsAsyncWriteBg` from `entry/adapters.rs`.  The poller
batches bytes in `write_buffer` and sends commands over one channel, the thread writes them to the
inner writer and answers over another; a mutex-guarded toggle lets a failed write be retried, and a
mutex-guarded waker tells the poller that a flush is over.

The two sides are program counters over one shared state.  Every operation on a channel and every
critical section is one step of its side, and any interleaving of the steps is a run.  The inner writer
is what its answers make of it: each label of the thread carries the answer to the call that step makes
on it, if it makes one.
-/
import BackedData.Logic.Trace

namespace BackedData.Adapters

set_option autoImplicit false

/-! ## The two sides -/

/-- `AsyncWriteCommand`. -/
inductive AsyncWriteCommand (B : Type) where
  | write (data : List B)
  | flush
  deriving DecidableEq, Repr

/-- `WriteError`; of the condition variable in `retry` only its presence matters. -/
structure WriteError (E : Type) where
  error : E
  retry : Bool
  deriving DecidableEq, Repr

/-- `Retry`. -/
structure Retry where
  enabled : Bool
  alive : Bool
  deriving DecidableEq, Repr

/-- What a poll returned. -/
inductive PollAnswer (E : Type) where
  | wrote (n : Nat)
  | flushed
  | pending
  | failed (error : E)
  deriving DecidableEq, Repr

/-- Where the poller stands: between two polls (with the answer of the last one), in the middle of
`poll_write` (the first three, with the buffer it was given or the bytes it is about to send), of
`poll_flush` (the next four, with the waker of its context), or of `drop`. -/
inductive Poller (B E : Type) where
  | idle (answer : Option (PollAnswer E))
  | retrying (buf : List B)
  | drainingForWrite (buf : List B)
  | sendingWrite (data : List B) (n : Nat)
  | checkingWaker (cx : Nat)
  | sendingFlush (cx : Nat)
  | drainingForFlush (cx : Nat)
  | storingWaker (cx : Nat)
  | dropping
  | closing
  | dropped
  | panicked
  deriving DecidableEq, Repr

/-- Where the background thread stands: waiting for a command, inside the write loop, reporting an error
and waiting for leave to retry, inside a flush, or finished. -/
inductive Bg (B E : Type) where
  | recv
  | writing (data : List B) (pos : Nat)
  | reporting (data : List B) (pos : Nat) (error : E)
  | waiting (data : List B) (pos : Nat)
  | flushing
  | sendingStatus (status : Except (WriteError E) Unit)
  | waking
  | returned
  | panicked
  deriving DecidableEq

/-- What the inner writer answers in a step of the thread; `silent` when the step does not call it,
`interrupted` stands for `WouldBlock` and `Interrupted`. -/
inductive InnerAnswer (E : Type) where
  | silent
  | wrote (advance : Nat)
  | interrupted
  | flushed
  | failed (error : E)
  deriving DecidableEq, Repr

/-- `SyncAsAsyncWrite`, what it shares with `SyncAsAsyncWriteBg`, and that thread; `writer` is what the
inner writer has accepted, `cmdTx` and `statusRx` say that the poller's ends of the channels exist. -/
structure State (B E : Type) where
  writeBuffer : List B
  bufferMinSize : Nat
  numCmdsPending : Nat
  retry : Bool
  poller : Poller B E
  retryToggle : Retry
  flushWaker : Option Nat
  cmds : List (AsyncWriteCommand B)
  cmdTx : Bool
  statuses : List (Except (WriteError E) Unit)
  statusRx : Bool
  bg : Bg B E
  writer : List B
  deriving DecidableEq

/-- A poll, a drop, or the next step of the call in progress or of the thread. `poll_close` is
`poll_flush`. -/
inductive Event (B E : Type) where
  | pollWrite (buf : List B)
  | pollFlush (cx : Nat)
  | drop
  | poller
  | bg (answer : InnerAnswer E)
  deriving DecidableEq

variable {B E : Type}

/-- `SyncAsAsyncWrite::new`, once the thread runs. -/
def State.new (bufferMinSize : Nat) : State B E where
  writeBuffer := []
  bufferMinSize := bufferMinSize
  numCmdsPending := 0
  retry := false
  poller := .idle none
  retryToggle := { enabled := false, alive := true }
  flushWaker := none
  cmds := []
  cmdTx := true
  statuses := []
  statusRx := true
  bg := .recv
  writer := []

/-! ## Steps of the poller -/

/-- `cmd_tx.send(cmd).unwrap(); num_cmds_pending += 1`: a panic when the thread has dropped its end. -/
def State.sendCmd (s : State B E) (cmd : AsyncWriteCommand B) (poller : Poller B E) : State B E :=
  match s.bg with
  | .returned => { s with poller := .panicked }
  | .panicked => { s with poller := .panicked }
  | _ =>
      { s with
        cmds := s.cmds ++ [cmd]
        numCmdsPending := s.numCmdsPending + 1
        poller := poller }

/-- One round of `while let Ok(status) = status_rx.try_recv()`: an error ends the poll, a success is
counted off, an empty channel leads on to `next`. -/
def State.tryRecv (s : State B E) (next : State B E) : State B E :=
  match s.statuses with
  | .error e :: statuses =>
      { s with statuses, retry := e.retry, poller := .idle (some (.failed e.error)) }
  | .ok () :: statuses =>
      if s.numCmdsPending = 0 then { s with poller := .panicked }
      else { s with statuses, numCmdsPending := s.numCmdsPending - 1 }
  | [] => next

/-- `poll_write` behind its loop: the buffer grows, and is taken for sending when it is long enough. -/
def State.buffer (s : State B E) (buf : List B) : State B E :=
  if s.bufferMinSize ≤ (s.writeBuffer ++ buf).length then
    { s with writeBuffer := [], poller := .sendingWrite (s.writeBuffer ++ buf) buf.length }
  else
    { s with
      writeBuffer := s.writeBuffer ++ buf
      poller := .idle (some (.wrote buf.length)) }

/-- The next step of the call in progress. -/
def pollerNext (s : State B E) : Option (State B E) :=
  match s.poller with
  | .retrying buf =>
      some { s with
        retryToggle := { s.retryToggle with enabled := true }
        poller := .drainingForWrite buf }
  | .drainingForWrite buf => some (s.tryRecv (s.buffer buf))
  | .sendingWrite data n => some (s.sendCmd (.write data) (.idle (some (.wrote n))))
  | .checkingWaker cx =>
      match s.flushWaker with
      | none => some { s with poller := .sendingFlush cx }
      | some _ => some { s with poller := .drainingForFlush cx }
  | .sendingFlush cx => some (s.sendCmd .flush (.drainingForFlush cx))
  | .drainingForFlush cx =>
      some (s.tryRecv
        (if 0 < s.numCmdsPending then { s with poller := .storingWaker cx }
        else { s with poller := .idle (some .flushed) }))
  | .storingWaker cx => some { s with flushWaker := some cx, poller := .idle (some .pending) }
  | .dropping => some { s with cmdTx := false, poller := .closing }
  | .closing => some { s with statusRx := false, poller := .dropped }
  | _ => none

/-! ## Steps of the background thread -/

/-- `let _ = status_tx.send(status)`. -/
def State.sendStatus (s : State B E) (status : Except (WriteError E) Unit) (bg : Bg B E) :
    State B E :=
  if s.statusRx then { s with statuses := s.statuses ++ [status], bg } else { s with bg }

/-- The next step of `SyncAsAsyncWriteBg::call`. -/
def bgNext (s : State B E) (answer : InnerAnswer E) : Option (State B E) :=
  match s.bg, answer with
  | .recv, .silent =>
      match s.cmds with
      | .write data :: cmds => some { s with cmds, bg := .writing data 0 }
      | .flush :: cmds => some { s with cmds, bg := .flushing }
      | [] => if s.cmdTx then none else some { s with bg := .returned }
  | .writing data pos, .wrote advance =>
      if pos < data.length ∧ advance ≤ data.length - pos then
        some { s with
          writer := s.writer ++ (data.drop pos).take advance
          bg := .writing data (pos + advance) }
      else none
  -- just retry if the error is valid under async
  | .writing data pos, .interrupted => if pos < data.length then some s else none
  | .writing data pos, .failed error =>
      if pos < data.length then some { s with bg := .reporting data pos error } else none
  | .writing data pos, .silent =>
      if pos < data.length then none else some (s.sendStatus (.ok ()) .recv)
  -- this send is unwrapped
  | .reporting data pos error, .silent =>
      if s.statusRx then
        some (s.sendStatus (.error { error, retry := true }) (.waiting data pos))
      else some { s with bg := .panicked }
  -- one wakeup: a signal, the timeout, or a spurious one
  | .waiting data pos, .silent =>
      if !s.retryToggle.alive then some { s with bg := .returned }
      else if s.retryToggle.enabled then
        some { s with
          retryToggle := { s.retryToggle with enabled := false }
          bg := .writing data pos }
      else some s
  | .flushing, .flushed => some { s with bg := .sendingStatus (.ok ()) }
  | .flushing, .failed error =>
      some { s with bg := .sendingStatus (.error { error, retry := false }) }
  | .sendingStatus status, .silent => some (s.sendStatus status .waking)
  | .waking, .silent => some { s with bg := .recv }
  | _, _ => none

/-! ## The system -/

/-- One step of the system. -/
def next (s : State B E) : Event B E → Option (State B E)
  | .pollWrite buf =>
      match s.poller with
      | .idle _ =>
          if s.retry then some { s with retry := false, poller := .retrying buf }
          else some { s with poller := .drainingForWrite buf }
      | _ => none
  | .pollFlush cx =>
      match s.poller with
      | .idle _ => some { s with poller := .checkingWaker cx }
      | _ => none
  | .drop =>
      match s.poller with
      | .idle _ =>
          some { s with
            retryToggle := { s.retryToggle with alive := false }
            retry := false
            poller := .dropping }
      | _ => none
  | .poller => pollerNext s
  | .bg answer => bgNext s answer

/-- The step is one of the inner writer failing. -/
def Event.fails : Event B E → Bool
  | .bg (.failed _) => true
  | _ => false

/-- The step goes on with a call or with the thread, and starts no call. -/
def Event.inner : Event B E → Bool
  | .poller => true
  | .bg _ => true
  | _ => false

/-! ## Where the bytes are -/

/-- The bytes handed to `poll_write` so far; without failures each call accepts its whole buffer. -/
def accepted (events : List (Event B E)) : List B :=
  events.flatMap fun ev =>
    match ev with
    | .pollWrite buf => buf
    | _ => []

/-- The bytes of a command. -/
def AsyncWriteCommand.bytes : AsyncWriteCommand B → List B
  | .write data => data
  | .flush => []

/-- The bytes of the current command that the thread has not written. -/
def Bg.rest : Bg B E → List B
  | .writing data pos => data.drop pos
  | .reporting data pos _ => data.drop pos
  | .waiting data pos => data.drop pos
  | _ => []

/-- The bytes a poll has taken out of the buffer to send. -/
def Poller.outgoing : Poller B E → List B
  | .sendingWrite data _ => data
  | _ => []

/-- The bytes a poll was given and has not put into the buffer. -/
def Poller.incoming : Poller B E → List B
  | .retrying buf => buf
  | .drainingForWrite buf => buf
  | _ => []

/-- Every byte not yet with the inner writer, in order. -/
def State.underway (s : State B E) : List B :=
  s.bg.rest ++ s.cmds.flatMap AsyncWriteCommand.bytes ++ s.poller.outgoing ++ s.writeBuffer ++
    s.poller.incoming

/-- The thread has taken a command whose last status it has not sent. -/
def Bg.busy : Bg B E → Nat
  | .writing _ _ => 1
  | .reporting _ _ _ => 1
  | .waiting _ _ => 1
  | .flushing => 1
  | .sendingStatus _ => 1
  | _ => 0

/-- The thread has ended. -/
def Bg.stopped : Bg B E → Bool
  | .returned => true
  | .panicked => true
  | _ => false

/-- `drop` has begun. -/
def Poller.gone : Poller B E → Bool
  | .dropping => true
  | .closing => true
  | .dropped => true
  | _ => false

/-! ## What a step of a call can do -/

/-- The call is in its loop over the statuses. -/
def Poller.draining : Poller B E → Bool
  | .drainingForWrite _ => true
  | .drainingForFlush _ => true
  | _ => false

/-- The call sends a command, and goes on. -/
inductive Poller.Sends : Poller B E → AsyncWriteCommand B → Poller B E → Prop
  | write (data : List B) (n : Nat) : Sends (.sendingWrite data n) (.write data) (.idle (some (.wrote n)))
  | flush (cx : Nat) : Sends (.sendingFlush cx) .flush (.drainingForFlush cx)

/-- **`PollerMoves s t`** — the steps of the call in progress, one constructor for each kind. -/
inductive PollerMoves (s : State B E) : State B E → Prop
  | retrying {buf : List B} : s.poller = .retrying buf →
      PollerMoves s { s with
        retryToggle := { s.retryToggle with enabled := true }
        poller := .drainingForWrite buf }
  | failed {e : WriteError E} {statuses : List (Except (WriteError E) Unit)} :
      s.poller.draining = true → s.statuses = .error e :: statuses →
      PollerMoves s { s with statuses, retry := e.retry, poller := .idle (some (.failed e.error)) }
  | miscounted {statuses : List (Except (WriteError E) Unit)} :
      s.poller.draining = true → s.statuses = .ok () :: statuses → s.numCmdsPending = 0 →
      PollerMoves s { s with poller := .panicked }
  | counted {statuses : List (Except (WriteError E) Unit)} :
      s.poller.draining = true → s.statuses = .ok () :: statuses →
      PollerMoves s { s with statuses, numCmdsPending := s.numCmdsPending - 1 }
  | taken {buf : List B} : s.poller = .drainingForWrite buf →
      s.bufferMinSize ≤ (s.writeBuffer ++ buf).length →
      PollerMoves s { s with
        writeBuffer := []
        poller := .sendingWrite (s.writeBuffer ++ buf) buf.length }
  | buffered {buf : List B} : s.poller = .drainingForWrite buf →
      PollerMoves s { s with
        writeBuffer := s.writeBuffer ++ buf
        poller := .idle (some (.wrote buf.length)) }
  | sent {cmd : AsyncWriteCommand B} {poller : Poller B E} : s.poller.Sends cmd poller →
      PollerMoves s { s with
        cmds := s.cmds ++ [cmd]
        numCmdsPending := s.numCmdsPending + 1
        poller := poller }
  | unsent {cmd : AsyncWriteCommand B} {poller : Poller B E} : s.poller.Sends cmd poller →
      s.bg = .returned ∨ s.bg = .panicked → PollerMoves s { s with poller := .panicked }
  | starting {cx : Nat} : s.poller = .checkingWaker cx → s.flushWaker = none →
      PollerMoves s { s with poller := .sendingFlush cx }
  | goingOn {cx : Nat} : s.poller = .checkingWaker cx → s.flushWaker ≠ none →
      PollerMoves s { s with poller := .drainingForFlush cx }
  | waiting {cx : Nat} : s.poller = .drainingForFlush cx →
      PollerMoves s { s with poller := .storingWaker cx }
  | flushed {cx : Nat} : s.poller = .drainingForFlush cx → s.numCmdsPending = 0 →
      PollerMoves s { s with poller := .idle (some .flushed) }
  | stored {cx : Nat} : s.poller = .storingWaker cx →
      PollerMoves s { s with flushWaker := some cx, poller := .idle (some .pending) }
  | dropping : s.poller = .dropping → PollerMoves s { s with cmdTx := false, poller := .closing }
  | closing : s.poller = .closing → PollerMoves s { s with statusRx := false, poller := .dropped }

variable {s t : State B E}

theorem sendCmd_moves {cmd : AsyncWriteCommand B} {poller : Poller B E}
    (h : s.poller.Sends cmd poller) : PollerMoves s (s.sendCmd cmd poller) := by
  unfold State.sendCmd
  split
  next hb => exact .unsent h (Or.inl hb)
  next hb => exact .unsent h (Or.inr hb)
  next => exact .sent h

theorem tryRecv_moves {u : State B E} (h : s.poller.draining = true) (hu : PollerMoves s u) :
    PollerMoves s (s.tryRecv u) := by
  unfold State.tryRecv
  split
  next hs => exact .failed h hs
  next hs =>
    by_cases hz : s.numCmdsPending = 0
    · rw [if_pos hz]
      exact .miscounted h hs hz
    · rw [if_neg hz]
      exact .counted h hs
  next => exact hu

theorem buffer_moves {buf : List B} (h : s.poller = .drainingForWrite buf) :
    PollerMoves s (s.buffer buf) := by
  unfold State.buffer
  by_cases hmin : s.bufferMinSize ≤ (s.writeBuffer ++ buf).length
  · rw [if_pos hmin]
    exact .taken h hmin
  · rw [if_neg hmin]
    exact .buffered h

/-- **The steps of a call** are those and no others. -/
theorem pollerNext_moves (hs : pollerNext s = some t) : PollerMoves s t := by
  unfold pollerNext at hs
  cases hp : s.poller with
  | retrying buf =>
      simp only [hp, Option.some.injEq] at hs
      exact hs ▸ .retrying hp
  | drainingForWrite buf =>
      simp only [hp, Option.some.injEq] at hs
      exact hs ▸ tryRecv_moves (by rw [hp]; rfl) (buffer_moves hp)
  | sendingWrite data n =>
      simp only [hp, Option.some.injEq] at hs
      exact hs ▸ sendCmd_moves (hp ▸ .write data n)
  | checkingWaker cx =>
      simp only [hp] at hs
      split at hs
      next hw =>
        cases hs
        exact .starting hp hw
      next hw =>
        cases hs
        exact .goingOn hp (by rw [hw]; nofun)
  | sendingFlush cx =>
      simp only [hp, Option.some.injEq] at hs
      exact hs ▸ sendCmd_moves (hp ▸ .flush cx)
  | drainingForFlush cx =>
      simp only [hp, Option.some.injEq] at hs
      subst hs
      apply tryRecv_moves (by rw [hp]; rfl)
      by_cases hn : 0 < s.numCmdsPending
      · rw [if_pos hn]
        exact .waiting hp
      · rw [if_neg hn]
        exact .flushed hp (Nat.eq_zero_of_not_pos hn)
  | storingWaker cx =>
      simp only [hp, Option.some.injEq] at hs
      exact hs ▸ .stored hp
  | dropping =>
      simp only [hp, Option.some.injEq] at hs
      exact hs ▸ .dropping hp
  | closing =>
      simp only [hp, Option.some.injEq] at hs
      exact hs ▸ .closing hp
  | idle answer => simp [hp] at hs
  | dropped => simp [hp] at hs
  | panicked => simp [hp] at hs

/-- **One round of the loop over the statuses**: an error, a success with or without a command to count it
off, or an empty channel, behind which the call goes on. -/
theorem draining_cases (hd : s.poller.draining = true) (hs : pollerNext s = some t) :
    (∃ e statuses, s.statuses = .error e :: statuses ∧
        t = { s with statuses, retry := e.retry, poller := .idle (some (.failed e.error)) }) ∨
      (∃ statuses, s.statuses = .ok () :: statuses ∧ s.numCmdsPending = 0 ∧
        t = { s with poller := .panicked }) ∨
      (∃ statuses, s.statuses = .ok () :: statuses ∧ s.numCmdsPending ≠ 0 ∧
        t = { s with statuses, numCmdsPending := s.numCmdsPending - 1 }) ∨
      s.statuses = [] ∧
        ((∃ buf, s.poller = .drainingForWrite buf ∧ t = s.buffer buf) ∨
          (∃ cx, s.poller = .drainingForFlush cx ∧ 0 < s.numCmdsPending ∧
            t = { s with poller := .storingWaker cx }) ∨
          (∃ cx, s.poller = .drainingForFlush cx ∧ s.numCmdsPending = 0 ∧
            t = { s with poller := .idle (some .flushed) })) := by
  have hround : ∀ u : State B E, t = s.tryRecv u →
      (∃ e statuses, s.statuses = .error e :: statuses ∧
        t = { s with statuses, retry := e.retry, poller := .idle (some (.failed e.error)) }) ∨
      (∃ statuses, s.statuses = .ok () :: statuses ∧ s.numCmdsPending = 0 ∧
        t = { s with poller := .panicked }) ∨
      (∃ statuses, s.statuses = .ok () :: statuses ∧ s.numCmdsPending ≠ 0 ∧
        t = { s with statuses, numCmdsPending := s.numCmdsPending - 1 }) ∨
      s.statuses = [] ∧ t = u := by
    intro u hu
    unfold State.tryRecv at hu
    split at hu
    next e statuses hst => exact Or.inl ⟨e, statuses, hst, hu⟩
    next statuses hst =>
      by_cases hz : s.numCmdsPending = 0
      · rw [if_pos hz] at hu
        exact Or.inr (Or.inl ⟨statuses, hst, hz, hu⟩)
      · rw [if_neg hz] at hu
        exact Or.inr (Or.inr (Or.inl ⟨statuses, hst, hz, hu⟩))
    next hst => exact Or.inr (Or.inr (Or.inr ⟨hst, hu⟩))
  obtain ⟨buf, hp⟩ | ⟨cx, hp⟩ : (∃ buf, s.poller = .drainingForWrite buf) ∨
      ∃ cx, s.poller = .drainingForFlush cx := by
    cases hp : s.poller with
    | drainingForWrite buf => exact Or.inl ⟨buf, rfl⟩
    | drainingForFlush cx => exact Or.inr ⟨cx, rfl⟩
    | _ =>
        rw [hp] at hd
        cases hd
  · simp only [pollerNext, hp, Option.some.injEq] at hs
    rcases hround _ hs.symm with h | h | h | ⟨hst, h⟩
    · exact Or.inl h
    · exact Or.inr (Or.inl h)
    · exact Or.inr (Or.inr (Or.inl h))
    · exact Or.inr (Or.inr (Or.inr ⟨hst, Or.inl ⟨buf, hp, h⟩⟩))
  · simp only [pollerNext, hp, Option.some.injEq] at hs
    rcases hround _ hs.symm with h | h | h | ⟨hst, h⟩
    · exact Or.inl h
    · exact Or.inr (Or.inl h)
    · exact Or.inr (Or.inr (Or.inl h))
    · refine Or.inr (Or.inr (Or.inr ⟨hst, Or.inr ?_⟩))
      by_cases hn : 0 < s.numCmdsPending
      · rw [if_pos hn] at h
        exact Or.inl ⟨cx, hp, hn, h⟩
      · rw [if_neg hn] at h
        exact Or.inr ⟨cx, hp, Nat.eq_zero_of_not_pos hn, h⟩

/-- Where the thread goes with a command. -/
def AsyncWriteCommand.work : AsyncWriteCommand B → Bg B E
  | .write data => .writing data 0
  | .flush => .flushing

/-- A status goes into the channel or is lost; nothing else changes but where the thread goes on. -/
theorem State.sendStatus_eq (s : State B E) (status : Except (WriteError E) Unit) (bg : Bg B E) :
    s.sendStatus status bg =
      { s with statuses := if s.statusRx then s.statuses ++ [status] else s.statuses, bg } := by
  unfold State.sendStatus
  split <;> rfl

/-- **`BgMoves s answer t`** — the steps of the thread, one constructor for each kind. -/
inductive BgMoves (s : State B E) : InnerAnswer E → State B E → Prop
  | received {cmd : AsyncWriteCommand B} {cmds : List (AsyncWriteCommand B)} : s.bg = .recv →
      s.cmds = cmd :: cmds → BgMoves s .silent { s with cmds, bg := cmd.work }
  | disconnected : s.bg = .recv → s.cmdTx = false → BgMoves s .silent { s with bg := .returned }
  | wrote {data : List B} {pos advance : Nat} : s.bg = .writing data pos →
      BgMoves s (.wrote advance)
        { s with
          writer := s.writer ++ (data.drop pos).take advance
          bg := .writing data (pos + advance) }
  | interrupted : BgMoves s .interrupted s
  | writeFailed {data : List B} {pos : Nat} {error : E} : s.bg = .writing data pos →
      BgMoves s (.failed error) { s with bg := .reporting data pos error }
  | written {data : List B} {pos : Nat} : s.bg = .writing data pos → data.length ≤ pos →
      BgMoves s .silent (s.sendStatus (.ok ()) .recv)
  | reported {data : List B} {pos : Nat} {error : E} : s.bg = .reporting data pos error →
      BgMoves s .silent (s.sendStatus (.error { error, retry := true }) (.waiting data pos))
  | unheard {data : List B} {pos : Nat} {error : E} : s.bg = .reporting data pos error →
      BgMoves s .silent { s with bg := .panicked }
  | abandoned {data : List B} {pos : Nat} : s.bg = .waiting data pos →
      BgMoves s .silent { s with bg := .returned }
  | resumed {data : List B} {pos : Nat} : s.bg = .waiting data pos →
      BgMoves s .silent { s with
        retryToggle := { s.retryToggle with enabled := false }
        bg := .writing data pos }
  | wokenUp {data : List B} {pos : Nat} : s.bg = .waiting data pos → BgMoves s .silent s
  | flushed : s.bg = .flushing → BgMoves s .flushed { s with bg := .sendingStatus (.ok ()) }
  | flushFailed {error : E} : s.bg = .flushing →
      BgMoves s (.failed error) { s with bg := .sendingStatus (.error { error, retry := false }) }
  | answered {status : Except (WriteError E) Unit} : s.bg = .sendingStatus status →
      BgMoves s .silent (s.sendStatus status .waking)
  | waking : s.bg = .waking → BgMoves s .silent { s with bg := .recv }

/-- **The steps of the thread** are those and no others. -/
theorem bgNext_moves {answer : InnerAnswer E} (hs : bgNext s answer = some t) :
    BgMoves s answer t := by
  unfold bgNext at hs
  split at hs
  next hb =>
    split at hs
    next hc => exact Option.some.inj hs ▸ .received hb hc
    next hc => exact Option.some.inj hs ▸ .received hb hc
    next hc =>
      split at hs
      next => cases hs
      next htx => exact Option.some.inj hs ▸ .disconnected hb (Bool.not_eq_true _ ▸ htx)
  next hb =>
    split at hs
    next => exact Option.some.inj hs ▸ .wrote hb
    next => cases hs
  next hb =>
    split at hs
    next => exact Option.some.inj hs ▸ .interrupted
    next => cases hs
  next hb =>
    split at hs
    next => exact Option.some.inj hs ▸ .writeFailed hb
    next => cases hs
  next hb =>
    split at hs
    next => cases hs
    next hlt => exact Option.some.inj hs ▸ .written hb (Nat.le_of_not_lt hlt)
  next hb =>
    split at hs
    next => exact Option.some.inj hs ▸ .reported hb
    next => exact Option.some.inj hs ▸ .unheard hb
  next hb =>
    split at hs
    next => exact Option.some.inj hs ▸ .abandoned hb
    next =>
      split at hs
      next => exact Option.some.inj hs ▸ .resumed hb
      next => exact Option.some.inj hs ▸ .wokenUp hb
  next hb => exact Option.some.inj hs ▸ .flushed hb
  next hb => exact Option.some.inj hs ▸ .flushFailed hb
  next hb => exact Option.some.inj hs ▸ .answered hb
  next hb => exact Option.some.inj hs ▸ .waking hb
  next => cases hs

/-- A call starts between two others. -/
theorem pollFlush_inv {cx : Nat} (hs : next s (.pollFlush cx) = some t) :
    (∃ answer, s.poller = .idle answer) ∧ t = { s with poller := .checkingWaker cx } := by
  unfold next at hs
  cases hp : s.poller with
  | idle answer =>
      simp only [hp, Option.some.injEq] at hs
      exact ⟨⟨answer, rfl⟩, hs.symm⟩
  | _ => simp [hp] at hs

theorem pollWrite_inv {buf : List B} (hs : next s (.pollWrite buf) = some t) :
    (∃ answer, s.poller = .idle answer) ∧
      (t = { s with retry := false, poller := .retrying buf } ∨
        t = { s with poller := .drainingForWrite buf }) := by
  unfold next at hs
  cases hp : s.poller with
  | idle answer =>
      by_cases hr : s.retry = true
      · simp only [hp, if_pos hr, Option.some.injEq] at hs
        exact ⟨⟨answer, rfl⟩, Or.inl hs.symm⟩
      · simp only [hp, if_neg hr, Option.some.injEq] at hs
        exact ⟨⟨answer, rfl⟩, Or.inr hs.symm⟩
  | _ => simp [hp] at hs

theorem drop_inv (hs : next s .drop = some t) :
    (∃ answer, s.poller = .idle answer) ∧
      t = { s with
        retryToggle := { s.retryToggle with alive := false }
        retry := false
        poller := .dropping } := by
  unfold next at hs
  cases hp : s.poller with
  | idle answer =>
      simp only [hp, Option.some.injEq] at hs
      exact ⟨⟨answer, rfl⟩, hs.symm⟩
  | _ => simp [hp] at hs

end BackedData.Adapters
