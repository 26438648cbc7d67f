/-
# BackedData.Adapters.AsyncRead — a blocking reader behind a rendezvous and a shared slot

`SyncAsAsyncRead` and its background thread `SyncAsAsyncReadBg` from `entry/adapters.rs`.  A poll that has
nothing buffered asks the thread for one `Read` over a channel without room, so that the two meet; the
thread reads into a buffer of `read_buffer_size` bytes, puts the result into a slot behind a mutex, and
wakes the waker before it lets the mutex go.  A later poll takes the result out of the slot.

As for the writer, the two sides are program counters over one state, and every operation on the channel
and every critical section is one step of its side.  The mutex of the slot is held where the program
counter of a side says so (`ReadPoller.holdsLock`, `ReadBg.holdsLock`).
-/
import BackedData.Logic.Trace

namespace BackedData.Adapters.AsyncRead

open Logic.Trace

set_option autoImplicit false

/-! ## The two sides -/

/-- `poll_fill_buf`, or `poll_read` around it, with the length of its buffer. -/
inductive ReadCall where
  | fillBuf
  | read (bufLen : Nat)
  deriving DecidableEq, Repr

/-- What a call returned, with the bytes it gave to the caller. -/
inductive ReadAnswer (B E : Type) where
  | filled (buffered : List B)
  | read (bytes : List B)
  | consumed
  | pending
  | failed (error : E)
  deriving DecidableEq, Repr

/-- Where the poller stands: between two calls, before it takes from the slot, with the slot found empty and
its mutex held, or with `pending` set and a `Read` to send. -/
inductive ReadPoller (B E : Type) where
  | idle (answer : Option (ReadAnswer B E))
  | taking (call : ReadCall) (cx : Nat)
  | replacingWaker (cx : Nat)
  | storingWaker (cx : Nat)
  | sending
  | dropped
  | panicked
  deriving DecidableEq, Repr

/-- Where the thread stands: waiting for a command, in the call of the reader, with a result in its hands,
or behind the slot with the mutex held. -/
inductive ReadBg (B E : Type) where
  | recv
  | reading
  | holding (res : Except E (List B))
  | waking
  | releasing
  | returned
  deriving DecidableEq

/-- What the reader answers in a step of the thread; `silent` when the step does not call it. -/
inductive ReaderAnswer (B E : Type) where
  | silent
  | read (bytes : List B)
  | failed (error : E)
  deriving DecidableEq, Repr

/-- `SyncAsAsyncRead`, what it shares with `SyncAsAsyncReadBg`, and that thread; `produced` is what the
reader has produced, `consumed` what has been taken out of the buffer. -/
structure State (B E : Type) where
  pending : Bool
  cmdTx : Bool
  waker : Option Nat
  read : Option (Except E (List B))
  buffered : List B
  bufferSize : Nat
  poller : ReadPoller B E
  bg : ReadBg B E
  produced : List B
  consumed : List B
  deriving DecidableEq

/-- A call, a drop, or the next step of the call in progress or of the thread. -/
inductive Event (B E : Type) where
  | poll (call : ReadCall) (cx : Nat)
  | consume (amt : Nat)
  | drop
  | poller
  | bg (answer : ReaderAnswer B E)
  deriving DecidableEq

variable {B E : Type}

/-- `SyncAsAsyncRead::new`, once the thread runs. -/
def State.new (bufferSize : Nat) : State B E where
  pending := false
  cmdTx := true
  waker := none
  read := none
  buffered := []
  bufferSize := bufferSize
  poller := .idle none
  bg := .recv
  produced := []
  consumed := []

/-- No call is in progress. -/
def ReadPoller.isIdle : ReadPoller B E → Bool
  | .idle _ => true
  | _ => false

/-- The poller holds the mutex of the slot. -/
def ReadPoller.holdsLock : ReadPoller B E → Bool
  | .replacingWaker _ => true
  | _ => false

/-- The thread holds the mutex of the slot. -/
def ReadBg.holdsLock : ReadBg B E → Bool
  | .waking => true
  | .releasing => true
  | _ => false

/-! ## Steps -/

/-- `self.buffered.drain(..amt)`, by a caller who has used these bytes. -/
def State.drain (s : State B E) (amt : Nat) : State B E :=
  { s with buffered := s.buffered.drop amt, consumed := s.consumed ++ s.buffered.take amt }

/-- The end of a call that has something buffered, or the end of the input: `poll_fill_buf` lends the
buffer, `poll_read` copies from it and consumes what it copied. -/
def State.ready (s : State B E) : ReadCall → State B E
  | .fillBuf => { s with poller := .idle (some (.filled s.buffered)) }
  | .read bufLen =>
      let readLen := min bufLen s.buffered.length
      { s.drain readLen with poller := .idle (some (.read (s.buffered.take readLen))) }

/-- The beginning of `poll_fill_buf`. -/
def State.pollFillBuf (s : State B E) (call : ReadCall) (cx : Nat) : State B E :=
  if s.pending then { s with poller := .taking call cx }
  else if s.buffered.isEmpty then { s with pending := true, poller := .storingWaker cx }
  else s.ready call

/-- The next step of the call in progress; none while it waits for the mutex or for the other end of the
channel. -/
def pollerNext (s : State B E) : Option (State B E) :=
  match s.poller with
  | .taking call cx =>
      if s.bg.holdsLock then none
      else
        match s.read with
        | some (.ok x) => some (State.ready { s with read := none, buffered := x, pending := false } call)
        | some (.error e) => some { s with read := none, poller := .idle (some (.failed e)) }
        | none => some { s with poller := .replacingWaker cx }
  | .replacingWaker cx => some { s with waker := some cx, poller := .idle (some .pending) }
  | .storingWaker cx => some { s with waker := some cx, poller := .sending }
  | .sending =>
      match s.bg with
      | .recv => some { s with bg := .reading, poller := .idle (some .pending) }
      -- this send is unwrapped
      | .returned => some { s with poller := .panicked }
      | _ => none
  | _ => none

/-- The next step of `SyncAsAsyncReadBg::call`; it receives in the step of the poller that sends. -/
def bgNext (s : State B E) (answer : ReaderAnswer B E) : Option (State B E) :=
  match s.bg, answer with
  | .recv, .silent => if s.cmdTx then none else some { s with bg := .returned }
  | .reading, .read bytes =>
      if bytes.length ≤ s.bufferSize then
        some { s with produced := s.produced ++ bytes, bg := .holding (.ok bytes) }
      else none
  | .reading, .failed error => some { s with bg := .holding (.error error) }
  | .holding res, .silent =>
      if s.poller.holdsLock then none else some { s with read := some res, bg := .waking }
  | .waking, .silent => some { s with waker := none, bg := .releasing }
  | .releasing, .silent => some { s with bg := .recv }
  | _, _ => none

/-- One step of the system.  `consume` panics when it is asked for more than is buffered. -/
def next (s : State B E) (ev : Event B E) : Option (State B E) :=
  match ev, s.poller with
  | .poll call cx, .idle _ => some (s.pollFillBuf call cx)
  | .consume amt, .idle _ =>
      if amt ≤ s.buffered.length then some { s.drain amt with poller := .idle (some .consumed) }
      else some { s with poller := .panicked }
  | .drop, .idle _ => some { s with cmdTx := false, poller := .dropped }
  | .poller, _ => pollerNext s
  | .bg answer, _ => bgNext s answer
  | _, _ => none

/-! ## What a step can do -/

/-- **`Moves s ev t`** — the steps of the system, one constructor for each kind. -/
inductive Moves (s : State B E) : Event B E → State B E → Prop
  | waits {call : ReadCall} {cx : Nat} : s.poller.isIdle = true → s.pending = true →
      Moves s (.poll call cx) { s with poller := .taking call cx }
  | requests {call : ReadCall} {cx : Nat} : s.poller.isIdle = true → s.pending = false →
      s.buffered = [] →
      Moves s (.poll call cx) { s with pending := true, poller := .storingWaker cx }
  | serves {call : ReadCall} {cx : Nat} : s.poller.isIdle = true → s.pending = false →
      Moves s (.poll call cx) (s.ready call)
  | consumes {amt : Nat} : s.poller.isIdle = true →
      Moves s (.consume amt) { s.drain amt with poller := .idle (some .consumed) }
  | overdrawn {amt : Nat} : s.poller.isIdle = true →
      Moves s (.consume amt) { s with poller := .panicked }
  | drops : s.poller.isIdle = true → Moves s .drop { s with cmdTx := false, poller := .dropped }
  | takes {call : ReadCall} {cx : Nat} {x : List B} : s.poller = .taking call cx →
      s.read = some (.ok x) →
      Moves s .poller (State.ready { s with read := none, buffered := x, pending := false } call)
  | fails {call : ReadCall} {cx : Nat} {e : E} : s.poller = .taking call cx →
      s.read = some (.error e) →
      Moves s .poller { s with read := none, poller := .idle (some (.failed e)) }
  | misses {call : ReadCall} {cx : Nat} : s.poller = .taking call cx → s.read = none →
      Moves s .poller { s with poller := .replacingWaker cx }
  | replaces {cx : Nat} : s.poller = .replacingWaker cx →
      Moves s .poller { s with waker := some cx, poller := .idle (some .pending) }
  | stores {cx : Nat} : s.poller = .storingWaker cx →
      Moves s .poller { s with waker := some cx, poller := .sending }
  | meets : s.poller = .sending → s.bg = .recv →
      Moves s .poller { s with bg := .reading, poller := .idle (some .pending) }
  | unheard : s.poller = .sending → s.bg = .returned →
      Moves s .poller { s with poller := .panicked }
  | disconnected : s.bg = .recv → s.cmdTx = false → Moves s (.bg .silent) { s with bg := .returned }
  | produced {bytes : List B} : s.bg = .reading →
      Moves s (.bg (.read bytes))
        { s with produced := s.produced ++ bytes, bg := .holding (.ok bytes) }
  | readFailed {error : E} : s.bg = .reading →
      Moves s (.bg (.failed error)) { s with bg := .holding (.error error) }
  | puts {res : Except E (List B)} : s.bg = .holding res →
      Moves s (.bg .silent) { s with read := some res, bg := .waking }
  | wakes : s.bg = .waking → Moves s (.bg .silent) { s with waker := none, bg := .releasing }
  | releases : s.bg = .releasing → Moves s (.bg .silent) { s with bg := .recv }

variable {s t : State B E}

theorem pollFillBuf_moves (hidle : s.poller.isIdle = true) (call : ReadCall) (cx : Nat) :
    Moves s (.poll call cx) (s.pollFillBuf call cx) := by
  unfold State.pollFillBuf
  by_cases hp : s.pending = true
  · rw [if_pos hp]
    exact .waits hidle hp
  · rw [if_neg hp]
    have hfalse : s.pending = false := Bool.eq_false_iff.mpr hp
    by_cases hb : s.buffered.isEmpty = true
    · rw [if_pos hb]
      exact .requests hidle hfalse (List.isEmpty_iff.mp hb)
    · rw [if_neg hb]
      exact .serves hidle hfalse

theorem pollerNext_moves (hs : pollerNext s = some t) : Moves s .poller t := by
  unfold pollerNext at hs
  cases hp : s.poller with
  | taking call cx =>
      simp only [hp] at hs
      split at hs
      · cases hs
      · split at hs
        next x hr => exact Option.some.inj hs ▸ .takes hp hr
        next e hr => exact Option.some.inj hs ▸ .fails hp hr
        next hr => exact Option.some.inj hs ▸ .misses hp hr
  | replacingWaker cx =>
      simp only [hp] at hs
      exact Option.some.inj hs ▸ .replaces hp
  | storingWaker cx =>
      simp only [hp] at hs
      exact Option.some.inj hs ▸ .stores hp
  | sending =>
      simp only [hp] at hs
      split at hs
      next hb => exact Option.some.inj hs ▸ .meets hp hb
      next hb => exact Option.some.inj hs ▸ .unheard hp hb
      next => cases hs
  | idle answer => simp [hp] at hs
  | dropped => simp [hp] at hs
  | panicked => simp [hp] at hs

theorem bgNext_moves {answer : ReaderAnswer B E} (hs : bgNext s answer = some t) :
    Moves s (.bg answer) t := by
  unfold bgNext at hs
  split at hs
  next hb =>
    split at hs
    next => cases hs
    next htx => exact Option.some.inj hs ▸ .disconnected hb (Bool.not_eq_true _ ▸ htx)
  next hb =>
    split at hs
    next => exact Option.some.inj hs ▸ .produced hb
    next => cases hs
  next hb => exact Option.some.inj hs ▸ .readFailed hb
  next hb =>
    split at hs
    next => cases hs
    next => exact Option.some.inj hs ▸ .puts hb
  next hb => exact Option.some.inj hs ▸ .wakes hb
  next hb => exact Option.some.inj hs ▸ .releases hb
  next => cases hs

/-- **The steps of the system** are those and no others. -/
theorem next_moves {ev : Event B E} (hs : next s ev = some t) : Moves s ev t := by
  unfold next at hs
  split at hs
  next call cx _ hp => exact Option.some.inj hs ▸ pollFillBuf_moves (by rw [hp]; rfl) call cx
  next amt _ hp =>
    split at hs
    next => exact Option.some.inj hs ▸ .consumes (by rw [hp]; rfl)
    next => exact Option.some.inj hs ▸ .overdrawn (by rw [hp]; rfl)
  next _ hp => exact Option.some.inj hs ▸ .drops (by rw [hp]; rfl)
  next => exact pollerNext_moves hs
  next answer => exact bgNext_moves hs
  next => cases hs

end BackedData.Adapters.AsyncRead
