/-
# BackedData.Utils.AsyncOnceLock — the once-cell that futures initialise together

`AsyncOnceLock` from `utils/sync.rs`: a once-cell beside a mutex-guarded flag and a queue of wakers, and
the future `TryInitFuture` that `get_or_try_init` returns.  The model is a transition system over any
number of such futures.  What a poll does without the mutex (one look at the cell) and what it does
while it holds the mutex are its atomic steps, so that polls on different threads interleave between
them; the answer of the init future is part of the label.

A waker in the queue is represented by the future whose poll put it there.  A future that returned
`Ready(Err)` is not polled again, as the contract of `Future` asks.
-/
import BackedData.Logic.Outcome
import BackedData.Logic.Trace

namespace BackedData.Utils

set_option autoImplicit false

variable {T E : Type}

/-! ## The lock and its futures -/

/-- `AsyncOnceLock`, with the `InitializationQueue` behind its mutex and the mutex's poison flag. -/
structure AsyncOnceLock (T : Type) where
  inner : Option T
  initializing : Bool
  wakers : List Nat
  poisoned : Bool
  deriving DecidableEq, Repr

/-- `TryInitFuture`.  `locking` is the middle of `create`, between the look at the cell and the mutex;
`initializing false` the middle of a poll that has just claimed the initialization; the last three
are futures that returned an error, panicked, or were dropped. -/
inductive TryInitFuture (T E : Type) where
  | creating
  | locking
  | initialized (val : T)
  | initializing (polled : Bool)
  | waiting (queuePos : Nat)
  | failed (err : E)
  | panicked
  | dropped
  deriving DecidableEq, Repr

/-- What the init future answers when it is polled. -/
inductive InitPoll (T E : Type) where
  | pending
  | ready (res : Except E T)
  deriving DecidableEq

namespace AsyncOnceLock

/-- `Once::new`. -/
def new : AsyncOnceLock T := { inner := none, initializing := false, wakers := [], poisoned := false }

/-- `new_with`. -/
def newWith (value : Option T) : AsyncOnceLock T := { (new : AsyncOnceLock T) with inner := value }

/-- `get_or_init`: `set` has no effect on a cell that holds a value. -/
def getOrInit (lock : AsyncOnceLock T) (val : T) : T × AsyncOnceLock T :=
  (lock.inner.getD val, { lock with inner := some (lock.inner.getD val) })

/-- The first look of `create`, before the mutex. -/
def createGet (lock : AsyncOnceLock T) : TryInitFuture T E :=
  match lock.inner with
  | some val => .initialized val
  | none => .locking

/-- With the mutex held and no initialization under way: take the value, or claim. -/
def claim (lock : AsyncOnceLock T) : AsyncOnceLock T × TryInitFuture T E :=
  match lock.inner with
  | some val => (lock, .initialized val)
  | none => ({ lock with initializing := true }, .initializing false)

/-- `create` behind the mutex. -/
def createLocked (lock : AsyncOnceLock T) (me : Nat) : AsyncOnceLock T × TryInitFuture T E :=
  if lock.poisoned then (lock, .panicked)
  else if lock.initializing then
    -- register a waker at the back of the queue
    ({ lock with wakers := lock.wakers ++ [me] }, .waiting lock.wakers.length)
  else lock.claim

/-- `poll` in the state `Initializing`: the init future is polled, and when it is done the hold is
released and the queue emptied, whatever the result. -/
def pollInitializing (lock : AsyncOnceLock T) :
    InitPoll T E → AsyncOnceLock T × TryInitFuture T E
  | .pending => (lock, .initializing true)
  | .ready res =>
      if lock.poisoned then (lock, .panicked)
      else
        let lock := { lock with initializing := false, wakers := [] }
        match res with
        | .ok val => ((lock.getOrInit val).2, .initialized (lock.getOrInit val).1)
        | .error e => (lock, .failed e)

/-- `poll` in the state `Waiting`: `wakers[queue_pos]` is slice indexing, and a panic there is one
with the mutex held. -/
def pollWaiting (lock : AsyncOnceLock T) (me queuePos : Nat) :
    AsyncOnceLock T × TryInitFuture T E :=
  if lock.poisoned then (lock, .panicked)
  else if lock.initializing then
    if queuePos < lock.wakers.length then
      ({ lock with wakers := lock.wakers.set queuePos me }, .waiting queuePos)
    else ({ lock with poisoned := true }, .panicked)
  else lock.claim

end AsyncOnceLock

/-! ## The system -/

/-- One atomic act of one future: the two halves of `create`, a poll of the init future, a poll while
waiting, or being dropped between two polls. -/
inductive Act (T E : Type) where
  | get
  | create
  | pollInit (answer : InitPoll T E)
  | pollWaiting
  | drop
  deriving DecidableEq

/-- A new future of `get_or_try_init`, or an act of future `i`. -/
inductive Event (T E : Type) where
  | spawn
  | act (i : Nat) (a : Act T E)
  deriving DecidableEq

/-- A lock with all futures ever created on it. -/
structure State (T E : Type) where
  lock : AsyncOnceLock T
  futs : List (TryInitFuture T E)
  deriving DecidableEq

/-- A lock no future was created on. -/
def State.of (lock : AsyncOnceLock T) : State T E := { lock, futs := [] }

/-- A new lock, no futures. -/
def State.new : State T E := .of .new

/-- A future between two polls, which its owner may drop. -/
def TryInitFuture.idle : TryInitFuture T E → Bool
  | .creating => true
  | .initialized _ => true
  | .initializing polled => polled
  | .waiting _ => true
  | .failed _ => true
  | _ => false

/-- The act of future `me`, in the state `fut`: what it makes of the lock and of itself. -/
def act (me : Nat) (lock : AsyncOnceLock T) :
    TryInitFuture T E → Act T E → Option (AsyncOnceLock T × TryInitFuture T E)
  | .creating, .get => some (lock, lock.createGet)
  | .locking, .create => some (lock.createLocked me)
  | .initializing _, .pollInit answer => some (lock.pollInitializing answer)
  | .waiting queuePos, .pollWaiting => some (lock.pollWaiting me queuePos)
  | fut, .drop => if fut.idle then some (lock, .dropped) else none
  | _, _ => none

/-- One step of the system. -/
def next (s : State T E) : Event T E → Option (State T E)
  | .spawn => some { s with futs := s.futs ++ [.creating] }
  | .act i a =>
      match s.futs[i]? with
      | none => none
      | some fut =>
          match act i s.lock fut a with
          | none => none
          | some (lock, fut) => some { lock, futs := s.futs.set i fut }

/-! ## What an act can do -/

/-- **`Moves me lock fut a lock' fut'`** — every way an act goes, one constructor a branch of the
source, each with the guards that lead to it. -/
inductive Moves (me : Nat) (lock : AsyncOnceLock T) :
    TryInitFuture T E → Act T E → AsyncOnceLock T → TryInitFuture T E → Prop
  | gotValue {v : T} : lock.inner = some v → Moves me lock .creating .get lock (.initialized v)
  | gotNone : lock.inner = none → Moves me lock .creating .get lock .locking
  | enqueued : lock.poisoned = false → lock.initializing = true →
      Moves me lock .locking .create { lock with wakers := lock.wakers ++ [me] }
        (.waiting lock.wakers.length)
  | createFound {v : T} : lock.poisoned = false → lock.initializing = false →
      lock.inner = some v → Moves me lock .locking .create lock (.initialized v)
  | createClaims : lock.poisoned = false → lock.initializing = false → lock.inner = none →
      Moves me lock .locking .create { lock with initializing := true } (.initializing false)
  | createPoisoned : lock.poisoned = true → Moves me lock .locking .create lock .panicked
  | initPending {b : Bool} :
      Moves me lock (.initializing b) (.pollInit .pending) lock (.initializing true)
  | initOk {b : Bool} {v : T} : lock.poisoned = false →
      Moves me lock (.initializing b) (.pollInit (.ready (.ok v)))
        { lock with initializing := false, wakers := [], inner := some (lock.inner.getD v) }
        (.initialized (lock.inner.getD v))
  | initErr {b : Bool} {e : E} : lock.poisoned = false →
      Moves me lock (.initializing b) (.pollInit (.ready (.error e)))
        { lock with initializing := false, wakers := [] } (.failed e)
  | initPoisoned {b : Bool} {r : Except E T} : lock.poisoned = true →
      Moves me lock (.initializing b) (.pollInit (.ready r)) lock .panicked
  | slotUpdated {pos : Nat} : lock.poisoned = false → lock.initializing = true →
      pos < lock.wakers.length →
      Moves me lock (.waiting pos) .pollWaiting { lock with wakers := lock.wakers.set pos me }
        (.waiting pos)
  | slotMissing {pos : Nat} : lock.poisoned = false → lock.initializing = true →
      lock.wakers.length ≤ pos →
      Moves me lock (.waiting pos) .pollWaiting { lock with poisoned := true } .panicked
  | wokenFound {pos : Nat} {v : T} : lock.poisoned = false → lock.initializing = false →
      lock.inner = some v → Moves me lock (.waiting pos) .pollWaiting lock (.initialized v)
  | wokenClaims {pos : Nat} : lock.poisoned = false → lock.initializing = false →
      lock.inner = none →
      Moves me lock (.waiting pos) .pollWaiting { lock with initializing := true }
        (.initializing false)
  | wokenPoisoned {pos : Nat} : lock.poisoned = true →
      Moves me lock (.waiting pos) .pollWaiting lock .panicked
  | dropped {fut : TryInitFuture T E} : fut.idle = true → Moves me lock fut .drop lock .dropped

variable {me : Nat} {lock lock' : AsyncOnceLock T} {fut fut' : TryInitFuture T E} {a : Act T E}

theorem createGet_moves (me : Nat) (lock : AsyncOnceLock T) :
    Moves me lock (.creating : TryInitFuture T E) .get lock lock.createGet := by
  obtain ⟨inner, initializing, wakers, poisoned⟩ := lock
  cases inner with
  | none => exact .gotNone rfl
  | some v => exact .gotValue rfl

theorem createLocked_moves (me : Nat) (lock : AsyncOnceLock T) :
    Moves me lock (.locking : TryInitFuture T E) .create (lock.createLocked (E := E) me).1
      (lock.createLocked me).2 := by
  obtain ⟨inner, initializing, wakers, poisoned⟩ := lock
  rcases poisoned with _ | _
  · rcases initializing with _ | _
    · rcases inner with _ | v
      · exact .createClaims rfl rfl rfl
      · exact .createFound rfl rfl rfl
    · exact .enqueued rfl rfl
  · exact .createPoisoned rfl

theorem pollInitializing_moves (me : Nat) (lock : AsyncOnceLock T) (b : Bool)
    (answer : InitPoll T E) :
    Moves me lock (.initializing b) (.pollInit answer) (lock.pollInitializing answer).1
      (lock.pollInitializing answer).2 := by
  rcases answer with _ | r
  · exact .initPending
  · obtain ⟨inner, initializing, wakers, poisoned⟩ := lock
    rcases poisoned with _ | _
    · rcases r with e | v
      · exact .initErr rfl
      · exact .initOk rfl
    · exact .initPoisoned rfl

theorem pollWaiting_moves (me : Nat) (lock : AsyncOnceLock T) (pos : Nat) :
    Moves me lock (.waiting pos : TryInitFuture T E) .pollWaiting
      (lock.pollWaiting (E := E) me pos).1 (lock.pollWaiting me pos).2 := by
  obtain ⟨inner, initializing, wakers, poisoned⟩ := lock
  rcases poisoned with _ | _
  · rcases initializing with _ | _
    · rcases inner with _ | v
      · exact .wokenClaims rfl rfl rfl
      · exact .wokenFound rfl rfl rfl
    · by_cases hpos : pos < wakers.length
      · simp only [AsyncOnceLock.pollWaiting, Bool.false_eq_true, if_false, if_true, if_pos hpos]
        exact .slotUpdated rfl rfl hpos
      · simp only [AsyncOnceLock.pollWaiting, Bool.false_eq_true, if_false, if_true, if_neg hpos]
        exact .slotMissing rfl rfl (Nat.le_of_not_lt hpos)
  · exact .wokenPoisoned rfl

/-- **The inversion of `act`.** -/
theorem act_moves (h : act me lock fut a = some (lock', fut')) : Moves me lock fut a lock' fut' := by
  cases a with
  | get =>
      cases fut with
      | creating =>
          cases h
          exact createGet_moves me lock
      | _ => cases h
  | create =>
      cases fut with
      | locking =>
          have hout : lock.createLocked me = (lock', fut') := Option.some.inj h
          have hm := createLocked_moves (E := E) me lock
          rwa [hout] at hm
      | _ => cases h
  | pollInit answer =>
      cases fut with
      | initializing b =>
          have hout : lock.pollInitializing answer = (lock', fut') := Option.some.inj h
          have hm := pollInitializing_moves me lock b answer
          rwa [hout] at hm
      | _ => cases h
  | pollWaiting =>
      cases fut with
      | waiting pos =>
          have hout : lock.pollWaiting me pos = (lock', fut') := Option.some.inj h
          have hm := pollWaiting_moves (E := E) me lock pos
          rwa [hout] at hm
      | _ => cases h
  | drop =>
      have hd : act me lock fut .drop = if fut.idle then some (lock, .dropped) else none := by
        cases fut <;> rfl
      rw [hd] at h
      by_cases hi : fut.idle = true
      · rw [if_pos hi] at h
        cases h
        exact .dropped hi
      · rw [if_neg hi] at h
        cases h

/-- **The inversion of `next`**: a new future, or one act of one future. -/
theorem next_cases {s t : State T E} {ev : Event T E} (h : next s ev = some t) :
    (ev = .spawn ∧ t = { s with futs := s.futs ++ [.creating] }) ∨
      ∃ i a fut lock fut', ev = .act i a ∧ s.futs[i]? = some fut ∧
        Moves i s.lock fut a lock fut' ∧ t = { lock, futs := s.futs.set i fut' } := by
  cases ev with
  | spawn =>
      left
      exact ⟨rfl, (Option.some.inj h).symm⟩
  | act i a =>
      right
      unfold next at h
      rcases hf : s.futs[i]? with _ | fut
      · simp [hf] at h
      · rcases ha : act i s.lock fut a with _ | ⟨lock, fut'⟩
        · simp [hf, ha] at h
        · simp only [hf, ha, Option.some.injEq] at h
          exact ⟨i, a, fut, lock, fut', rfl, hf, act_moves ha, h.symm⟩

/-! ## Reading the futures after a step -/

section Futures

variable {futs : List (TryInitFuture T E)} {i j : Nat}

/-- A future after the act of future `i`. -/
theorem getElem?_set_of_some (h : futs[i]? = some fut) :
    (futs.set i fut')[j]? = if i = j then some fut' else futs[j]? := by
  rw [List.getElem?_set]
  have hlt : i < futs.length := (List.getElem?_eq_some_iff.mp h).1
  by_cases hij : i = j
  · subst hij
    rw [if_pos rfl, if_pos rfl, if_pos hlt]
  · rw [if_neg hij, if_neg hij]

/-- A future other than the new one was there before. -/
theorem getElem?_spawn {p : TryInitFuture T E} (h : (futs ++ [.creating])[j]? = some p) :
    p = .creating ∨ futs[j]? = some p := by
  by_cases hj : j < futs.length
  · right
    rwa [List.getElem?_append_left hj] at h
  · left
    rw [List.getElem?_append_right (Nat.le_of_not_lt hj)] at h
    have := List.mem_of_getElem? h
    simpa using this

end Futures

end BackedData.Utils
