/-
# BackedData.Adapters.Wakeups — whether the waker of a pending flush is ever woken

`poll_flush` looks at the statuses first and stores its waker afterwards; the background thread sends
the status of a Flush command first and looks at the waker afterwards.  When the thread does both between
the two steps of the poll, nobody wakes the waker that is then stored.  And a `poll_flush` that finds an
older waker in the slot sends no Flush command, so that no wake may be left to come at all.

`wakeups_exact`: the waker that a `poll_flush` stores has been woken by the time the thread is idle with
an empty queue exactly when, at the moment it was stored, a Flush command was still ahead of the thread
(queued, in work, or carried out with the look at the waker still to come).
-/
import BackedData.Adapters.FlushCycles

namespace BackedData.Adapters

open Logic.Trace

set_option autoImplicit false

variable {B E : Type} {s t : State B E}

/-! ## What is ahead of the thread -/

/-- The command is a Flush command. -/
def AsyncWriteCommand.isFlush : AsyncWriteCommand B → Bool
  | .write _ => false
  | .flush => true

/-- The thread is carrying out a Flush command, and has not looked at the waker for it. -/
def Bg.inFlush : Bg B E → Bool
  | .flushing => true
  | .sendingStatus _ => true
  | .waking => true
  | _ => false

/-- A look at the waker is still to come. -/
def State.flushAhead (s : State B E) : Bool := s.bg.inFlush || s.cmds.any AsyncWriteCommand.isFlush

/-- The poll is about to store its waker, and to return `Pending`. -/
def Poller.storing : Poller B E → Bool
  | .storingWaker _ => true
  | _ => false

/-- The thread has processed every queued command and waits for the next. -/
def State.isIdle (s : State B E) : Prop := s.bg = .recv ∧ s.cmds = []

instance [DecidableEq B] [DecidableEq E] (s : State B E) : Decidable s.isIdle :=
  inferInstanceAs (Decidable (_ ∧ _))

/-- The waker that the most recent `poll_flush` stored: whether a Flush command was ahead of the thread
then, and whether it has been woken since. -/
structure Stored where
  ahead : Bool
  woken : Bool
  deriving DecidableEq, Repr

/-- What an observer knows of that waker; nothing unless the most recent `poll_flush` returned `Pending`.
The thread wakes the waker in the slot, if there is one. -/
def noteWaker (s : State B E) (ev : Event B E) (_ : State B E) (stored : Option Stored) :
    Option Stored :=
  match ev with
  | .pollFlush _ => none
  | .poller =>
      match s.poller with
      | .storingWaker _ => some { ahead := s.flushAhead, woken := false }
      | _ => stored
  | .bg _ =>
      match s.bg, s.flushWaker with
      | .waking, some _ => stored.map fun r => { r with woken := true }
      | _, _ => stored
  | _ => stored

/-- **`NoneLost`** — if the most recent `poll_flush` returned `Pending` and the thread is idle, the waker
it stored has been woken. -/
def NoneLost (p : State B E × Option Stored) : Prop :=
  p.1.isIdle → ∀ r ∈ p.2, r.woken = true

/-- In the same states: a Flush command was ahead of the thread when the waker was stored. -/
def StoredInTime (p : State B E × Option Stored) : Prop :=
  p.1.isIdle → ∀ r ∈ p.2, r.ahead = true

/-- The step, if it stores a waker, does so with a Flush command ahead of the thread. -/
def StoresInTime (p : State B E × Option Stored) (ev : Event B E) (_ : State B E × Option Stored) :
    Prop :=
  ev = .poller → p.1.poller.storing = true → p.1.flushAhead = true

instance [DecidableEq B] [DecidableEq E] (p : State B E × Option Stored) (ev : Event B E)
    (q : State B E × Option Stored) : Decidable (StoresInTime p ev q) :=
  inferInstanceAs (Decidable (_ → _))

/-! ## What a step does to the Flush commands ahead -/

/-- **A step of the thread** leaves the Flush commands ahead of it as they are, unless it looks at the
waker or ends. -/
theorem bg_flushAhead {answer : InnerAnswer E} (h : BgMoves s answer t) :
    (t.flushAhead = true → s.flushAhead = true) ∧
      (s.flushAhead = true → s.bg = .waking ∨ t.flushAhead = true ∨ t.bg.stopped = true) := by
  have hsend : ∀ (status : Except (WriteError E) Unit) (bg : Bg B E), bg.inFlush = s.bg.inFlush →
      (s.sendStatus status bg).flushAhead = s.flushAhead := by
    intro status bg hbg
    rw [State.sendStatus_eq]
    unfold State.flushAhead
    rw [hbg]
  have hsame : t.flushAhead = s.flushAhead →
      (t.flushAhead = true → s.flushAhead = true) ∧
        (s.flushAhead = true → s.bg = .waking ∨ t.flushAhead = true ∨ t.bg.stopped = true) := by
    intro heq
    rw [heq]
    exact ⟨id, fun h => Or.inr (Or.inl h)⟩
  cases h with
  | @received cmd cmds hb hc =>
      -- the command at the head of the queue is the one in work now
      apply hsame
      unfold State.flushAhead
      rw [hb, hc, List.any_cons]
      cases cmd with
      | write data => rfl
      | flush => rfl
  | disconnected hb | abandoned hb | unheard hb =>
      refine ⟨fun h => ?_, fun _ => Or.inr (Or.inr rfl)⟩
      unfold State.flushAhead
      rw [hb]
      exact h
  | wrote hb | writeFailed hb | resumed hb | flushed hb | flushFailed hb =>
      apply hsame
      unfold State.flushAhead
      rw [hb]
      rfl
  | interrupted | wokenUp => exact hsame rfl
  | written hb | reported hb | answered hb => exact hsame (hsend _ _ (by rw [hb]; rfl))
  | waking hb =>
      refine ⟨fun _ => ?_, fun _ => Or.inl hb⟩
      unfold State.flushAhead
      rw [hb]
      rfl

/-- A step of the thread leaves the waker where it is. -/
theorem bg_flushWaker {answer : InnerAnswer E} (h : BgMoves s answer t) :
    t.flushWaker = s.flushWaker := by
  cases h with
  | written | reported | answered => rw [State.sendStatus_eq]
  | _ => rfl

/-- A step of a call that is no `poll_flush` stores no waker and sends no Flush command. -/
theorem poller_flushAhead (h : PollerMoves s t) (hf : s.poller.flushing = false) :
    t.poller.flushing = false ∧ t.flushWaker = s.flushWaker ∧ t.bg = s.bg ∧
      t.flushAhead = s.flushAhead := by
  cases h with
  | retrying hp | taken hp | buffered hp | dropping hp | closing hp => exact ⟨rfl, rfl, rfl, rfl⟩
  | failed hd | miscounted hd => exact ⟨rfl, rfl, rfl, rfl⟩
  | counted hd => exact ⟨hf, rfl, rfl, rfl⟩
  | unsent hsends => exact ⟨rfl, rfl, rfl, rfl⟩
  | sent hsends =>
      generalize s.poller = p at hf hsends
      cases hsends with
      | write data n =>
          refine ⟨rfl, rfl, rfl, ?_⟩
          simp [State.flushAhead, AsyncWriteCommand.isFlush]
      | flush cx => cases hf
  | starting hp | goingOn hp | waiting hp | flushed hp | stored hp =>
      rw [hp] at hf
      cases hf

/-! ## The invariant -/

/-- **`Awaited p`** — a waker that was stored in time has been woken, or has a look at it to come, or the
thread has ended; one that was stored too late has neither. -/
structure Awaited (p : State B E × Option Stored) : Prop where
  outside : ∀ r ∈ p.2, p.1.poller.flushing = false
  slot : ∀ r ∈ p.2, p.1.flushWaker ≠ none
  inTime : ∀ r ∈ p.2, r.ahead = true →
    r.woken = true ∨ p.1.flushAhead = true ∨ p.1.bg.stopped = true
  late : ∀ r ∈ p.2, r.ahead = false → r.woken = false ∧ p.1.flushAhead = false

theorem awaited_none (s : State B E) : Awaited (s, none) :=
  ⟨nofun, nofun, nofun, nofun⟩

/-- The invariant, for a waker that has been noted. -/
theorem awaited_some {r : Stored} (houtside : s.poller.flushing = false) (hslot : s.flushWaker ≠ none)
    (hin : r.ahead = true → r.woken = true ∨ s.flushAhead = true ∨ s.bg.stopped = true)
    (hlate : r.ahead = false → r.woken = false ∧ s.flushAhead = false) : Awaited (s, some r) := by
  refine ⟨?_, ?_, ?_, ?_⟩
  · rintro _ ⟨⟩
    exact houtside
  · rintro _ ⟨⟩
    exact hslot
  · rintro _ ⟨⟩
    exact hin
  · rintro _ ⟨⟩
    exact hlate

/-- A step that leaves the thread, the queue and the slot as they are for this purpose. -/
theorem Awaited.keep {stored : Option Stored} (h : Awaited (s, stored))
    (hpoller : t.poller.flushing = false) (hwaker : t.flushWaker = s.flushWaker) (hbg : t.bg = s.bg)
    (hahead : t.flushAhead = s.flushAhead) : Awaited (t, stored) := by
  refine ⟨fun _ _ => hpoller, fun r hr => ?_, fun r hr hin => ?_, fun r hr hlate => ?_⟩
  · show t.flushWaker ≠ none
    rw [hwaker]
    exact h.slot r hr
  · show r.woken = true ∨ t.flushAhead = true ∨ t.bg.stopped = true
    rw [hahead, hbg]
    exact h.inTime r hr hin
  · show r.woken = false ∧ t.flushAhead = false
    rw [hahead]
    exact h.late r hr hlate

/-- Storing the waker. -/
theorem awaited_stored {cx : Nat}
    (ht : t = { s with flushWaker := some cx, poller := .idle (some .pending) }) :
    Awaited (t, some { ahead := s.flushAhead, woken := false }) := by
  subst ht
  apply awaited_some rfl (Option.some_ne_none cx)
  · intro hin
    exact Or.inr (Or.inl hin)
  · intro hlate
    exact ⟨rfl, hlate⟩

/-- A step of the thread. -/
theorem Awaited.bg {stored : Option Stored} {answer : InnerAnswer E} (h : Awaited (s, stored))
    (hs : bgNext s answer = some t) : Awaited (t, noteWaker s (.bg answer) t stored) := by
  have hmoves := bgNext_moves hs
  have hpoller : t.poller = s.poller := (bgNext_frame hs).1
  have hwaker := bg_flushWaker hmoves
  obtain ⟨hback, hforth⟩ := bg_flushAhead hmoves
  cases stored with
  | none =>
      have hnone : noteWaker s (.bg answer) t none = none := by
        simp only [noteWaker]
        split <;> rfl
      rw [hnone]
      exact awaited_none t
  | some r =>
      have houtside : t.poller.flushing = false := by
        rw [hpoller]
        exact h.outside r rfl
      have hslot : t.flushWaker ≠ none := by
        rw [hwaker]
        exact h.slot r rfl
      by_cases hwaking : s.bg = .waking
      · -- the thread looks at the waker, and there is one
        have hahead : s.flushAhead = true := by
          unfold State.flushAhead
          rw [hwaking]
          rfl
        have hnote : noteWaker s (.bg answer) t (some r) = some { r with woken := true } := by
          obtain ⟨cx, hcx⟩ := Option.ne_none_iff_exists'.mp (h.slot r rfl)
          simp only [noteWaker, hwaking, show s.flushWaker = some cx from hcx, Option.map_some]
        rw [hnote]
        apply awaited_some houtside hslot
        · intro _
          exact Or.inl rfl
        · intro hlate
          have hnot := (h.late r rfl hlate).2
          rw [show s.flushAhead = false from hnot] at hahead
          cases hahead
      · have hnote : noteWaker s (.bg answer) t (some r) = some r := by
          simp only [noteWaker]
          split
          next hb _ => exact absurd hb hwaking
          next => rfl
        rw [hnote]
        apply awaited_some houtside hslot
        · intro hin
          rcases h.inTime r rfl hin with hw | ha | hstopped
          · exact Or.inl hw
          · exact Or.inr ((hforth ha).resolve_left hwaking)
          · -- a thread that has ended makes no step
            exfalso
            change s.bg.stopped = true at hstopped
            cases hb : s.bg with
            | returned => simp [bgNext, hb] at hs
            | panicked => simp [bgNext, hb] at hs
            | _ =>
                rw [hb] at hstopped
                cases hstopped
        · intro hlate
          obtain ⟨hw, hnot⟩ := h.late r rfl hlate
          refine ⟨hw, Bool.eq_false_iff.mpr fun hahead => ?_⟩
          rw [show s.flushAhead = false from hnot] at hback
          cases hback hahead

/-- **The step lemma.** -/
theorem Awaited.step {p q : State B E × Option Stored} {ev : Event B E} (h : Awaited p)
    (hs : observed next noteWaker p ev = some q) : Awaited q := by
  obtain ⟨s, stored⟩ := p
  obtain ⟨t, stored'⟩ := q
  obtain ⟨hnext, hnote⟩ := observed_inv hs
  change next s ev = some t at hnext
  change stored' = noteWaker s ev t stored at hnote
  subst hnote
  cases ev with
  | bg answer => exact h.bg hnext
  | pollFlush cx => exact awaited_none t
  | pollWrite buf =>
      obtain ⟨⟨answer, hp⟩, rfl | rfl⟩ := pollWrite_inv hnext
      · exact h.keep rfl rfl rfl rfl
      · exact h.keep rfl rfl rfl rfl
  | drop =>
      obtain ⟨⟨answer, hp⟩, rfl⟩ := drop_inv hnext
      exact h.keep rfl rfl rfl rfl
  | poller =>
      have hmoves := pollerNext_moves hnext
      by_cases hstoring : ∃ cx, s.poller = .storingWaker cx
      · obtain ⟨cx, hp⟩ := hstoring
        have hnote : noteWaker s .poller t stored = some { ahead := s.flushAhead, woken := false } := by
          simp only [noteWaker, hp]
        rw [hnote]
        change pollerNext s = some t at hnext
        simp only [pollerNext, hp, Option.some.injEq] at hnext
        exact awaited_stored hnext.symm
      · have hnote : noteWaker s .poller t stored = stored := by
          simp only [noteWaker]
          split
          next cx hp => exact absurd ⟨cx, hp⟩ hstoring
          next => rfl
        rw [hnote]
        cases stored with
        | none => exact awaited_none t
        | some r =>
            obtain ⟨hpoller, hwaker, hbg, hahead⟩ := poller_flushAhead hmoves (h.outside r rfl)
            exact h.keep hpoller hwaker hbg hahead

/-- **One state.**  Where the thread is idle, the waker has been woken exactly when it was stored in
time. -/
theorem Awaited.noneLost_iff {p : State B E × Option Stored} (h : Awaited p) :
    NoneLost p ↔ StoredInTime p := by
  have hnothing : p.1.isIdle → p.1.flushAhead = false ∧ p.1.bg.stopped = false := by
    rintro ⟨hb, hc⟩
    unfold State.flushAhead
    rw [hb, hc]
    exact ⟨rfl, rfl⟩
  constructor
  · intro hwoken hidle r hr
    have hw := hwoken hidle r hr
    cases ha : r.ahead with
    | true => rfl
    | false =>
        rw [(h.late r hr ha).1] at hw
        cases hw
  · intro hin hidle r hr
    obtain ⟨hahead, hstopped⟩ := hnothing hidle
    rcases h.inTime r hr (hin hidle r hr) with hw | ha | hs
    · exact hw
    · rw [hahead] at ha
      cases ha
    · rw [hstopped] at hs
      cases hs

/-- Where every waker is stored in time, the one that is noted was. -/
theorem storedInTime_step {p q : State B E × Option Stored} {ev : Event B E}
    (h : ∀ r ∈ p.2, r.ahead = true) (hs : observed next noteWaker p ev = some q)
    (hcond : StoresInTime p ev q) : ∀ r ∈ q.2, r.ahead = true := by
  obtain ⟨-, hnote⟩ := observed_inv hs
  rw [hnote]
  unfold noteWaker
  split
  · nofun
  · split
    next cx hp =>
      rintro r ⟨⟩
      exact hcond rfl (by rw [hp]; rfl)
    next => exact h
  · split
    next =>
      intro r hr
      obtain ⟨r', hr', rfl⟩ := Option.map_eq_some_iff.mp hr
      exact h r' hr'
    next => exact h
  · exact h

/-- **The exact condition of the wakeups.**  Over any run of the adapter and its thread, with any errors
of the inner writer: if every `poll_flush` that stores its waker does so with a Flush command ahead of the
thread, no wakeup is lost in any state.  And state by state, the waker has been woken when the thread is
idle exactly when it was stored in time. -/
theorem wakeups_exact (bufferMinSize : Nat) {tr : List (Event B E × (State B E × Option Stored))}
    (htr : IsTrace (Steps (observed next noteWaker)) (.new bufferMinSize, none) tr) :
    (StepsMeet StoresInTime (.new bufferMinSize, none) tr →
        StatesMeet NoneLost (.new bufferMinSize, none) tr) ∧
      ∀ x ∈ tr, NoneLost x.2 ↔ StoredInTime x.2 := by
  have hnew : Awaited ((.new bufferMinSize, none) : State B E × Option Stored) := awaited_none _
  have hall := invariant (P := Awaited) (fun _ _ _ h hs => h.step hs) hnew htr
  refine ⟨fun hcond => ?_, fun x hx => (hall.2 x hx).noneLost_iff⟩
  have hnone : ∀ r ∈ (none : Option Stored), r.ahead = true := nofun
  have hin := invariant_under (P := fun p : State B E × Option Stored => ∀ r ∈ p.2, r.ahead = true)
    (fun _ _ _ h hs hc => storedInTime_step h hs hc) hnone htr hcond
  exact ⟨hnew.noneLost_iff.mpr fun _ => hnone,
    fun x hx => (hall.2 x hx).noneLost_iff.mpr fun _ => hin.2 x hx⟩

/-! ### The four steps of the race -/

/-- A `poll_flush` sends its Flush command and finds no status; the thread carries the command out, and
looks at the waker before the poll has stored it. -/
def overtakenFlush : List (Event Nat Unit) :=
  [.pollFlush 0, .poller, .poller, .poller, .bg .silent, .bg .flushed, .bg .silent, .bg .silent,
    .poller]

/-- The poll returns `Pending`, the thread is idle with nothing queued, and nobody wakes the waker. -/
theorem overtakenFlush_lost :
    (follow (observed next noteWaker) (.new 1, none) overtakenFlush).map Prod.fst = overtakenFlush ∧
      (last (.new 1, none) (follow (observed next noteWaker) (.new 1, none) overtakenFlush)).1.poller =
        .idle (some .pending) ∧
      (last (.new 1, none) (follow (observed next noteWaker) (.new 1, none) overtakenFlush)).1.isIdle ∧
      (last (.new 1, none) (follow (observed next noteWaker) (.new 1, none) overtakenFlush)).2 =
        some { ahead := false, woken := false } := by
  decide

/-- The same calls, with the poll done before the thread takes the command. -/
def awaitedFlush : List (Event Nat Unit × (State Nat Unit × Option Stored)) :=
  follow (observed next noteWaker) (.new 1, none)
    [.pollFlush 0, .poller, .poller, .poller, .poller, .bg .silent, .bg .flushed, .bg .silent,
      .bg .silent]

theorem wakeups_exact_awaited : StatesMeet NoneLost (.new 1, none) awaitedFlush :=
  (wakeups_exact 1 (isTrace_follow _ _ _)).1 (by decide)

end BackedData.Adapters
