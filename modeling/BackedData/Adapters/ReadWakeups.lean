/-
# BackedData.Adapters.ReadWakeups — a reader that never blocks its caller, and whom it wakes

`SyncAsAsyncRead` promises what every non-blocking reader does: a poll returns without waiting for the
`Read` behind it, and a poll that returned `Pending` is not forgotten.

The first promise holds.  A poll waits for the thread twice, for the mutex of the slot and at the channel
without room, and in both cases only for steps of the thread that do not call the reader: from any state of
any run the two sides come to rest within seven steps, with no call in progress (`polls_return`).

For the second, an observer remembers the waker that the most recent poll left (`Watch`).  As long as no poll
goes to sleep behind an error, that waker is in its place, with the thread on its way to it, or it has been
woken and the response lies in the slot.  `reader_wakeups_exact`: over any run this is so in every state
exactly when no poll that found the slot empty stores its waker once an error has been taken.
-/
import BackedData.Adapters.ReadExchange

namespace BackedData.Adapters.AsyncRead

open Logic.Trace

set_option autoImplicit false

variable {B E : Type} {s t : State B E} {ev : Event B E}

/-! ## The waker of the most recent poll -/

/-- What an observer knows: the waker that the most recent poll stored, and whether it has been woken since;
and whether an error has been taken out of the slot. -/
structure Watch where
  stored : Option (Nat × Bool)
  erred : Bool
  deriving DecidableEq, Repr

/-- The thread wakes the waker in the slot. -/
def Watch.wake (w : Watch) (waker : Option Nat) : Watch :=
  { w with stored := w.stored.map fun r => (r.1, r.2 || waker == some r.1) }

/-- What the observer makes of a step. -/
def noteWatch (s : State B E) (ev : Event B E) (_ : State B E) (w : Watch) : Watch :=
  match ev with
  | .poll _ _ => { w with stored := none }
  | .poller =>
      match s.poller with
      | .storingWaker cx => { w with stored := some (cx, false) }
      | .replacingWaker cx => { w with stored := some (cx, false) }
      | .taking _ _ => { w with erred := w.erred || s.failedRead }
      | _ => w
  | .bg _ =>
      match s.bg with
      | .waking => w.wake s.waker
      | _ => w
  | _ => w

/-- The thread has a response to put into the slot, or its look at the waker is still to come. -/
def ReadBg.coming : ReadBg B E → Bool
  | .reading => true
  | .holding _ => true
  | .waking => true
  | _ => false

/-- **`Attended p`** — between two calls: the waker of the poll that went to sleep has been woken, and the
response is there; or it is in its place, and the thread is on its way to it. -/
def Attended (p : State B E × Watch) : Prop :=
  p.1.poller.isIdle = true → ∀ r ∈ p.2.stored,
    (r.2 = true ∧ p.1.read.isSome = true) ∨
      (r.2 = false ∧ p.1.waker = some r.1 ∧ p.1.bg.coming = true)

/-- A poll that found the slot empty stores its waker before any error has been taken. -/
def SleepsInTime (p : State B E × Watch) (ev : Event B E) (_ : State B E × Watch) : Prop :=
  ev = .poller → p.1.poller.holdsLock = true → p.2.erred = false

instance (p : State B E × Watch) (ev : Event B E) (q : State B E × Watch) :
    Decidable (SleepsInTime p ev q) :=
  match ev with
  | .poller => decidable_of_iff (p.1.poller.holdsLock = true → p.2.erred = false)
      ⟨fun h _ => h, fun h => h rfl⟩
  | .poll _ _ => isTrue fun h => by cases h
  | .consume _ => isTrue fun h => by cases h
  | .drop => isTrue fun h => by cases h
  | .bg _ => isTrue fun h => by cases h

/-! ## The invariant -/

/-- The thread waits for a command, or has ended. -/
def ReadBg.rests : ReadBg B E → Bool
  | .recv => true
  | .returned => true
  | _ => false

/-- **`Watched s w`** — what the two sides know of each other.  Nothing is on its way where nothing is pending
or the command is still to be sent, and nothing behind an error; else the response is with the thread or in
the slot, and in the slot as long as the thread holds the mutex. -/
structure Watched (s : State B E) (w : Watch) : Prop where
  settled : s.pending = false ∨ s.poller.requesting = true → s.bg.rests = true ∧ s.read = none
  asking : s.poller.requesting = true ∨ s.poller.isTaking = true ∨ s.poller.holdsLock = true →
    s.pending = true
  underway : w.erred = false → s.pending = true → s.poller.requesting = false →
    s.bg.busy = 1 ∨ s.read.isSome = true
  spent : w.erred = true →
    s.pending = true ∧ s.poller.requesting = false ∧ s.bg.rests = true ∧ s.read = none
  delivered : s.bg.holdsLock = true → s.read.isSome = true
  single : s.read.isSome = true → s.bg.busy = 0
  sleeping : s.poller.holdsLock = true → s.read = none
  sending : s.poller = .sending → ∃ cx, w.stored = some (cx, false) ∧ s.waker = some cx
  fresh : s.poller.isTaking = true → w.stored = none

variable {w : Watch}

theorem watched_new (bufferSize : Nat) : Watched (.new bufferSize : State B E) ⟨none, false⟩ where
  settled _ := ⟨rfl, rfl⟩
  asking := by rintro (h | h | h) <;> cases h
  underway _ h _ := by cases h
  spent h := by cases h
  delivered h := by cases h
  single h := by cases h
  sleeping h := by cases h
  sending h := by cases h
  fresh _ := rfl

/-- The call is neither about to send nor to take, and does not hold the mutex. -/
theorem isIdle_inert {poller : ReadPoller B E} (h : poller.isIdle = true) :
    poller.requesting = false ∧ poller.isTaking = false ∧ poller.holdsLock = false := by
  cases poller with
  | idle answer => exact ⟨rfl, rfl, rfl⟩
  | _ => cases h

/-- A step of a call that sends nothing and takes nothing out of the slot. -/
theorem Watched.move {poller : ReadPoller B E} {waker : Option Nat} {cmdTx : Bool}
    {buffered consumed : List B} {stored : Option (Nat × Bool)} (h : Watched s w)
    (hfrom : s.poller.requesting = false) (hto : poller.requesting = false)
    (htaking : poller.isTaking = true → s.pending = true ∧ stored = none)
    (hlock : poller.holdsLock = true → s.pending = true ∧ s.read = none) :
    Watched { s with poller, waker, cmdTx, buffered, consumed } { w with stored } := by
  have hnot : poller.requesting ≠ true := Bool.eq_false_iff.mp hto
  refine ⟨?_, ?_, ?_, ?_, h.delivered, h.single, fun hl => (hlock hl).2, ?_,
    fun htake => (htaking htake).2⟩
  · rintro (hclear | hreq)
    · exact h.settled (Or.inl hclear)
    · exact absurd hreq hnot
  · rintro (hreq | htake | hl)
    · exact absurd hreq hnot
    · exact (htaking htake).1
    · exact (hlock hl).1
  · intro herred hpending _
    exact h.underway herred hpending hfrom
  · intro herred
    obtain ⟨hpending, -, hrests, hread⟩ := h.spent herred
    exact ⟨hpending, hto, hrests, hread⟩
  · intro hsending
    change poller = .sending at hsending
    subst hsending
    exact absurd rfl hnot

/-- The end of a call that has something buffered. -/
theorem Watched.ready {stored : Option (Nat × Bool)} (h : Watched s w)
    (hfrom : s.poller.requesting = false) (call : ReadCall) :
    Watched (s.ready call) { w with stored } := by
  cases call with
  | fillBuf => exact h.move hfrom rfl nofun nofun
  | read bufLen => exact h.move hfrom rfl nofun nofun

/-- A call asks for a response. -/
theorem Watched.requested {cx : Nat} {stored : Option (Nat × Bool)} (h : Watched s w)
    (hpending : s.pending = false) :
    Watched { s with pending := true, poller := .storingWaker cx } { w with stored } := by
  refine ⟨fun _ => h.settled (Or.inl hpending), fun _ => rfl, nofun, ?_, h.delivered, h.single, nofun,
    nofun, nofun⟩
  intro herred
  rw [(h.spent herred).1] at hpending
  cases hpending

/-- The call leaves its waker before it sends. -/
theorem Watched.left {cx : Nat} (h : Watched s w) (hp : s.poller = .storingWaker cx) :
    Watched { s with waker := some cx, poller := .sending } { w with stored := some (cx, false) } := by
  have hreq : s.poller.requesting = true := by rw [hp]; rfl
  refine ⟨fun _ => h.settled (Or.inr hreq), fun _ => h.asking (Or.inl hreq), nofun, ?_, h.delivered,
    h.single, nofun, fun _ => ⟨cx, rfl, rfl⟩, nofun⟩
  intro herred
  rw [(h.spent herred).2.1] at hreq
  cases hreq

/-- The two sides meet on the channel. -/
theorem Watched.met (h : Watched s w) (hp : s.poller = .sending) :
    Watched { s with bg := .reading, poller := .idle (some .pending) } w := by
  have hreq : s.poller.requesting = true := by rw [hp]; rfl
  have hpending := h.asking (Or.inl hreq)
  have hread := (h.settled (Or.inr hreq)).2
  refine ⟨?_, fun _ => hpending, fun _ _ _ => Or.inl rfl, ?_, nofun, ?_, nofun, nofun, nofun⟩
  · rintro (hclear | hreq')
    · rw [show s.pending = false from hclear] at hpending
      cases hpending
    · cases hreq'
  · intro herred
    rw [(h.spent herred).2.1] at hreq
    cases hreq
  · intro hsome
    rw [show s.read = none from hread] at hsome
    cases hsome

/-- A response found with the mutex free was the only one, and the thread rests. -/
theorem Watched.resting (h : Watched s w) (hfree : s.bg.holdsLock = false)
    (hread : s.read.isSome = true) : s.bg.rests = true := by
  have hbusy := h.single hread
  cases hb : s.bg with
  | recv => rfl
  | returned => rfl
  | reading | holding =>
      rw [hb] at hbusy
      cases hbusy
  | waking | releasing =>
      rw [hb] at hfree
      cases hfree

/-- A poll takes a response: nothing is pending any more. -/
theorem Watched.taken {x : List B} {erred : Bool} (h : Watched s w) (hfree : s.bg.holdsLock = false)
    (hread : s.read = some (.ok x)) (herred : erred = w.erred) :
    Watched { s with read := none, buffered := x, pending := false, poller := .idle none }
      { w with erred } := by
  have hsome : s.read.isSome = true := by rw [hread]; rfl
  have hrests := h.resting hfree hsome
  refine ⟨fun _ => ⟨hrests, rfl⟩, ?_, nofun, ?_, ?_, nofun, nofun, nofun, nofun⟩
  · rintro (hreq | htake | hl)
    · cases hreq
    · cases htake
    · cases hl
  · intro he
    rw [show erred = true from he] at herred
    rw [(h.spent herred.symm).2.2.2] at hread
    cases hread
  · intro hl
    rw [show s.bg.holdsLock = true from hl] at hfree
    cases hfree

/-- A poll takes an error: `pending` stays set, and nothing will come. -/
theorem Watched.failed {e : E} {stored : Option (Nat × Bool)} (h : Watched s w)
    (hfree : s.bg.holdsLock = false) (hpending : s.pending = true) (hread : s.read = some (.error e)) :
    Watched { s with read := none, poller := .idle (some (.failed e)) } ⟨stored, true⟩ := by
  have hrests := h.resting hfree (by rw [hread]; rfl)
  refine ⟨fun _ => ⟨hrests, rfl⟩, fun _ => hpending, nofun, fun _ => ⟨hpending, rfl, hrests, rfl⟩, ?_,
    nofun, nofun, nofun, nofun⟩
  intro hl
  rw [show s.bg.holdsLock = true from hl] at hfree
  cases hfree

/-- A step of the thread. -/
theorem Watched.bg {bg : ReadBg B E} {read : Option (Except E (List B))} {waker : Option Nat}
    {produced : List B} {stored : Option (Nat × Bool)} (h : Watched s w)
    (hrests : s.bg.rests = true →
      bg.rests = true ∧ read = s.read ∧ waker = s.waker ∧ stored = w.stored)
    (hkeeps : s.bg.busy = 1 ∨ s.read.isSome = true → bg.busy = 1 ∨ read.isSome = true)
    (hdelivered : bg.holdsLock = true → read.isSome = true)
    (hsingle : read.isSome = true → bg.busy = 0)
    (hlock : s.poller.holdsLock = true → read = s.read)
    (hstored : w.stored = none → stored = none) :
    Watched { s with bg, read, waker, produced } { w with stored } := by
  refine ⟨?_, h.asking, ?_, ?_, hdelivered, hsingle, ?_, ?_, fun htake => hstored (h.fresh htake)⟩
  · intro hnone
    obtain ⟨hr, hread⟩ := h.settled hnone
    obtain ⟨hr', hread', -, -⟩ := hrests hr
    exact ⟨hr', hread'.trans hread⟩
  · intro herred hpending hreq
    exact hkeeps (h.underway herred hpending hreq)
  · intro herred
    obtain ⟨hpending, hreq, hr, hread⟩ := h.spent herred
    obtain ⟨hr', hread', -, -⟩ := hrests hr
    exact ⟨hpending, hreq, hr', hread'.trans hread⟩
  · intro hl
    exact (hlock hl).trans (h.sleeping hl)
  · intro hsending
    change s.poller = .sending at hsending
    obtain ⟨hr, -⟩ := h.settled (Or.inr (by rw [hsending]; rfl))
    obtain ⟨-, -, hwaker, hstored⟩ := hrests hr
    obtain ⟨cx, hcx, hw⟩ := h.sending hsending
    exact ⟨cx, hstored.trans hcx, hwaker.trans hw⟩

/-- Taking from the slot waits for the mutex. -/
theorem taking_free {call : ReadCall} {cx : Nat} (hs : next s .poller = some t)
    (hp : s.poller = .taking call cx) : s.bg.holdsLock = false := by
  change pollerNext s = some t at hs
  unfold pollerNext at hs
  rw [hp] at hs
  cases hl : s.bg.holdsLock with
  | false => rfl
  | true =>
      simp only [hl, if_true] at hs
      cases hs

/-- So does putting into it. -/
theorem holding_free {res : Except E (List B)} (hs : next s (.bg .silent) = some t)
    (hb : s.bg = .holding res) : s.poller.holdsLock = false := by
  change bgNext s .silent = some t at hs
  unfold bgNext at hs
  rw [hb] at hs
  cases hl : s.poller.holdsLock with
  | false => rfl
  | true =>
      simp only [hl, if_true] at hs
      cases hs

/-- A poll that takes a response out of the slot is counted when it was an error. -/
theorem noteWatch_taking {call : ReadCall} {cx : Nat} (hp : s.poller = .taking call cx) :
    noteWatch s .poller t w = { w with erred := w.erred || s.failedRead } := by
  unfold noteWatch
  rw [hp]

/-- The observer notes nothing of the thread's steps but its look at the waker. -/
theorem noteWatch_bg {answer : ReaderAnswer B E} (hb : s.bg ≠ .waking) :
    noteWatch s (.bg answer) t w = w := by
  cases hbg : s.bg with
  | waking => exact absurd hbg hb
  | _ =>
      unfold noteWatch
      rw [hbg]

/-- **The step lemma.** -/
theorem Watched.step (h : Watched s w) (hconnected : Connected s) (hs : next s ev = some t) :
    Watched t (noteWatch s ev t w) := by
  cases next_moves hs with
  | waits hi hpending =>
      exact h.move (isIdle_inert hi).1 rfl (fun _ => ⟨hpending, rfl⟩) nofun
  | requests hi hpending => exact h.requested hpending
  | serves hi => exact h.ready (isIdle_inert hi).1 _
  | consumes hi | overdrawn hi | drops hi => exact h.move (isIdle_inert hi).1 rfl nofun nofun
  | @takes call cx x hp hread =>
      rw [noteWatch_taking hp]
      have herred : (w.erred || s.failedRead) = w.erred := by
        unfold State.failedRead
        rw [hread]
        exact Bool.or_false _
      have htaken := h.taken (taking_free hs hp) hread herred
      have hready : ∀ u : State B E,
          u.ready call = ({ u with poller := .idle none } : State B E).ready call := by
        intro u
        cases call with
        | fillBuf => rfl
        | read bufLen => rfl
      rw [hready]
      exact htaken.ready rfl call
  | @fails call cx e hp hread =>
      rw [noteWatch_taking hp]
      have herred : (w.erred || s.failedRead) = true := by
        unfold State.failedRead
        rw [hread]
        exact Bool.or_true _
      rw [herred]
      exact h.failed (taking_free hs hp) (h.asking (Or.inr (Or.inl (by rw [hp]; rfl)))) hread
  | misses hp hread =>
      have hpending := h.asking (Or.inr (Or.inl (by rw [hp]; rfl)))
      have hnone : (w.erred || s.failedRead) = w.erred := by
        unfold State.failedRead
        rw [hread]
        exact Bool.or_false _
      rw [noteWatch_taking hp, hnone]
      exact h.move (by rw [hp]; rfl) rfl nofun fun _ => ⟨hpending, hread⟩
  | replaces hp =>
      simp only [noteWatch, hp]
      exact h.move (by rw [hp]; rfl) rfl nofun nofun
  | stores hp =>
      simp only [noteWatch, hp]
      exact h.left hp
  | «meets» hp hb =>
      simp only [noteWatch, hp]
      exact h.met hp
  | unheard hp hb =>
      -- the thread is gone only behind a dropped adapter
      have hdropped := hconnected.adapter (hconnected.thread hb)
      rw [hp] at hdropped
      cases hdropped
  | disconnected hb =>
      rw [noteWatch_bg (by rw [hb]; nofun)]
      refine h.bg (fun _ => ⟨rfl, rfl, rfl, rfl⟩) ?_ nofun (fun _ => rfl) (fun _ => rfl) id
      rw [hb]
      exact fun hcase => hcase
  | produced hb | readFailed hb =>
      rw [noteWatch_bg (by rw [hb]; nofun)]
      refine h.bg ?_ (fun _ => Or.inl rfl) nofun (fun hread => ?_) (fun _ => rfl) id
      · rw [hb]
        nofun
      · have hbusy := h.single hread
        rw [hb] at hbusy
        cases hbusy
  | puts hb =>
      rw [noteWatch_bg (by rw [hb]; nofun)]
      refine h.bg ?_ (fun _ => Or.inr rfl) (fun _ => rfl) (fun _ => rfl) (fun hl => ?_) id
      · rw [hb]
        nofun
      · rw [holding_free hs hb] at hl
        cases hl
  | wakes hb =>
      have hread := h.delivered (by rw [hb]; rfl)
      simp only [noteWatch, hb]
      refine h.bg ?_ (fun _ => Or.inr hread) (fun _ => hread) (fun _ => rfl) (fun _ => rfl) fun hnone => ?_
      · rw [hb]
        nofun
      · rw [hnone]
        rfl
  | releases hb =>
      have hread := h.delivered (by rw [hb]; rfl)
      rw [noteWatch_bg (by rw [hb]; nofun)]
      refine h.bg ?_ (fun _ => Or.inr hread) nofun (fun _ => rfl) (fun _ => rfl) id
      rw [hb]
      nofun

/-! ## No waker is forgotten -/

/-- Where nothing is stored, nobody waits. -/
theorem attended_none (s : State B E) (erred : Bool) : Attended (s, ⟨none, erred⟩) :=
  fun _ r hr => by cases hr

/-- Within a call nobody waits. -/
theorem attended_called (h : t.poller.isIdle = false) (w : Watch) : Attended (t, w) := by
  intro hidle
  change t.poller.isIdle = true at hidle
  rw [h] at hidle
  cases hidle

/-- A step between two calls that leaves the slot, the waker and the thread as they are. -/
theorem Attended.keep (h : Attended (s, w)) (hidle : s.poller.isIdle = true)
    (hread : t.read = s.read) (hwaker : t.waker = s.waker) (hbg : t.bg = s.bg) : Attended (t, w) := by
  intro _ r hr
  change _ ∧ t.read.isSome = true ∨ _ ∧ t.waker = some r.1 ∧ t.bg.coming = true
  rw [hread, hwaker, hbg]
  exact h hidle r hr

/-- A step of the thread before it looks at the waker. -/
theorem Attended.bg (h : Attended (s, w)) (hpoller : t.poller = s.poller) (hwaker : t.waker = s.waker)
    (hread : s.read.isSome = true → t.read.isSome = true) (hcoming : s.bg.coming = true → t.bg.coming = true) :
    Attended (t, w) := by
  intro hidle r hr
  change t.poller.isIdle = true at hidle
  rw [hpoller] at hidle
  rcases h hidle r hr with ⟨hwoken, hsome⟩ | ⟨hnot, hw, hc⟩
  · exact Or.inl ⟨hwoken, hread hsome⟩
  · exact Or.inr ⟨hnot, hwaker.trans hw, hcoming hc⟩

/-- The look at the waker. -/
theorem Attended.wakes (h : Attended (s, w)) (hread : s.read.isSome = true) :
    Attended ({ s with waker := none, bg := .releasing }, w.wake s.waker) := by
  intro hidle r hr
  obtain ⟨r', hr', rfl⟩ := Option.map_eq_some_iff.mp hr
  left
  refine ⟨?_, hread⟩
  rcases h hidle r' hr' with ⟨hwoken, -⟩ | ⟨-, hw, -⟩
  · show (r'.2 || s.waker == some r'.1) = true
    rw [hwoken]
    rfl
  · show (r'.2 || s.waker == some r'.1) = true
    rw [show s.waker = some r'.1 from hw, beq_self_eq_true, Bool.or_true]

/-- The call is over, with its waker where the thread looks for it. -/
theorem attended_stored {cx : Nat} {erred : Bool} (hwaker : t.waker = some cx)
    (hcoming : t.bg.coming = true) : Attended (t, ⟨some (cx, false), erred⟩) := by
  rintro - _ ⟨⟩
  exact Or.inr ⟨rfl, hwaker, hcoming⟩

theorem coming_of_busy {bg : ReadBg B E} (h : bg.busy = 1) : bg.coming = true := by
  cases bg with
  | reading => rfl
  | holding res => rfl
  | _ => cases h

/-- **One step that sleeps in time** leaves nobody forgotten. -/
theorem attended_step (h : Attended (s, w)) (hw : Watched s w) (hconnected : Connected s)
    (hs : next s ev = some t) (hcond : SleepsInTime (s, w) ev (t, noteWatch s ev t w)) :
    Attended (t, noteWatch s ev t w) := by
  have hwake : ∀ {answer : ReaderAnswer B E} {b : ReadBg B E}, s.bg = b → b ≠ .waking →
      noteWatch s (.bg answer) t w = w := fun hb hne => noteWatch_bg (hb ▸ hne)
  cases next_moves hs with
  | waits | requests | serves => exact attended_none _ w.erred
  | consumes hi => exact h.keep hi rfl rfl rfl
  | overdrawn | drops => exact attended_called rfl _
  | takes hp | fails hp =>
      have hfresh := hw.fresh (by rw [hp]; rfl)
      rw [noteWatch_taking hp, hfresh]
      exact attended_none _ _
  | misses | stores => exact attended_called rfl _
  | @replaces cx hp =>
      have hlock : s.poller.holdsLock = true := by rw [hp]; rfl
      have herred : w.erred = false := hcond rfl hlock
      have hbusy : s.bg.busy = 1 := by
        refine (hw.underway herred (hw.asking (Or.inr (Or.inr hlock))) (by rw [hp]; rfl)).resolve_right ?_
        rw [hw.sleeping hlock]
        nofun
      simp only [noteWatch, hp]
      exact attended_stored rfl (coming_of_busy hbusy)
  | «meets» hp =>
      obtain ⟨cx, hstored, hwaker⟩ := hw.sending hp
      simp only [noteWatch, hp]
      obtain ⟨stored, erred⟩ := w
      change stored = some (cx, false) at hstored
      subst hstored
      exact attended_stored hwaker rfl
  | unheard hp hb =>
      have hdropped := hconnected.adapter (hconnected.thread hb)
      rw [hp] at hdropped
      cases hdropped
  | disconnected hb htx =>
      refine attended_called ?_ _
      rw [hconnected.adapter htx]
      rfl
  | produced hb | readFailed hb =>
      rw [hwake hb nofun]
      exact h.bg rfl rfl id fun _ => rfl
  | puts hb =>
      rw [hwake hb nofun]
      exact h.bg rfl rfl (fun _ => rfl) fun _ => rfl
  | wakes hb =>
      simp only [noteWatch, hb]
      exact h.wakes (hw.delivered (by rw [hb]; rfl))
  | releases hb =>
      rw [hwake hb nofun]
      refine h.bg rfl rfl id fun hc => ?_
      rw [hb] at hc
      cases hc

/-- A poll that sleeps behind an error is forgotten. -/
theorem asleep_step (hw : Watched s w) (hs : next s ev = some t)
    (h : Attended (t, noteWatch s ev t w)) : SleepsInTime (s, w) ev (t, noteWatch s ev t w) := by
  intro hev hlock
  subst hev
  change s.poller.holdsLock = true at hlock
  cases herred : w.erred with
  | false => rfl
  | true =>
      exfalso
      obtain ⟨-, -, hrests, -⟩ := hw.spent herred
      cases hp : s.poller with
      | replacingWaker cx =>
          change pollerNext s = some t at hs
          simp only [pollerNext, hp, Option.some.injEq] at hs
          subst hs
          simp only [noteWatch, hp] at h
          rcases h rfl (cx, false) rfl with ⟨hwoken, -⟩ | ⟨-, -, hcoming⟩
          · cases hwoken
          · change s.bg.coming = true at hcoming
            cases hb : s.bg with
            | recv | returned =>
                rw [hb] at hcoming
                cases hcoming
            | _ =>
                rw [hb] at hrests
                cases hrests
      | _ =>
          rw [hp] at hlock
          cases hlock

/-- What holds of the adapter and its observer as long as every poll sleeps in time. -/
structure Guarded (p : State B E × Watch) : Prop where
  watched : Watched p.1 p.2
  connected : Connected p.1
  attended : Attended p

theorem guarded_new (bufferSize : Nat) :
    Guarded ((.new bufferSize, ⟨none, false⟩) : State B E × Watch) :=
  ⟨watched_new bufferSize, connected_new bufferSize, attended_none _ false⟩

/-- **The exact condition of the reader's wakeups.**  Over any run of the adapter and its thread, with any
results of the reader: between any two calls the waker of a poll that returned `Pending` has been woken with
the response in the slot, or is where the thread is about to look, exactly when no poll that found the slot
empty stored its waker once an error had been taken. -/
theorem reader_wakeups_exact (bufferSize : Nat) {tr : List (Event B E × (State B E × Watch))}
    (htr : IsTrace (Steps (observed next noteWatch)) (.new bufferSize, ⟨none, false⟩) tr) :
    StatesMeet Attended (.new bufferSize, ⟨none, false⟩) tr ↔
      StepsMeet SleepsInTime (.new bufferSize, ⟨none, false⟩) tr := by
  have hnew : Guarded ((.new bufferSize, ⟨none, false⟩) : State B E × Watch) := guarded_new bufferSize
  have hiff : StepsMeet (fun _ _ q => Attended q) (.new bufferSize, ⟨none, false⟩) tr ↔
      StepsMeet SleepsInTime (.new bufferSize, ⟨none, false⟩) tr := stepsMeet_iff (I := Guarded)
    (fun p ev q h hs hc => by
      obtain ⟨t, n⟩ := q
      obtain ⟨hnext, hnote⟩ := observed_inv hs
      change n = noteWatch p.1 ev t p.2 at hnote
      subst hnote
      exact ⟨h.watched.step h.connected hnext, h.connected.step (next_moves hnext),
        attended_step h.attended h.watched h.connected hnext hc⟩)
    (fun p ev q h hs => by
      obtain ⟨t, n⟩ := q
      obtain ⟨hnext, hnote⟩ := observed_inv hs
      change n = noteWatch p.1 ev t p.2 at hnote
      subst hnote
      exact ⟨asleep_step h.watched hnext, attended_step h.attended h.watched h.connected hnext⟩) hnew htr
  rw [stepsMeet_post] at hiff
  exact ⟨fun h => hiff.mp h.2, fun h => ⟨hnew.attended, hiff.mpr h⟩⟩

/-- A poll sleeps, a second one replaces its waker while the reader is at work, and the thread delivers. -/
def replacedWaker : List (Event Nat Unit × (State Nat Unit × Watch)) :=
  follow (observed next noteWatch) (.new 2, ⟨none, false⟩)
    [.poll .fillBuf 0, .poller, .poller, .poll (.read 1) 5, .poller, .poller, .bg (.read [7, 8]),
      .bg .silent, .bg .silent, .bg .silent]

theorem reader_wakeups_exact_replaced : StatesMeet Attended (.new 2, ⟨none, false⟩) replacedWaker :=
  (reader_wakeups_exact 2 (isTrace_follow _ _ _)).mpr (by decide)

example : replacedWaker.length = 10 ∧
    (last (.new 2, ⟨none, false⟩) replacedWaker).2 = ⟨some (5, true), false⟩ := by decide

/-! ## No poll waits for the reader -/

/-- A step of either side that begins no call and does not call the reader. -/
def Event.isQuiet : Event B E → Bool
  | .poller => true
  | .bg .silent => true
  | _ => false

/-- The steps the two sides take by themselves. -/
def QuietSteps (p : State B E × Watch) (ev : Event B E) (q : State B E × Watch) : Prop :=
  observed next noteWatch p ev = some q ∧ ev.isQuiet = true

/-- A call is in progress. -/
def ReadPoller.inCall (poller : ReadPoller B E) : Bool :=
  poller.requesting || poller.isTaking || poller.holdsLock

/-- The steps left of the call in progress, at most. -/
def ReadPoller.rank : ReadPoller B E → Nat
  | .taking _ _ => 3
  | .replacingWaker _ => 2
  | .storingWaker _ => 2
  | .sending => 1
  | _ => 0

/-- The steps left to the thread before it needs the reader, or has ended. -/
def ReadBg.rank : ReadBg B E → Nat
  | .holding _ => 4
  | .waking => 3
  | .releasing => 2
  | .recv => 1
  | _ => 0

/-- What the two sides can still do by themselves. -/
def rank (p : State B E × Watch) : Nat := p.1.poller.rank + p.1.bg.rank

theorem rank_le (p : State B E × Watch) : rank p ≤ 7 := by
  have hpoller : p.1.poller.rank ≤ 3 := by
    cases p.1.poller <;> simp [ReadPoller.rank]
  have hbg : p.1.bg.rank ≤ 4 := by
    cases p.1.bg <;> simp [ReadBg.rank]
  unfold rank
  omega

/-- Every such step leaves less to do. -/
theorem quiet_lowers {p q : State B E × Watch} (h : QuietSteps p ev q) : rank q < rank p := by
  obtain ⟨hs, hquiet⟩ := h
  obtain ⟨hnext, -⟩ := observed_inv hs
  have hready : ∀ (u : State B E) (call : ReadCall),
      (u.ready call).poller.rank = 0 ∧ (u.ready call).bg = u.bg := by
    intro u call
    cases call with
    | fillBuf => exact ⟨rfl, rfl⟩
    | read bufLen => exact ⟨rfl, rfl⟩
  unfold rank
  cases ev with
  | poller =>
      change pollerNext p.1 = some q.1 at hnext
      have hmoves := pollerNext_moves hnext
      generalize p.1 = s at hmoves ⊢
      generalize q.1 = t at hmoves ⊢
      cases hmoves with
      | @takes call cx x hp =>
          obtain ⟨hrank, hbg⟩ := hready { s with read := none, buffered := x, pending := false } call
          rw [hrank, hbg, hp]
          simp [ReadPoller.rank]
      | fails hp | misses hp | replaces hp | stores hp | unheard hp => simp [hp, ReadPoller.rank]
      | «meets» hp hb => simp [hp, hb, ReadPoller.rank, ReadBg.rank]
  | bg answer =>
      cases answer with
      | silent =>
          change bgNext p.1 .silent = some q.1 at hnext
          have hmoves := bgNext_moves hnext
          generalize p.1 = s at hmoves ⊢
          generalize q.1 = t at hmoves ⊢
          cases hmoves with
          | disconnected hb | puts hb | wakes hb | releases hb => simp [hb, ReadBg.rank]
      | _ => cases hquiet
  | _ => cases hquiet

/-- What the observer makes of a step is no obstacle to it. -/
theorem quiet_of_next {p : State B E × Watch} (hquiet : ev.isQuiet = true) (hs : next p.1 ev = some t) :
    QuietSteps p ev (t, noteWatch p.1 ev t p.2) := by
  refine ⟨?_, hquiet⟩
  unfold observed
  rw [hs]
  rfl

/-- The thread gives the mutex back by itself. -/
theorem locked_moves {p : State B E × Watch} (h : p.1.bg.holdsLock = true) : ∃ ev q, QuietSteps p ev q := by
  cases hb : p.1.bg with
  | waking =>
      have hs : next p.1 (.bg .silent) = some { p.1 with waker := none, bg := .releasing } := by
        show bgNext p.1 .silent = _
        simp only [bgNext, hb]
      exact ⟨_, _, quiet_of_next rfl hs⟩
  | releasing =>
      have hs : next p.1 (.bg .silent) = some { p.1 with bg := .recv } := by
        show bgNext p.1 .silent = _
        simp only [bgNext, hb]
      exact ⟨_, _, quiet_of_next rfl hs⟩
  | _ =>
      rw [hb] at h
      cases h

/-- **A call in progress can go on**, or the thread can before it, without the reader. -/
theorem inCall_moves {p : State B E × Watch} (hw : Watched p.1 p.2)
    (h : p.1.poller.inCall = true) : ∃ ev q, QuietSteps p ev q := by
  have hgo : ∀ t, pollerNext p.1 = some t → ∃ ev q, QuietSteps p ev q := fun t ht =>
    ⟨.poller, _, quiet_of_next rfl ht⟩
  cases hp : p.1.poller with
  | taking call cx =>
      by_cases hl : p.1.bg.holdsLock = true
      · exact locked_moves hl
      · cases hread : p.1.read with
        | none => exact hgo _ (by simp only [pollerNext, hp, hl, hread]; rfl)
        | some res =>
            cases res with
            | ok x => exact hgo _ (by simp only [pollerNext, hp, hl, hread]; rfl)
            | error e => exact hgo _ (by simp only [pollerNext, hp, hl, hread]; rfl)
  | replacingWaker cx => exact hgo _ (by simp only [pollerNext, hp]; rfl)
  | storingWaker cx => exact hgo _ (by simp only [pollerNext, hp]; rfl)
  | sending =>
      -- the thread has nothing to do, so that it listens
      have hrests := (hw.settled (Or.inr (by rw [hp]; rfl))).1
      cases hb : p.1.bg with
      | recv => exact hgo _ (by simp only [pollerNext, hp, hb]; rfl)
      | returned => exact hgo _ (by simp only [pollerNext, hp, hb]; rfl)
      | _ =>
          rw [hb] at hrests
          cases hrests
  | _ =>
      rw [hp] at h
      cases h

/-- A step that begins no call ends the one in progress, or leaves it in progress. -/
theorem called_step {p q : State B E × Watch} (hconnected : Connected p.1)
    (h : p.1.poller.inCall = true ∨ p.1.poller.isIdle = true) (hs : QuietSteps p ev q) :
    q.1.poller.inCall = true ∨ q.1.poller.isIdle = true := by
  obtain ⟨hobs, hquiet⟩ := hs
  obtain ⟨hnext, -⟩ := observed_inv hobs
  cases ev with
  | poller =>
      have hmoves := pollerNext_moves (show pollerNext p.1 = some q.1 from hnext)
      generalize p.1 = s at hmoves hconnected
      generalize q.1 = t at hmoves ⊢
      cases hmoves with
      | @takes call =>
          right
          cases call with
          | fillBuf => rfl
          | read bufLen => rfl
      | fails | replaces | «meets» => exact Or.inr rfl
      | misses | stores => exact Or.inl rfl
      | unheard hp hb =>
          have hdropped := hconnected.adapter (hconnected.thread hb)
          rw [hp] at hdropped
          cases hdropped
  | bg answer =>
      have hmoves := bgNext_moves (show bgNext p.1 answer = some q.1 from hnext)
      generalize p.1 = s at hmoves h
      generalize q.1 = t at hmoves ⊢
      cases hmoves <;> exact h
  | _ => cases hquiet

/-- **`OnlyReaderAwaited p`** — at rest between two calls, a poll that returned `Pending` has been woken, or
the thread is in the reader. -/
def OnlyReaderAwaited (p : State B E × Watch) : Prop :=
  p.1.poller.isIdle = true → (∀ ev q, ¬QuietSteps p ev q) →
    ∀ r ∈ p.2.stored, r.2 = true ∨ p.1.bg = .reading

theorem Attended.at_rest {p : State B E × Watch} (h : Attended p) : OnlyReaderAwaited p := by
  intro hidle hrest r hr
  rcases h hidle r hr with ⟨hwoken, -⟩ | ⟨-, -, hcoming⟩
  · exact Or.inl hwoken
  · right
    cases hb : p.1.bg with
    | reading => rfl
    | holding res =>
        exfalso
        refine hrest (.bg .silent) _ (quiet_of_next (t := { p.1 with read := some res, bg := .waking }) rfl ?_)
        have hfree := (isIdle_inert hidle).2.2
        show bgNext p.1 .silent = _
        simp only [bgNext, hb, hfree]
        rfl
    | waking =>
        exfalso
        obtain ⟨ev, q, hq⟩ := locked_moves (p := p) (by rw [hb]; rfl)
        exact hrest ev q hq
    | _ =>
        rw [hb] at hcoming
        cases hcoming

/-- What a state of a run promises about the steps the two sides take by themselves from there: there are at
most seven, and when there are no more, no call is in progress, and one that was has returned. -/
structure Returns (p : State B E × Watch) : Prop where
  bounded : ∀ rest, IsTrace QuietSteps p rest → rest.length ≤ 7
  returned : ∀ rest, IsTrace QuietSteps p rest → (∀ ev q, ¬QuietSteps (last p rest) ev q) →
    (last p rest).1.poller.inCall = false ∧
      (p.1.poller.inCall = true → (last p rest).1.poller.isIdle = true)

/-- **Polls return without the reader.**  In every state of every run of the adapter and its thread, with any
results of the reader: the two sides come to rest by themselves within seven steps, and then the call that
was in progress has returned.  And if every poll of the run slept in time, then wherever the two sides are at
rest between two calls, a poll that returned `Pending` has been woken or the thread is in the reader. -/
theorem polls_return (bufferSize : Nat) {tr : List (Event B E × (State B E × Watch))}
    (htr : IsTrace (Steps (observed next noteWatch)) (.new bufferSize, ⟨none, false⟩) tr) :
    StatesMeet Returns (.new bufferSize, ⟨none, false⟩) tr ∧
      (StepsMeet SleepsInTime (.new bufferSize, ⟨none, false⟩) tr →
        StatesMeet OnlyReaderAwaited (.new bufferSize, ⟨none, false⟩) tr) := by
  have hkept : ∀ p ev q, Watched p.1 p.2 ∧ Connected p.1 →
      observed next noteWatch p ev = some q → Watched q.1 q.2 ∧ Connected (B := B) (E := E) q.1 := by
    rintro p ev ⟨t, n⟩ ⟨hw, hc⟩ hs
    obtain ⟨hnext, hnote⟩ := observed_inv hs
    change n = noteWatch p.1 ev t p.2 at hnote
    subst hnote
    exact ⟨hw.step hc hnext, hc.step (next_moves hnext)⟩
  have hnew := guarded_new (B := B) (E := E) bufferSize
  have hall := invariant (P := fun p : State B E × Watch => Watched p.1 p.2 ∧ Connected p.1) hkept
    ⟨hnew.watched, hnew.connected⟩ htr
  have hreturns : ∀ p : State B E × Watch, Watched p.1 p.2 ∧ Connected p.1 → Returns p := by
    intro p hp
    refine ⟨fun rest hrest => ?_, fun rest hrest hend => ?_⟩
    · have hlength := length_le_of_lowers (μ := rank) (fun _ _ _ h => quiet_lowers h) hrest
      have hle := rank_le p
      omega
    · have hend' := (invariant (P := fun q : State B E × Watch => Watched q.1 q.2 ∧ Connected q.1)
        (fun q ev q' h hs => hkept q ev q' h hs.1) hp hrest).last
      have hdone : (last p rest).1.poller.inCall = false := by
        cases hcall : (last p rest).1.poller.inCall with
        | false => rfl
        | true =>
            obtain ⟨ev, q, hq⟩ := inCall_moves hend'.1 hcall
            exact absurd hq (hend ev q)
      refine ⟨hdone, fun hcall => ?_⟩
      have hcalled := (invariant (P := fun q : State B E × Watch => (Watched q.1 q.2 ∧ Connected q.1) ∧
          (q.1.poller.inCall = true ∨ q.1.poller.isIdle = true))
        (fun q ev q' h hs => ⟨hkept q ev q' h.1 hs.1, called_step h.1.2 h.2 hs⟩) ⟨hp, Or.inl hcall⟩
        hrest).last
      refine hcalled.2.resolve_left ?_
      rw [hdone]
      nofun
  refine ⟨⟨hreturns _ hall.1, fun x hx => hreturns _ (hall.2 x hx)⟩, fun hcond => ?_⟩
  have hguarded := invariant_under (P := Guarded) (fun p ev q h hs hc => by
    obtain ⟨hw, hconn⟩ := hkept p ev q ⟨h.watched, h.connected⟩ hs
    refine ⟨hw, hconn, ?_⟩
    obtain ⟨t, n⟩ := q
    obtain ⟨hnext, hnote⟩ := observed_inv hs
    change n = noteWatch p.1 ev t p.2 at hnote
    subst hnote
    exact attended_step h.attended h.watched h.connected hnext hc) hnew htr hcond
  exact ⟨hguarded.1.attended.at_rest, fun x hx => (hguarded.2 x hx).attended.at_rest⟩

theorem polls_return_replaced : StatesMeet Returns (.new 2, ⟨none, false⟩) replacedWaker ∧
    StatesMeet OnlyReaderAwaited (.new 2, ⟨none, false⟩) replacedWaker := by
  obtain ⟨hreturns, hwoken⟩ := polls_return 2 (isTrace_follow (observed next noteWatch) _ _)
  exact ⟨hreturns, hwoken (by decide)⟩

end BackedData.Adapters.AsyncRead
