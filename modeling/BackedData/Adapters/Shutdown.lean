/-
# BackedData.Adapters.Shutdown — what becomes of the thread behind a dropped writer

`SyncAsAsyncWrite::drop` tells the thread that nobody will grant a retry any more, and gives up its ends of
the two channels.  The thread is not told to stop: it carries out what is queued, and returns when the queue
is empty.  If a write fails on the way it reports the error, finds that no retry will come, and returns with
the rest of the queue unwritten; and when the channel for the report is gone by then, it panics.

`shutdown_exact` says this of every run: with an inner writer that does not answer without end that it took
nothing, both sides come to their end within a number of steps that the drop fixes (`State.cost`).  Then all
Write commands ever handed over are written exactly when the thread was not behind a failed write in any
state from the drop on, and the thread has panicked exactly when it had an error to report and nobody to
report it to.
-/
import BackedData.Adapters.Delivery
import BackedData.Adapters.WriteLoop

namespace BackedData.Adapters

open Logic.Trace

set_option autoImplicit false

variable {B E : Type} {s t : State B E} {ev : Event B E}

/-! ## The steps of the thread, with what each of them needs -/

/-- **`ThreadMoves s answer t`** — the steps outside the loop of a `Write`, beside those inside it. -/
inductive ThreadMoves (s : State B E) : InnerAnswer E → State B E → Prop
  | looped {answer : InnerAnswer E} {t : State B E} : LoopMoves s answer t → ThreadMoves s answer t
  | received {cmd : AsyncWriteCommand B} {cmds : List (AsyncWriteCommand B)} : s.bg = .recv →
      s.cmds = cmd :: cmds → ThreadMoves s .silent { s with cmds, bg := cmd.work }
  | ended : s.bg = .recv → s.cmds = [] → s.cmdTx = false →
      ThreadMoves s .silent { s with bg := .returned }
  | flushed : s.bg = .flushing → ThreadMoves s .flushed { s with bg := .sendingStatus (.ok ()) }
  | flushFailed {error : E} : s.bg = .flushing →
      ThreadMoves s (.failed error) { s with bg := .sendingStatus (.error { error, retry := false }) }
  | answered {status : Except (WriteError E) Unit} : s.bg = .sendingStatus status →
      ThreadMoves s .silent (s.sendStatus status .waking)
  | woke : s.bg = .waking → ThreadMoves s .silent { s with bg := .recv }

theorem bgNext_thread {answer : InnerAnswer E} (hs : bgNext s answer = some t) :
    ThreadMoves s answer t := by
  cases hb : s.bg with
  | writing | reporting | waiting => exact .looped (bgNext_loop (by rw [hb]; rfl) hs)
  | recv =>
      cases answer with
      | silent =>
          simp only [bgNext, hb] at hs
          split at hs
          next hc => exact Option.some.inj hs ▸ .received hb hc
          next hc => exact Option.some.inj hs ▸ .received hb hc
          next hc =>
            split at hs
            next => cases hs
            next htx => exact Option.some.inj hs ▸ .ended hb hc (Bool.not_eq_true _ ▸ htx)
      | _ => simp [bgNext, hb] at hs
  | flushing =>
      cases answer with
      | flushed =>
          simp only [bgNext, hb] at hs
          exact Option.some.inj hs ▸ .flushed hb
      | failed error =>
          simp only [bgNext, hb] at hs
          exact Option.some.inj hs ▸ .flushFailed hb
      | _ => simp [bgNext, hb] at hs
  | sendingStatus status =>
      cases answer with
      | silent =>
          simp only [bgNext, hb] at hs
          exact Option.some.inj hs ▸ .answered hb
      | _ => simp [bgNext, hb] at hs
  | waking =>
      cases answer with
      | silent =>
          simp only [bgNext, hb] at hs
          exact Option.some.inj hs ▸ .woke hb
      | _ => simp [bgNext, hb] at hs
  | returned => simp [bgNext, hb] at hs
  | panicked => simp [bgNext, hb] at hs

/-- **The ends of the thread**: the queue is empty and the sender gone, no retry will come, or there is
nobody to report an error to. -/
theorem ThreadMoves.stops {answer : InnerAnswer E} (hs : ThreadMoves s answer t)
    (ht : t.bg.stopped = true) :
    (s.bg = .recv ∧ s.cmds = [] ∧ s.cmdTx = false ∧ t = { s with bg := .returned }) ∨
      ((∃ data pos, s.bg = .waiting data pos) ∧ s.retryToggle.alive = false) ∨
      ((∃ data pos error, s.bg = .reporting data pos error) ∧ s.statusRx = false) := by
  cases hs with
  | ended hb hc htx => exact Or.inl ⟨hb, hc, htx, rfl⟩
  | @received cmd =>
      cases cmd with
      | write data => cases ht
      | flush => cases ht
  | flushed | flushFailed | woke => cases ht
  | answered =>
      rw [State.sendStatus_eq] at ht
      cases ht
  | looped hloop =>
      cases hloop with
      | returned hb halive => exact Or.inr (Or.inl ⟨⟨_, _, hb⟩, halive⟩)
      | unheard hb hrx => exact Or.inr (Or.inr ⟨⟨_, _, _, hb⟩, hrx⟩)
      | sent | reported =>
          rw [State.sendStatus_eq] at ht
          cases ht
      | empty hb | interrupted hb | woken hb =>
          rw [hb] at ht
          cases ht
      | accepted | failed | retried => cases ht

/-! ## What a drop leaves behind -/

/-- **`Parted s`** — as long as the adapter is there the thread is, and hears it; a `drop` has told the thread
first, and the sender is given up before the receiver. -/
structure Parted (s : State B E) : Prop where
  heard : s.poller.gone = false →
    s.retryToggle.alive = true ∧ s.cmdTx = true ∧ s.statusRx = true ∧ s.bg.stopped = false
  told : s.poller.gone = true → s.retryToggle.alive = false
  closed : s.poller = .closing ∨ s.poller = .dropped → s.cmdTx = false

theorem parted_new (bufferMinSize : Nat) : Parted (.new bufferMinSize : State B E) where
  heard _ := ⟨rfl, rfl, rfl, rfl⟩
  told h := by cases h
  closed h := by rcases h with h | h <;> cases h

/-- A step of an adapter that is there and stays there. -/
theorem Parted.stays (h : Parted s) (hfrom : s.poller.gone = false) (hto : t.poller.gone = false)
    (halive : t.retryToggle.alive = s.retryToggle.alive) (htx : t.cmdTx = s.cmdTx)
    (hrx : t.statusRx = s.statusRx) (hbg : t.bg = s.bg) : Parted t := by
  refine ⟨fun _ => ?_, fun hgone => ?_, fun hclosed => ?_⟩
  · rw [halive, htx, hrx, hbg]
    exact h.heard hfrom
  · rw [hto] at hgone
    cases hgone
  · rcases hclosed with hp | hp
    · rw [hp] at hto
      cases hto
    · rw [hp] at hto
      cases hto

/-- A step of the thread leaves its ends of the channels and the toggle's first half as they are. -/
theorem ThreadMoves.frame {answer : InnerAnswer E} (hs : ThreadMoves s answer t) :
    t.poller = s.poller ∧ t.cmdTx = s.cmdTx ∧ t.statusRx = s.statusRx ∧
      t.retryToggle.alive = s.retryToggle.alive := by
  cases hs with
  | looped hloop =>
      cases hloop with
      | sent | reported =>
          rw [State.sendStatus_eq]
          exact ⟨rfl, rfl, rfl, rfl⟩
      | _ => exact ⟨rfl, rfl, rfl, rfl⟩
  | answered =>
      rw [State.sendStatus_eq]
      exact ⟨rfl, rfl, rfl, rfl⟩
  | _ => exact ⟨rfl, rfl, rfl, rfl⟩

/-- A step of the thread. -/
theorem Parted.thread {answer : InnerAnswer E} (h : Parted s) (hs : ThreadMoves s answer t) : Parted t := by
  obtain ⟨hpoller, htx, hrx, halive⟩ := hs.frame
  refine ⟨fun hgone => ?_, fun hgone => ?_, fun hclosed => ?_⟩
  · rw [hpoller] at hgone
    obtain ⟨ha, hc, hr, hb⟩ := h.heard hgone
    refine ⟨halive.trans ha, htx.trans hc, hrx.trans hr, Bool.eq_false_iff.mpr fun hstops => ?_⟩
    rcases hs.stops hstops with ⟨-, -, hgoneTx, -⟩ | ⟨-, hdead⟩ | ⟨-, hdeaf⟩
    · rw [hc] at hgoneTx
      cases hgoneTx
    · rw [ha] at hdead
      cases hdead
    · rw [hr] at hdeaf
      cases hdeaf
  · rw [hpoller] at hgone
    exact halive.trans (h.told hgone)
  · rw [hpoller] at hclosed
    exact htx.trans (h.closed hclosed)

/-- A step of a call. -/
theorem Parted.call (h : Parted s) (hs : PollerMoves s t) : Parted t := by
  have hthere : ∀ {p : Poller B E}, s.poller = p → p.gone = false → s.poller.gone = false := by
    intro p hp hgone
    rw [hp]
    exact hgone
  have hdraining : s.poller.draining = true → s.poller.gone = false := by
    intro hd
    cases hp : s.poller with
    | drainingForWrite buf => rfl
    | drainingForFlush cx => rfl
    | _ =>
        rw [hp] at hd
        cases hd
  cases hs with
  | retrying hp | taken hp | buffered hp | starting hp | goingOn hp | waiting hp | flushed hp | stored hp =>
      exact h.stays (hthere hp rfl) rfl rfl rfl rfl rfl
  | failed hd | miscounted hd => exact h.stays (hdraining hd) rfl rfl rfl rfl rfl
  | counted hd => exact h.stays (hdraining hd) (hdraining hd) rfl rfl rfl rfl
  | sent hsends =>
      generalize hp : s.poller = p at hsends
      cases hsends with
      | write data n => exact h.stays (hthere hp rfl) rfl rfl rfl rfl rfl
      | flush cx => exact h.stays (hthere hp rfl) rfl rfl rfl rfl rfl
  | unsent hsends =>
      generalize hp : s.poller = p at hsends
      cases hsends with
      | write data n => exact h.stays (hthere hp rfl) rfl rfl rfl rfl rfl
      | flush cx => exact h.stays (hthere hp rfl) rfl rfl rfl rfl rfl
  | dropping hp =>
      exact ⟨nofun, fun _ => h.told (by rw [hp]; rfl), fun _ => rfl⟩
  | closing hp =>
      exact ⟨nofun, fun _ => h.told (by rw [hp]; rfl), fun _ => h.closed (Or.inl hp)⟩

theorem Parted.step (h : Parted s) (hs : next s ev = some t) : Parted t := by
  cases ev with
  | bg answer => exact h.thread (bgNext_thread hs)
  | poller => exact h.call (pollerNext_moves hs)
  | pollWrite buf =>
      obtain ⟨⟨answer, hp⟩, rfl | rfl⟩ := pollWrite_inv hs
      · exact h.stays (by rw [hp]; rfl) rfl rfl rfl rfl rfl
      · exact h.stays (by rw [hp]; rfl) rfl rfl rfl rfl rfl
  | pollFlush cx =>
      obtain ⟨⟨answer, hp⟩, rfl⟩ := pollFlush_inv hs
      exact h.stays (by rw [hp]; rfl) rfl rfl rfl rfl rfl
  | drop =>
      obtain ⟨-, rfl⟩ := drop_inv hs
      exact ⟨nofun, fun _ => rfl, by rintro (hp | hp) <;> cases hp⟩

/-! ## The steps behind a drop -/

/-- The step is none of the inner writer's answers that it took nothing. -/
def Event.fruitful : Event B E → Bool
  | .bg .interrupted => false
  | .bg (.wrote 0) => false
  | _ => true

/-- A step of the adapter and its thread, beside the observer of what was handed over. -/
def Finishing (p : State B E × Handed B) (ev : Event B E) (q : State B E × Handed B) : Prop :=
  observed next noteHanded p ev = some q ∧ ev.fruitful = true

/-- **`Leaving p`** — the adapter is being dropped, or is gone; what it handed over is with the thread. -/
structure Leaving (p : State B E × Handed B) : Prop where
  gone : p.1.poller.gone = true
  parted : Parted p.1
  delivers : Delivers p.1 p.2
  unwritten : p.1.bg.Unwritten

theorem Leaving.step {p q : State B E × Handed B} (h : Leaving p) (hs : Finishing p ev q) : Leaving q := by
  obtain ⟨hnext, -⟩ := observed_inv hs.1
  exact ⟨gone_step h.gone hnext, h.parted.step hnext, h.delivers.step hs.1,
    unwritten_step h.unwritten hnext⟩

/-- **`Closes s ev t`** — the steps behind a drop: the sender goes, the receiver goes, or the thread moves. -/
inductive Closes (s : State B E) : Event B E → State B E → Prop
  | hangsUp : s.poller = .dropping → Closes s .poller { s with cmdTx := false, poller := .closing }
  | leaves : s.poller = .closing → Closes s .poller { s with statusRx := false, poller := .dropped }
  | thread {answer : InnerAnswer E} {t : State B E} : ThreadMoves s answer t → Closes s (.bg answer) t

theorem gone_inv (hgone : s.poller.gone = true) (hs : next s ev = some t) : Closes s ev t := by
  have hidle : ∀ answer, s.poller ≠ .idle answer := by
    intro answer hp
    rw [hp] at hgone
    cases hgone
  cases ev with
  | bg answer => exact .thread (bgNext_thread hs)
  | pollWrite buf =>
      obtain ⟨⟨answer, hp⟩, -⟩ := pollWrite_inv hs
      exact absurd hp (hidle answer)
  | pollFlush cx =>
      obtain ⟨⟨answer, hp⟩, -⟩ := pollFlush_inv hs
      exact absurd hp (hidle answer)
  | drop =>
      obtain ⟨⟨answer, hp⟩, -⟩ := drop_inv hs
      exact absurd hp (hidle answer)
  | poller =>
      change pollerNext s = some t at hs
      cases hp : s.poller with
      | dropping =>
          simp only [pollerNext, hp] at hs
          exact Option.some.inj hs ▸ .hangsUp hp
      | closing =>
          simp only [pollerNext, hp] at hs
          exact Option.some.inj hs ▸ .leaves hp
      | dropped => simp [pollerNext, hp] at hs
      | _ =>
          rw [hp] at hgone
          cases hgone

/-! ## How many steps are left -/

/-- The steps that a queued command takes, at most. -/
def AsyncWriteCommand.cost : AsyncWriteCommand B → Nat
  | .write data => data.length + 4
  | .flush => 4

/-- The steps that a queue takes, at most. -/
def queueCost : List (AsyncWriteCommand B) → Nat
  | [] => 0
  | cmd :: cmds => cmd.cost + queueCost cmds

/-- The steps that the thread takes to be done with what it has in its hands, and one more to end. -/
def Bg.cost : Bg B E → Nat
  | .recv => 1
  | .writing data pos => data.length - pos + 4
  | .reporting _ _ _ => 3
  | .waiting _ _ => 2
  | .flushing => 4
  | .sendingStatus _ => 3
  | .waking => 2
  | .returned => 0
  | .panicked => 0

/-- The steps of the drop. -/
def Poller.cost : Poller B E → Nat
  | .dropping => 2
  | .closing => 1
  | _ => 0

/-- **`cost`** — the steps that the two sides take from a drop to their end, at most. -/
def State.cost (s : State B E) : Nat :=
  s.poller.cost + s.bg.cost + queueCost s.cmds

/-- Sending a status costs what the change of the program counter does. -/
theorem sendStatus_cost (s : State B E) (status : Except (WriteError E) Unit) (bg : Bg B E) :
    (s.sendStatus status bg).cost = s.poller.cost + bg.cost + queueCost s.cmds := by
  rw [State.sendStatus_eq]
  rfl

/-- **Every step of the thread** that is not fruitless brings it closer to its end, when no retry comes. -/
theorem ThreadMoves.lowers {answer : InnerAnswer E} (hs : ThreadMoves s answer t)
    (halive : s.retryToggle.alive = false) (hfruitful : (Event.bg answer : Event B E).fruitful = true) :
    t.cost < s.cost := by
  have hbg : ∀ {b : Bg B E}, s.bg = b → s.cost =
      s.poller.cost + b.cost + queueCost s.cmds := by
    rintro b rfl
    rfl
  cases hs with
  | @received cmd cmds hb hc =>
      have hsum : queueCost s.cmds =
          cmd.cost + queueCost cmds := by rw [hc]; rfl
      have hwork : (cmd.work : Bg B E).cost = cmd.cost := by
        cases cmd with
        | write data => rfl
        | flush => rfl
      rw [hbg hb, hsum]
      show s.poller.cost + (cmd.work : Bg B E).cost + queueCost cmds < _
      rw [hwork]
      simp only [Bg.cost]
      omega
  | ended hb | flushed hb | flushFailed hb | woke hb =>
      rw [hbg hb]
      simp only [State.cost, Bg.cost]
      omega
  | answered hb =>
      rw [hbg hb, sendStatus_cost]
      simp only [Bg.cost]
      omega
  | looped hloop =>
      cases hloop with
      | accepted hb hle =>
          rw [hbg hb]
          simp only [State.cost, Bg.cost]
          omega
      | empty | interrupted => cases hfruitful
      | failed hb | unheard hb | returned hb =>
          rw [hbg hb]
          simp only [State.cost, Bg.cost]
          omega
      | sent hb | reported hb =>
          rw [hbg hb, sendStatus_cost]
          simp only [Bg.cost]
          omega
      | retried hb ha | woken hb ha =>
          rw [halive] at ha
          cases ha

theorem Leaving.lowers {p q : State B E × Handed B} (h : Leaving p) (hs : Finishing p ev q) :
    q.1.cost < p.1.cost := by
  obtain ⟨hobs, hfruitful⟩ := hs
  obtain ⟨hnext, -⟩ := observed_inv hobs
  have hcloses := gone_inv h.gone hnext
  have halive := h.parted.told h.gone
  generalize p.1 = s at hcloses halive ⊢
  generalize q.1 = t at hcloses ⊢
  cases hcloses with
  | hangsUp hp | leaves hp =>
      simp only [State.cost, Poller.cost, hp]
      omega
  | thread hmoves => exact hmoves.lowers halive hfruitful

/-! ## Where the two sides come to rest -/

/-- What the observer makes of a step is no obstacle to it. -/
theorem finishing_of_next {p : State B E × Handed B} (hfruitful : ev.fruitful = true)
    (hs : next p.1 ev = some t) : Finishing p ev (t, noteHanded p.1 ev t p.2) := by
  refine ⟨?_, hfruitful⟩
  unfold observed
  rw [hs]
  rfl

/-- **The thread is never stuck** once the sender is gone: some answer of the inner writer leads on. -/
theorem thread_moves {p : State B E × Handed B} (htx : p.1.cmdTx = false)
    (halive : p.1.retryToggle.alive = false) (hstopped : p.1.bg.stopped = false) :
    ∃ ev q, Finishing p ev q := by
  have hgo : ∀ answer : InnerAnswer E, (Event.bg answer : Event B E).fruitful = true →
      (∃ t, bgNext p.1 answer = some t) → ∃ ev q, Finishing p ev q := by
    rintro answer hfruitful ⟨t, ht⟩
    exact ⟨.bg answer, _, finishing_of_next hfruitful ht⟩
  cases hb : p.1.bg with
  | recv =>
      refine hgo .silent rfl ?_
      cases hc : p.1.cmds with
      | nil => exact ⟨_, by simp only [bgNext, hb, hc, htx]; rfl⟩
      | cons cmd cmds =>
          cases cmd with
          | write data => exact ⟨_, by simp only [bgNext, hb, hc]; rfl⟩
          | flush => exact ⟨_, by simp only [bgNext, hb, hc]; rfl⟩
  | writing data pos =>
      by_cases hlt : pos < data.length
      · refine hgo (.wrote 1) rfl ?_
        simp only [bgNext, hb]
        exact ⟨_, if_pos ⟨hlt, by omega⟩⟩
      · refine hgo .silent rfl ?_
        simp only [bgNext, hb]
        exact ⟨_, if_neg hlt⟩
  | reporting data pos error =>
      refine hgo .silent rfl ?_
      simp only [bgNext, hb]
      split
      · exact ⟨_, rfl⟩
      · exact ⟨_, rfl⟩
  | waiting data pos => exact hgo .silent rfl ⟨_, by simp only [bgNext, hb, halive]; rfl⟩
  | flushing => exact hgo .flushed rfl ⟨_, by simp only [bgNext, hb]; rfl⟩
  | sendingStatus status => exact hgo .silent rfl ⟨_, by simp only [bgNext, hb]; rfl⟩
  | waking => exact hgo .silent rfl ⟨_, by simp only [bgNext, hb]; rfl⟩
  | returned | panicked =>
      rw [hb] at hstopped
      cases hstopped

theorem Leaving.rests {p : State B E × Handed B} (h : Leaving p) (hend : ∀ ev q, ¬Finishing p ev q) :
    p.1.poller = .dropped ∧ p.1.bg.stopped = true := by
  have hgone := h.gone
  have hdropped : p.1.poller = .dropped := by
    cases hp : p.1.poller with
    | dropped => rfl
    | dropping =>
        have hs : next p.1 .poller = some { p.1 with cmdTx := false, poller := .closing } := by
          show pollerNext p.1 = _
          simp only [pollerNext, hp]
        exact absurd (finishing_of_next rfl hs) (hend _ _)
    | closing =>
        have hs : next p.1 .poller = some { p.1 with statusRx := false, poller := .dropped } := by
          show pollerNext p.1 = _
          simp only [pollerNext, hp]
        exact absurd (finishing_of_next rfl hs) (hend _ _)
    | _ =>
        rw [hp] at hgone
        cases hgone
  refine ⟨hdropped, ?_⟩
  cases hstopped : p.1.bg.stopped with
  | true => rfl
  | false =>
      obtain ⟨ev, q, hq⟩ :=
        thread_moves (h.parted.closed (Or.inr hdropped)) (h.parted.told hgone) hstopped
      exact absurd hq (hend ev q)

/-! ## What is written in the end -/

/-- Behind a drop nothing more is handed over. -/
theorem Leaving.commands {p q : State B E × Handed B} (h : Leaving p) (hs : Finishing p ev q) :
    q.2.commands = p.2.commands := by
  obtain ⟨hnext, hnote⟩ := observed_inv hs.1
  rw [hnote]
  have hcloses := gone_inv h.gone hnext
  generalize p.1 = s at hcloses ⊢
  generalize q.1 = t at hcloses ⊢
  cases hcloses with
  | hangsUp | leaves =>
      show p.2.commands ++ (s.cmds.drop s.cmds.length).flatMap AsyncWriteCommand.writes = _
      rw [List.drop_length, List.flatMap_nil, List.append_nil]
  | @thread answer =>
      show (noteHanded s (.bg answer) t p.2).commands = _
      simp only [noteHanded]
      split
      · rfl
      · rfl

/-- The thread has a write behind it that failed, and that it has not been allowed to retry. -/
def Bg.behindError : Bg B E → Bool
  | .reporting _ _ _ => true
  | .waiting _ _ => true
  | _ => false

/-- The thread has an error to report, and the receiver is gone. -/
def State.unheard (s : State B E) : Bool :=
  match s.bg with
  | .reporting _ _ _ => !s.statusRx
  | _ => false

/-- Behind a failed write some bytes handed over are not written. -/
theorem Leaving.short {p : State B E × Handed B} (h : Leaving p) (herror : p.1.bg.behindError = true) :
    p.1.writer.length < p.2.commands.flatten.length := by
  obtain ⟨done, current, taken, later, -, hcommands, -, hwriter, hworking⟩ := h.delivers
  have hunwritten := h.unwritten
  obtain ⟨data, pos, hheld, htaken, hpos⟩ : ∃ data pos, p.1.bg.held = [data] ∧
      p.1.bg.taken = data.take pos ∧ pos < data.length := by
    cases hb : p.1.bg with
    | reporting data pos error =>
        rw [hb] at hunwritten
        exact ⟨data, pos, rfl, rfl, hunwritten⟩
    | waiting data pos =>
        rw [hb] at hunwritten
        exact ⟨data, pos, rfl, rfl, hunwritten⟩
    | _ =>
        rw [hb] at herror
        cases herror
  have hstopped : p.1.bg.stopped = false := by
    cases hb : p.1.bg with
    | returned | panicked =>
        rw [hb] at herror
        cases herror
    | _ => rfl
  obtain ⟨rfl, rfl, -⟩ := hworking hstopped
  rw [hwriter, hcommands, hheld, htaken]
  simp only [List.flatten_append, List.flatten_cons, List.flatten_nil, List.append_nil,
    List.length_append, List.length_take]
  omega

/-- **`Lost p`** — the thread is behind an error or has ended, with bytes left that it will not write. -/
def Lost (p : State B E × Handed B) : Prop :=
  (p.1.bg.behindError = true ∨ p.1.bg.stopped = true) ∧
    p.1.writer.length < p.2.commands.flatten.length

/-- **What is lost stays lost.** -/
theorem Leaving.lost {p q : State B E × Handed B} (h : Leaving p) (hlost : Lost p)
    (hs : Finishing p ev q) : Lost q := by
  obtain ⟨hbg, hshort⟩ := hlost
  have hcommands := h.commands hs
  obtain ⟨hnext, -⟩ := observed_inv hs.1
  have hcloses := gone_inv h.gone hnext
  have halive := h.parted.told h.gone
  unfold Lost
  rw [hcommands]
  generalize p.1 = s at hcloses hbg hshort halive ⊢
  generalize q.1 = t at hcloses ⊢
  have hnot : ∀ {b : Bg B E}, s.bg = b → b.behindError = false → b.stopped = false → False := by
    rintro b rfl hb hstopped
    rw [hb, hstopped] at hbg
    rcases hbg with hbg | hbg
    · cases hbg
    · cases hbg
  cases hcloses with
  | hangsUp | leaves => exact ⟨hbg, hshort⟩
  | thread hmoves =>
      cases hmoves with
      | received hb | ended hb | flushed hb | flushFailed hb | answered hb | woke hb =>
          exact (hnot hb rfl rfl).elim
      | looped hloop =>
          cases hloop with
          | accepted hb | empty hb | interrupted hb | failed hb | sent hb => exact (hnot hb rfl rfl).elim
          | reported hb =>
              rw [State.sendStatus_eq]
              exact ⟨Or.inl rfl, hshort⟩
          | unheard | returned => exact ⟨Or.inr rfl, hshort⟩
          | retried hb ha | woken hb ha =>
              rw [halive] at ha
              cases ha

/-- **`Done p`** — if the thread has ended, it has returned with everything written. -/
def Done (p : State B E × Handed B) : Prop :=
  p.1.bg.stopped = true → p.1.bg = .returned ∧ p.1.writer = p.2.commands.flatten

/-- A thread that is not behind an error ends with the queue empty. -/
theorem Leaving.done {p q : State B E × Handed B} (h : Leaving p) (hdone : Done p)
    (herror : p.1.bg.behindError = false) (hs : Finishing p ev q) : Done q := by
  intro hstops
  rw [h.commands hs]
  obtain ⟨hnext, -⟩ := observed_inv hs.1
  have hcloses := gone_inv h.gone hnext
  obtain ⟨done, current, taken, later, -, hcommands, -, hwriter, hworking⟩ := h.delivers
  unfold Done at hdone
  rw [hcommands] at hdone ⊢
  generalize p.1 = s at hcloses hdone herror hwriter hworking
  generalize q.1 = t at hcloses hstops ⊢
  cases hcloses with
  | hangsUp | leaves => exact hdone hstops
  | thread hmoves =>
      rcases hmoves.stops hstops with ⟨hb, hc, -, rfl⟩ | ⟨⟨data, pos, hb⟩, -⟩ | ⟨⟨data, pos, error, hb⟩, -⟩
      · refine ⟨rfl, ?_⟩
        obtain ⟨hcurrent, htaken, hlater⟩ := hworking (by rw [hb]; rfl)
        show s.writer = _
        rw [hwriter, hcurrent, htaken, hlater, hb, hc]
        simp only [Bg.held, Bg.taken, List.flatMap_nil, List.append_nil]
      · rw [hb] at herror
        cases herror
      · rw [hb] at herror
        cases herror

/-! ## Whether the thread panics -/

/-- **`Doomed p`** — the thread has panicked, or is about to. -/
def Doomed (p : State B E × Handed B) : Prop := p.1.bg = .panicked ∨ p.1.unheard = true

theorem unheard_inv (h : s.unheard = true) :
    (∃ data pos error, s.bg = .reporting data pos error) ∧ s.statusRx = false := by
  unfold State.unheard at h
  split at h
  next data pos error hb => exact ⟨⟨data, pos, error, hb⟩, Bool.not_eq_true' _ ▸ h⟩
  next => cases h

theorem unheard_of {data : List B} {pos : Nat} {error : E} (hb : s.bg = .reporting data pos error)
    (hrx : s.statusRx = false) : s.unheard = true := by
  unfold State.unheard
  rw [hb, hrx]
  rfl

/-- Nobody comes back to hear the report. -/
theorem Leaving.doomed {p q : State B E × Handed B} (h : Leaving p) (hdoomed : Doomed p)
    (hs : Finishing p ev q) : Doomed q := by
  obtain ⟨hnext, -⟩ := observed_inv hs.1
  have hcloses := gone_inv h.gone hnext
  unfold Doomed at hdoomed ⊢
  generalize p.1 = s at hcloses hdoomed hnext
  generalize q.1 = t at hcloses hnext ⊢
  rcases hdoomed with hb | hunheard
  · cases hcloses with
    | hangsUp | leaves => exact Or.inl hb
    | @thread answer =>
        have hs' : bgNext s answer = some t := hnext
        simp [bgNext, hb] at hs'
  · obtain ⟨⟨data, pos, error, hb⟩, hrx⟩ := unheard_inv hunheard
    cases hcloses with
    | hangsUp => exact Or.inr (unheard_of hb hrx)
    | leaves => exact Or.inr (unheard_of hb rfl)
    | thread => exact Or.inl (panicked_of_unheard hb hrx hnext)

/-- A thread that is heard does not panic. -/
theorem Leaving.calm {p q : State B E × Handed B} (h : Leaving p) (hcalm : p.1.bg ≠ .panicked)
    (hheard : p.1.unheard = false) (hs : Finishing p ev q) : q.1.bg ≠ .panicked := by
  intro hpanicked
  obtain ⟨hnext, -⟩ := observed_inv hs.1
  have hcloses := gone_inv h.gone hnext
  have halive := h.parted.told h.gone
  generalize p.1 = s at hcloses hcalm hheard halive
  generalize q.1 = t at hcloses hpanicked
  cases hcloses with
  | hangsUp | leaves => exact hcalm hpanicked
  | thread hmoves =>
      rcases hmoves.stops (by rw [hpanicked]; rfl) with ⟨-, -, -, rfl⟩ | ⟨⟨data, pos, hb⟩, -⟩ |
        ⟨⟨data, pos, error, hb⟩, hrx⟩
      · cases hpanicked
      · -- a thread that waits for a retry returns
        cases hmoves with
        | looped hloop =>
            cases hloop with
            | unheard hb' =>
                rw [hb] at hb'
                cases hb'
            | sent | reported =>
                rw [State.sendStatus_eq] at hpanicked
                cases hpanicked
            | empty hb' | interrupted hb' | woken hb' => exact hcalm hpanicked
            | accepted | failed | retried | returned => cases hpanicked
        | received hb' | ended hb' | flushed hb' | flushFailed hb' | answered hb' | woke hb' =>
            rw [hb] at hb'
            cases hb'
      · rw [unheard_of hb hrx] at hheard
        cases hheard

/-! ## From the drop to the end -/

theorem unwritten_new (bufferMinSize : Nat) : (State.new bufferMinSize : State B E).bg.Unwritten := trivial

/-- The drop itself. -/
theorem leaving_of_drop {p q : State B E × Handed B} (hparted : Parted p.1)
    (hdelivers : Delivers p.1 p.2) (hunwritten : p.1.bg.Unwritten)
    (hs : observed next noteHanded p .drop = some q) : Leaving q ∧ q.1.bg.stopped = false := by
  obtain ⟨hnext, -⟩ := observed_inv hs
  refine ⟨⟨?_, hparted.step hnext, hdelivers.step hs, unwritten_step hunwritten hnext⟩, ?_⟩
  · obtain ⟨-, ht⟩ := drop_inv hnext
    rw [ht]
    rfl
  · obtain ⟨⟨answer, hp⟩, ht⟩ := drop_inv hnext
    rw [ht]
    exact (hparted.heard (by rw [hp]; rfl)).2.2.2

/-- **`Ended q rest`** — where a run from the drop on can go no further: both sides are at their end; all
Write commands handed over are written exactly when the thread was never behind a failed write; and it has
panicked exactly when an error was to be reported with the receiver gone. -/
structure Ended (q : State B E × Handed B) (rest : List (Event B E × (State B E × Handed B))) : Prop where
  dropped : (last q rest).1.poller = .dropped
  stopped : (last q rest).1.bg.stopped = true
  written : (last q rest).1.writer = q.2.commands.flatten ↔
    StatesMeet (fun p => p.1.bg.behindError = false) q rest
  panicked : (last q rest).1.bg ≠ .panicked ↔ StatesMeet (fun p => p.1.unheard = false) q rest

/-- **The end of a dropped writer.**  Over any run of the adapter and its thread, with any answers of the
inner writer, and any steps behind a drop but answers that nothing was taken: there are at most `cost` of
them, nothing is handed over any more, and where there can be no further step the run is `Ended`. -/
theorem shutdown_exact (bufferMinSize : Nat) {tr rest : List (Event B E × (State B E × Handed B))}
    (htr : IsTrace (Steps (observed next noteHanded)) (.new bufferMinSize, ⟨[], 0⟩) tr)
    {q : State B E × Handed B}
    (hdrop : observed next noteHanded (last (.new bufferMinSize, ⟨[], 0⟩) tr) .drop = some q)
    (hrest : IsTrace Finishing q rest) :
    rest.length ≤ q.1.cost ∧ (last q rest).2.commands = q.2.commands ∧
      ((∀ ev p, ¬Finishing (last q rest) ev p) → Ended q rest) := by
  have hbefore := (invariant (P := fun p : State B E × Handed B =>
      Parted p.1 ∧ Delivers p.1 p.2 ∧ p.1.bg.Unwritten)
    (fun p ev p' h hs => by
      obtain ⟨hnext, -⟩ := observed_inv hs
      exact ⟨h.1.step hnext, h.2.1.step hs, unwritten_step h.2.2 hnext⟩)
    ⟨parted_new bufferMinSize, delivers_new bufferMinSize, unwritten_new bufferMinSize⟩ htr).last
  obtain ⟨hq, hrunning⟩ := leaving_of_drop hbefore.1 hbefore.2.1 hbefore.2.2 hdrop
  -- every step is one of a state that is being left
  have hsteps := isTrace_and.mpr ⟨hrest, stepsMeet_of_invariant (I := Leaving)
    (Q := fun p _ _ => Leaving p) (fun p ev p' h hs => h.step hs) (fun p ev p' h _ => h) hq hrest⟩
  have hcommands : (last q rest).2.commands = q.2.commands :=
    (invariant (P := fun p : State B E × Handed B => p.2.commands = q.2.commands)
      (fun p ev p' h hs => (hs.2.commands hs.1).trans h) rfl hsteps).last
  refine ⟨?_, hcommands, fun hend => ?_⟩
  · have hlength := length_le_of_lowers (μ := fun p : State B E × Handed B => p.1.cost)
      (fun p ev p' hs => hs.2.lowers hs.1) hsteps
    change rest.length + (last q rest).1.cost ≤ q.1.cost at hlength
    omega
  · obtain ⟨hdropped, hstopped⟩ := ((invariant (P := Leaving) (fun p ev p' h hs => h.step hs) hq
      hrest).last).rests hend
    refine ⟨hdropped, hstopped, ⟨fun hwritten => ?_, fun hnever => ?_⟩, ⟨fun hcalm => ?_, fun hheard => ?_⟩⟩
    · have hleft := statesMeet_of_last (P := fun p : State B E × Handed B => Leaving p → ¬Lost p)
        (fun p ev p' hs hnot h hlost => hnot (h.step hs.1) (h.lost hlost hs.1)) hsteps (fun _ hlost => by
          have hshort := hlost.2
          rw [hwritten, hcommands] at hshort
          omega)
      have hall := invariant (P := Leaving) (fun p ev p' h hs => h.step hs) hq hrest
      have hno : ∀ p : State B E × Handed B, Leaving p → (Leaving p → ¬Lost p) →
          p.1.bg.behindError = false := by
        intro p h hnot
        cases herror : p.1.bg.behindError with
        | false => rfl
        | true => exact absurd ⟨Or.inl herror, h.short herror⟩ (hnot h)
      exact ⟨hno _ hall.1 hleft.1, fun x hx => hno _ (hall.2 x hx) (hleft.2 x hx)⟩
    · have hmeet : StepsMeet (fun _ _ p => p.1.bg.behindError = false) q rest :=
        stepsMeet_post.mpr hnever.2
      have hdone := (invariant_under
        (P := fun p : State B E × Handed B => Done p ∧ p.1.bg.behindError = false)
        (fun p ev p' h hs herror => ⟨hs.2.done h.1 h.2 hs.1, herror⟩)
        ⟨fun hstops => absurd hstops (Bool.eq_false_iff.mp hrunning), hnever.1⟩ hsteps hmeet).last
      exact hcommands ▸ (hdone.1 hstopped).2
    · have hleft := statesMeet_of_last (P := fun p : State B E × Handed B => ¬Doomed p)
        (fun p ev p' hs hnot hdoomed => hnot (hs.2.doomed hdoomed hs.1)) hsteps (fun hdoomed => by
          rcases hdoomed with hpanicked | hunheard
          · exact hcalm hpanicked
          · obtain ⟨⟨data, pos, error, hb⟩, -⟩ := unheard_inv hunheard
            rw [hb] at hstopped
            cases hstopped)
      have hno : ∀ p : State B E × Handed B, ¬Doomed p → p.1.unheard = false := fun p hnot =>
        Bool.eq_false_iff.mpr fun hunheard => hnot (Or.inr hunheard)
      exact ⟨hno _ hleft.1, fun x hx => hno _ (hleft.2 x hx)⟩
    · have hmeet : StepsMeet (fun _ _ p => p.1.unheard = false) q rest := stepsMeet_post.mpr hheard.2
      have hcalm := (invariant_under
        (P := fun p : State B E × Handed B => p.1.bg ≠ .panicked ∧ p.1.unheard = false)
        (fun p ev p' h hs hh => ⟨hs.2.calm h.1 h.2 hs.1, hh⟩)
        ⟨(fun hpanicked => by
          rw [hpanicked] at hrunning
          cases hrunning), hheard.1⟩ hsteps hmeet).last
      exact hcalm.1

/-- Where both sides are at their end there is no further step. -/
theorem ended_stays {p : State B E × Handed B} (hdropped : p.1.poller = .dropped)
    (hstopped : p.1.bg.stopped = true) (q : State B E × Handed B) : ¬Finishing p ev q := by
  rintro ⟨hs, -⟩
  obtain ⟨hnext, -⟩ := observed_inv hs
  have hcloses := gone_inv (by rw [hdropped]; rfl) hnext
  generalize p.1 = s at hcloses hdropped hstopped hnext
  generalize q.1 = t at hcloses hnext
  cases hcloses with
  | hangsUp hp | leaves hp =>
      rw [hdropped] at hp
      cases hp
  | @thread answer =>
      have hs' : bgNext s answer = some t := hnext
      cases hb : s.bg with
      | returned | panicked => simp [bgNext, hb] at hs'
      | _ =>
          rw [hb] at hstopped
          cases hstopped

/-- Two writes are queued when the writer is dropped. -/
def queuedWrites : List (Event Nat Unit × (State Nat Unit × Handed Nat)) :=
  follow (observed next noteHanded) (.new 2, ⟨[], 0⟩)
    [.pollWrite [7, 8], .poller, .poller, .pollWrite [9, 9], .poller, .poller]

/-- The writer as it is being dropped. -/
def droppedWriter : State Nat Unit × Handed Nat :=
  (observed next noteHanded (last (.new 2, ⟨[], 0⟩) queuedWrites) .drop).getD (.new 2, ⟨[], 0⟩)

/-- The thread carries out both, the second one after the channels are gone. -/
def carriedOut : List (Event Nat Unit × (State Nat Unit × Handed Nat)) :=
  follow (observed next noteHanded) droppedWriter
    [.bg .silent, .bg (.wrote 2), .bg .silent, .poller, .poller, .bg .silent, .bg (.wrote 1),
      .bg (.wrote 1), .bg .silent, .bg .silent]

/-- The second write fails: there is nobody to tell. -/
def panicking : List (Event Nat Unit × (State Nat Unit × Handed Nat)) :=
  follow (observed next noteHanded) droppedWriter
    [.bg .silent, .bg (.wrote 2), .bg .silent, .poller, .poller, .bg .silent, .bg (.wrote 1),
      .bg (.failed ()), .bg .silent]

theorem isTrace_finishing (p : State B E × Handed B) (evs : List (Event B E))
    (h : ∀ ev ∈ evs, ev.fruitful = true) :
    IsTrace Finishing p (follow (observed next noteHanded) p evs) := by
  induction evs generalizing p with
  | nil => trivial
  | cons ev evs ih =>
      unfold follow
      rcases hs : observed next noteHanded p ev with _ | q
      · trivial
      · exact ⟨⟨hs, h ev List.mem_cons_self⟩, ih q fun ev' hev' => h ev' (List.mem_cons_of_mem ev hev')⟩

theorem shutdown_exact_both :
    (last droppedWriter carriedOut).1.writer = [7, 8, 9, 9] ∧ Ended droppedWriter carriedOut ∧
      (last droppedWriter panicking).1.bg = .panicked ∧ Ended droppedWriter panicking := by
  have hqueued : IsTrace (Steps (observed next noteHanded)) (.new 2, ⟨[], 0⟩) queuedWrites :=
    isTrace_follow _ _ _
  have hgood := shutdown_exact 2 hqueued (q := droppedWriter) (by rfl)
    (isTrace_finishing _ [.bg .silent, .bg (.wrote 2), .bg .silent, .poller, .poller, .bg .silent,
      .bg (.wrote 1), .bg (.wrote 1), .bg .silent, .bg .silent] (by decide))
  have hbad := shutdown_exact 2 hqueued (q := droppedWriter) (by rfl)
    (isTrace_finishing _ [.bg .silent, .bg (.wrote 2), .bg .silent, .poller, .poller, .bg .silent,
      .bg (.wrote 1), .bg (.failed ()), .bg .silent] (by decide))
  exact ⟨by decide, hgood.2.2 fun ev p => ended_stays (by decide) (by decide) p, by decide,
    hbad.2.2 fun ev p => ended_stays (by decide) (by decide) p⟩

end BackedData.Adapters
