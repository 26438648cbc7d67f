/-
# BackedData.Adapters.FlushCycles — which commands the inner writer is flushed behind

Whether `poll_flush` sends a Flush command is decided by `flush_waker`: it sends one while no waker has
been stored.  A waker is stored by the first `poll_flush` that returns `Pending`, and stays.  So only the
cycles that began before have a Flush command of their own; in the later ones `poll_flush` returns
`Ready(Ok(()))` as soon as every Write command is carried out.

`cycles_exact`: over any run whose inner writer does not fail, a cycle that ends with `Ready(Ok(()))` has
the inner writer flushed behind every Write command queued before it exactly when it began without a
waker, or with no Write command behind the last Flush command.

A run is watched by counting Write commands: those queued and carried out, and how many of either came
before the last Flush.
-/
import BackedData.Adapters.AsyncWriteFlush

namespace BackedData.Adapters

open Logic.Trace

set_option autoImplicit false

variable {B E : Type} {s t : State B E} {past : List (Event B E)} {ev : Event B E}

/-! ## Counting commands -/

/-- A flush cycle, as it began: the Write commands queued, those of them queued before the last Flush
command, and whether `flush_waker` was set. -/
structure Cycle where
  queued : Nat
  covered : Nat
  wakerSet : Bool
  deriving DecidableEq, Repr

/-- The adapter with its thread, and the Write commands: queued, queued before the last Flush command,
carried out, carried out before the inner writer's last flush.  `cycle` is the flush cycle under way. -/
structure Watched (B E : Type) where
  state : State B E
  queued : Nat
  covered : Nat
  written : Nat
  flushed : Nat
  cycle : Option Cycle
  deriving DecidableEq

namespace Watched

/-- Nothing has been queued. -/
def new (bufferMinSize : Nat) : Watched B E :=
  { state := .new bufferMinSize, queued := 0, covered := 0, written := 0, flushed := 0, cycle := none }

/-- The cycle that a `poll_flush` belongs to: the one under way, or a new one. -/
def entered (w : Watched B E) : Cycle :=
  w.cycle.getD
    { queued := w.queued, covered := w.covered, wakerSet := w.state.flushWaker.isSome }

/-- What is counted in a step that leads to `t`. -/
def after (w : Watched B E) (ev : Event B E) (t : State B E) : Watched B E :=
  match ev with
  | .pollFlush _ => { w with state := t, cycle := some w.entered }
  | .poller =>
      match w.state.poller, t.poller with
      | .sendingWrite _ _, .idle _ => { w with state := t, queued := w.queued + 1 }
      | .sendingFlush _, .drainingForFlush _ => { w with state := t, covered := w.queued }
      | .drainingForFlush _, .idle _ => { w with state := t, cycle := none }
      | _, _ => { w with state := t }
  | .bg answer =>
      match w.state.bg, answer with
      | .writing _ _, .silent => { w with state := t, written := w.written + 1 }
      | .flushing, .flushed => { w with state := t, flushed := w.written }
      | _, _ => { w with state := t }
  | _ => { w with state := t }

@[simp] theorem after_state (w : Watched B E) (ev : Event B E) (t : State B E) :
    (w.after ev t).state = t := by
  unfold after
  split
  · rfl
  · split <;> rfl
  · split <;> rfl
  · rfl

/-- In the loop over the statuses nothing is counted. -/
theorem after_same (w : Watched B E) {t : State B E} (h : t.poller = w.state.poller) :
    w.after .poller t = { w with state := t } := by
  unfold after
  rw [h]
  cases w.state.poller <;> rfl

end Watched

/-- A step of the watched system; the inner writer does not fail. -/
def WatchedStep (w : Watched B E) (ev : Event B E) (w' : Watched B E) : Prop :=
  ev.fails = false ∧ ∃ t, next w.state ev = some t ∧ w' = w.after ev t

/-- The run of the watched system on a list of events, up to the first it refuses. -/
def watch : Watched B E → List (Event B E) → List (Event B E × Watched B E)
  | _, [] => []
  | w, ev :: evs =>
      match next w.state ev with
      | none => []
      | some t => (ev, w.after ev t) :: watch (w.after ev t) evs

/-- The call is a `poll_flush` that has not returned. -/
def Poller.flushing : Poller B E → Bool
  | .checkingWaker _ => true
  | .sendingFlush _ => true
  | .drainingForFlush _ => true
  | .storingWaker _ => true
  | _ => false

/-- A `poll_flush` returns `Ready(Ok(()))`. -/
def ReturnsReady (w : Watched B E) (ev : Event B E) (w' : Watched B E) : Prop :=
  ev = .poller ∧ w.state.poller.flushing = true ∧ w'.state.poller = .idle (some .flushed)

/-- **`FlushedBehind`** — when a cycle ends with `Ready(Ok(()))`, the inner writer has been flushed behind
every Write command queued before the cycle began. -/
def FlushedBehind (w : Watched B E) (ev : Event B E) (w' : Watched B E) : Prop :=
  ReturnsReady w ev w' → ∃ c ∈ w.cycle, c.queued ≤ w.flushed

/-- **`BegunFresh`** — such a cycle began without a waker, or with a Flush command behind every Write
command. -/
def BegunFresh (w : Watched B E) (ev : Event B E) (w' : Watched B E) : Prop :=
  ReturnsReady w ev w' → ∃ c ∈ w.cycle, c.wakerSet = true → c.queued ≤ c.covered

instance [DecidableEq B] [DecidableEq E] (w : Watched B E) (ev : Event B E) (w' : Watched B E) :
    Decidable (ReturnsReady w ev w') :=
  inferInstanceAs (Decidable (_ ∧ _ ∧ _))

instance [DecidableEq B] [DecidableEq E] (w : Watched B E) (ev : Event B E) (w' : Watched B E) :
    Decidable (FlushedBehind w ev w') :=
  inferInstanceAs (Decidable (_ → _))

instance [DecidableEq B] [DecidableEq E] (w : Watched B E) (ev : Event B E) (w' : Watched B E) :
    Decidable (BegunFresh w ev w') :=
  inferInstanceAs (Decidable (_ → _))

/-! ## What the counts are -/

/-- The Write commands carried out, and those before the last flush, once these commands are carried out
too. -/
def carry : Nat → Nat → List (AsyncWriteCommand B) → Nat × Nat
  | written, flushed, [] => (written, flushed)
  | written, flushed, .write _ :: cmds => carry (written + 1) flushed cmds
  | written, _, .flush :: cmds => carry written written cmds

theorem carry_append (written flushed : Nat) (cmds cmds' : List (AsyncWriteCommand B)) :
    carry written flushed (cmds ++ cmds') =
      carry (carry written flushed cmds).1 (carry written flushed cmds).2 cmds' := by
  induction cmds generalizing written flushed with
  | nil => rfl
  | cons cmd cmds ih =>
      cases cmd with
      | write data => exact ih (written + 1) flushed
      | flush => exact ih written written

/-- The command that the thread is carrying out. -/
def Bg.current : Bg B E → List (AsyncWriteCommand B)
  | .writing data _ => [.write data]
  | .reporting data _ _ => [.write data]
  | .waiting data _ => [.write data]
  | .flushing => [.flush]
  | _ => []

/-- It has yet to send the Flush command, if it sends one. -/
def Poller.beforeSend : Poller B E → Bool
  | .checkingWaker _ => true
  | .sendingFlush _ => true
  | _ => false

/-- What is known of a cycle under way: one that began without a waker has, or is about to have, a Flush
command behind the Write commands before it; in one that began with a waker none is sent. -/
structure Cycle.Holds (c : Cycle) (w : Watched B E) : Prop where
  queued : c.queued ≤ w.queued
  unset : c.wakerSet = false →
    c.queued ≤ w.covered ∨ w.state.flushWaker = none ∧ w.state.poller.beforeSend = true
  isSet : c.wakerSet = true → w.state.flushWaker ≠ none ∧ w.covered = c.covered

/-- **`Counted w`** — the counts are those of the commands. -/
structure Counted (w : Watched B E) : Prop where
  carried : carry w.written w.flushed (w.state.bg.current ++ w.state.cmds) = (w.queued, w.covered)
  unsent : w.state.flushWaker ≠ none → ∀ cx, w.state.poller ≠ .sendingFlush cx
  entered : w.state.poller.flushing = true → w.cycle.isSome = true
  cycle : ∀ c, w.cycle = some c → c.Holds w

theorem counted_new (bufferMinSize : Nat) : Counted (.new bufferMinSize : Watched B E) where
  carried := rfl
  unsent h := absurd rfl h
  entered := nofun
  cycle := nofun

/-! ## One lemma per kind of step -/

section Steps

variable {w : Watched B E}

/-- A step that moves on with no command added or carried out, and no waker stored. -/
theorem Counted.move (h : Counted w)
    (hcmds : t.bg.current ++ t.cmds = w.state.bg.current ++ w.state.cmds)
    (hwaker : t.flushWaker = w.state.flushWaker)
    (hsend : ∀ cx, t.poller = .sendingFlush cx →
      w.state.poller = .sendingFlush cx ∨ w.state.flushWaker = none)
    (hflush : t.poller.flushing = true → w.state.poller.flushing = true)
    (hbefore : w.state.flushWaker = none → w.state.poller.beforeSend = true →
      t.poller.beforeSend = true) : Counted { w with state := t } := by
  refine ⟨?_, ?_, fun hf => h.entered (hflush hf), ?_⟩
  · show carry w.written w.flushed (t.bg.current ++ t.cmds) = (w.queued, w.covered)
    rw [hcmds]
    exact h.carried
  · intro hset cx hp
    rw [show ({ w with state := t } : Watched B E).state.flushWaker = w.state.flushWaker from hwaker]
      at hset
    rcases hsend cx hp with hold | hnone
    · exact h.unsent hset cx hold
    · exact hset hnone
  · intro c hc
    obtain ⟨hqueued, hunset, hisSet⟩ := h.cycle c hc
    refine ⟨hqueued, fun hu => ?_, fun hs => ⟨?_, (hisSet hs).2⟩⟩
    · rcases hunset hu with hle | ⟨hnone, hb⟩
      · exact Or.inl hle
      · exact Or.inr ⟨hwaker.trans hnone, hbefore hnone hb⟩
    · show t.flushWaker ≠ none
      rw [hwaker]
      exact (hisSet hs).1

/-- Sending a Write command: one more is queued. -/
theorem Counted.sentWrite {data : List B} {n : Nat} (h : Counted w)
    (hp : w.state.poller = .sendingWrite data n)
    (ht : t = { w.state with
      cmds := w.state.cmds ++ [.write data]
      numCmdsPending := w.state.numCmdsPending + 1
      poller := .idle (some (.wrote n)) }) :
    Counted { w with state := t, queued := w.queued + 1 } := by
  subst ht
  refine ⟨?_, fun _ _ => nofun, nofun, fun c hc => ?_⟩
  · show carry w.written w.flushed (w.state.bg.current ++ (w.state.cmds ++ [.write data])) =
      (w.queued + 1, w.covered)
    rw [← List.append_assoc, carry_append, h.carried]
    rfl
  · obtain ⟨hqueued, hunset, hisSet⟩ := h.cycle c hc
    refine ⟨Nat.le_succ_of_le hqueued, fun hu => ?_, hisSet⟩
    rcases hunset hu with hle | ⟨-, hb⟩
    · exact Or.inl hle
    · rw [hp] at hb
      cases hb

/-- Sending a Flush command: it is behind every Write command. -/
theorem Counted.sentFlush {cx : Nat} (h : Counted w) (hp : w.state.poller = .sendingFlush cx)
    (ht : t = { w.state with
      cmds := w.state.cmds ++ [.flush]
      numCmdsPending := w.state.numCmdsPending + 1
      poller := .drainingForFlush cx }) :
    Counted { w with state := t, covered := w.queued } := by
  subst ht
  have hnone : ¬w.state.flushWaker ≠ none := fun hset => h.unsent hset cx hp
  refine ⟨?_, fun _ _ => nofun, fun _ => h.entered (by rw [hp]; rfl), fun c hc => ?_⟩
  · show carry w.written w.flushed (w.state.bg.current ++ (w.state.cmds ++ [.flush])) =
      (w.queued, w.queued)
    rw [← List.append_assoc, carry_append, h.carried]
    rfl
  · obtain ⟨hqueued, -, hisSet⟩ := h.cycle c hc
    exact ⟨hqueued, fun _ => Or.inl hqueued, fun hs => absurd (hisSet hs).1 hnone⟩

/-- Storing the waker: the Flush command of the cycle has been sent. -/
theorem Counted.stored {cx : Nat} (h : Counted w) (hp : w.state.poller = .storingWaker cx)
    (ht : t = { w.state with flushWaker := some cx, poller := .idle (some .pending) }) :
    Counted { w with state := t } := by
  subst ht
  refine ⟨h.carried, fun _ _ => nofun, nofun, fun c hc => ?_⟩
  obtain ⟨hqueued, hunset, hisSet⟩ := h.cycle c hc
  refine ⟨hqueued, fun hu => ?_, fun hs => ⟨nofun, (hisSet hs).2⟩⟩
  rcases hunset hu with hle | ⟨-, hb⟩
  · exact Or.inl hle
  · rw [hp] at hb
    cases hb

/-- The end of a cycle. -/
theorem Counted.ended {answer : Option (PollAnswer E)} (h : Counted w)
    (ht : t = { w.state with poller := .idle answer }) :
    Counted { w with state := t, cycle := none } := by
  subst ht
  exact ⟨h.carried, fun _ _ => nofun, nofun, nofun⟩

/-- The beginning of a cycle, or of another poll of it. -/
theorem Counted.pollFlush {cx : Nat} {answer : Option (PollAnswer E)} (h : Counted w)
    (hp : w.state.poller = .idle answer) (ht : t = { w.state with poller := .checkingWaker cx }) :
    Counted { w with state := t, cycle := some w.entered } := by
  subst ht
  refine ⟨h.carried, fun _ _ => nofun, fun _ => rfl, fun c hc => ?_⟩
  obtain rfl : w.entered = c := Option.some.inj hc
  unfold Watched.entered
  cases hcy : w.cycle with
  | none =>
      refine ⟨Nat.le_refl _, fun hu => Or.inr ⟨?_, rfl⟩, fun hs => ⟨?_, rfl⟩⟩
      · exact Option.not_isSome_iff_eq_none.mp (by rw [show w.state.flushWaker.isSome = false from hu]; nofun)
      · exact Option.isSome_iff_ne_none.mp hs
  | some c =>
      obtain ⟨hqueued, hunset, hisSet⟩ := h.cycle c hcy
      refine ⟨hqueued, fun hu => ?_, hisSet⟩
      rcases hunset hu with hle | ⟨-, hb⟩
      · exact Or.inl hle
      · rw [hp] at hb
        cases hb

/-- A step of the thread: what it has carried out is no longer to be carried out. -/
theorem Counted.thread {written flushed : Nat} (h : Counted w)
    (hcarry : carry written flushed (t.bg.current ++ t.cmds) =
      carry w.written w.flushed (w.state.bg.current ++ w.state.cmds))
    (hwaker : t.flushWaker = w.state.flushWaker) (hpoller : t.poller = w.state.poller) :
    Counted { w with state := t, written, flushed } := by
  refine ⟨hcarry.trans h.carried, ?_, ?_, fun c hc => ?_⟩
  · intro hset cx hp
    exact h.unsent (hwaker ▸ hset) cx (hpoller ▸ hp)
  · intro hf
    exact h.entered (hpoller ▸ hf)
  · obtain ⟨hqueued, hunset, hisSet⟩ := h.cycle c hc
    refine ⟨hqueued, fun hu => ?_, fun hs => ?_⟩
    · show c.queued ≤ w.covered ∨ t.flushWaker = none ∧ t.poller.beforeSend = true
      rw [hwaker, hpoller]
      exact hunset hu
    · show t.flushWaker ≠ none ∧ w.covered = c.covered
      rw [hwaker]
      exact hisSet hs

/-- Every step of the thread that is not a failure keeps the counts. -/
theorem Counted.bg {answer : InnerAnswer E} (h : Counted w) (hcons : Conserves past w.state)
    (hok : (Event.bg answer : Event B E).fails = false) (hs : bgNext w.state answer = some t) :
    Counted (w.after (.bg answer) t) := by
  have hh := hcons.healthy
  cases bgNext_moves hs with
  | @received cmd cmds hb hc =>
      have hafter : w.after (.bg .silent) { w.state with cmds, bg := cmd.work } =
          { w with state := { w.state with cmds, bg := cmd.work } } := by
        simp [Watched.after, hb]
      rw [hafter]
      refine h.thread ?_ rfl rfl
      rw [hb, hc]
      cases cmd with
      | write data => rfl
      | flush => rfl
  | disconnected hb htx =>
      rw [hcons.connected.1] at htx
      cases htx
  | wrote hb =>
      simp only [Watched.after, hb]
      refine h.thread ?_ rfl rfl
      rw [hb]
      rfl
  | interrupted =>
      have hafter : w.after (.bg .interrupted) w.state = w := by
        simp only [Watched.after]
        split <;> simp_all
      rw [hafter]
      exact h
  | @written data pos hb hlen =>
      rw [hcons.sendStatus_eq]
      simp only [Watched.after, hb]
      refine h.thread ?_ rfl rfl
      rw [hb]
      rfl
  | flushed hb =>
      simp only [Watched.after, hb]
      refine h.thread ?_ rfl rfl
      rw [hb]
      rfl
  | @answered status hb =>
      rw [hcons.sendStatus_eq]
      simp only [Watched.after, hb]
      refine h.thread ?_ rfl rfl
      rw [hb]
      rfl
  | waking hb =>
      simp only [Watched.after, hb]
      refine h.thread ?_ rfl rfl
      rw [hb]
      rfl
  | writeFailed hb | flushFailed hb => cases hok
  | reported hb | unheard hb | abandoned hb | resumed hb | wokenUp hb =>
      rw [hb] at hh
      exact hh.elim

/-- Every step of a call keeps the counts. -/
theorem Counted.poller (h : Counted w) (hcons : Conserves past w.state)
    (hs : pollerNext w.state = some t) : Counted (w.after .poller t) := by
  cases pollerNext_moves hs with
  | retrying hp =>
      simp only [Watched.after, hp]
      exact h.move rfl rfl nofun nofun (by rw [hp]; nofun)
  | failed hd hfail =>
      have hok := hcons.all_ok _ (by rw [hfail]; exact List.mem_cons_self)
      cases hok
  | miscounted hd hone hz =>
      have hcount := hcons.some_pending hone
      omega
  | @counted statuses hd hone =>
      have hmoved : Counted { w with state := { w.state with
          statuses, numCmdsPending := w.state.numCmdsPending - 1 } } :=
        h.move rfl rfl (fun _ hp => Or.inl hp) id (fun _ hb => hb)
      exact (w.after_same (t := { w.state with
        statuses, numCmdsPending := w.state.numCmdsPending - 1 }) rfl).symm ▸ hmoved
  | taken hp hmin =>
      simp only [Watched.after, hp]
      exact h.move rfl rfl nofun nofun (by rw [hp]; nofun)
  | buffered hp =>
      simp only [Watched.after, hp]
      exact h.move rfl rfl nofun nofun (by rw [hp]; nofun)
  | @sent cmd poller hsends =>
      generalize hp : w.state.poller = p at hsends
      cases hsends with
      | write data n =>
          simp only [Watched.after, hp]
          exact h.sentWrite hp rfl
      | flush cx =>
          simp only [Watched.after, hp]
          exact h.sentFlush hp rfl
  | unsent hsends hbg =>
      have hh := hcons.healthy
      rcases hbg with hb | hb
      all_goals
        rw [hb] at hh
        exact hh.elim
  | starting hp hw =>
      simp only [Watched.after, hp]
      exact h.move rfl rfl (fun _ _ => Or.inr hw) (fun _ => by rw [hp]; rfl) (fun _ _ => rfl)
  | goingOn hp hw =>
      simp only [Watched.after, hp]
      exact h.move rfl rfl nofun (fun _ => by rw [hp]; rfl) (fun hnone => absurd hnone hw)
  | waiting hp =>
      simp only [Watched.after, hp]
      exact h.move rfl rfl nofun (fun _ => by rw [hp]; rfl) (by rw [hp]; nofun)
  | flushed hp hz =>
      simp only [Watched.after, hp]
      exact h.ended rfl
  | stored hp =>
      simp only [Watched.after, hp]
      exact h.stored hp rfl
  | dropping hp => exact absurd hcons.present.2 (by rw [hp]; nofun)
  | closing hp => exact absurd hcons.present.2 (by rw [hp]; nofun)

/-- **The invariant**: the adapter is being dropped, or its bytes are conserved and its commands counted. -/
def Tracked (w : Watched B E) : Prop :=
  w.state.poller.gone = true ∨ (∃ past, Conserves past w.state) ∧ Counted w

/-- **The step lemma.** -/
theorem Tracked.step {w' : Watched B E} (h : Tracked w) (hs : WatchedStep w ev w') : Tracked w' := by
  obtain ⟨hok, t, hnext, rfl⟩ := hs
  unfold Tracked
  rw [Watched.after_state]
  rcases h with hgone | ⟨⟨past, hcons⟩, hcount⟩
  · exact Or.inl (gone_step hgone hnext)
  · rcases conserves_step (Or.inr hcons) hok hnext with hgone | hcons'
    · exact Or.inl hgone
    · refine Or.inr ⟨⟨_, hcons'⟩, ?_⟩
      cases ev with
      | bg answer => exact hcount.bg hcons hok hnext
      | poller => exact hcount.poller hcons hnext
      | pollFlush cx =>
          obtain ⟨⟨answer, hp⟩, ht⟩ := pollFlush_inv hnext
          exact hcount.pollFlush hp ht
      | pollWrite buf =>
          obtain ⟨⟨answer, hp⟩, rfl | rfl⟩ := pollWrite_inv hnext
          · exact hcount.move rfl rfl nofun nofun (by rw [hp]; nofun)
          · exact hcount.move rfl rfl nofun nofun (by rw [hp]; nofun)
      | drop =>
          obtain ⟨⟨answer, hp⟩, rfl⟩ := drop_inv hnext
          exact hcount.move rfl rfl nofun nofun (by rw [hp]; nofun)

/-- With every command counted off, the inner writer was last flushed where the last Flush command was
queued. -/
theorem Counted.settled (h : Counted w) (hcons : Conserves past w.state)
    (hz : w.state.numCmdsPending = 0) : w.flushed = w.covered := by
  have hcount := hcons.pending
  rw [hz] at hcount
  have hcmds : w.state.cmds = [] := List.eq_nil_of_length_eq_zero (by omega)
  have hbusy : w.state.bg.busy = 0 := by omega
  have hcurrent : w.state.bg.current = [] := by
    cases hb : w.state.bg with
    | writing data pos => rw [hb] at hbusy; cases hbusy
    | reporting data pos e => rw [hb] at hbusy; cases hbusy
    | waiting data pos => rw [hb] at hbusy; cases hbusy
    | flushing => rw [hb] at hbusy; cases hbusy
    | _ => rfl
  have hcarried := h.carried
  rw [hcmds, hcurrent] at hcarried
  exact (Prod.mk.inj hcarried).2

/-- **One cycle.**  When it ends, every Write command before it has a flush behind it exactly when it
began without a waker or with nothing unflushed. -/
theorem Tracked.behind_iff {w' : Watched B E} (h : Tracked w) (hs : WatchedStep w ev w') :
    FlushedBehind w ev w' ↔ BegunFresh w ev w' := by
  obtain ⟨hok, t, hnext, rfl⟩ := hs
  refine imp_congr_right ?_
  rintro ⟨rfl, hflushing, hret⟩
  rw [Watched.after_state] at hret
  -- the only way from inside `poll_flush` to that answer
  obtain ⟨⟨cx, hp⟩, hz⟩ : (∃ cx, w.state.poller = .drainingForFlush cx) ∧
      w.state.numCmdsPending = 0 := by
    cases pollerNext_moves hnext with
    | flushed hp hz => exact ⟨⟨_, hp⟩, hz⟩
    | counted hd hone =>
        rw [show w.state.poller = .idle (some .flushed) from hret] at hflushing
        cases hflushing
    | sent hsends =>
        generalize w.state.poller = p at hsends
        cases hsends with
        | write | flush => cases hret
    | _ => cases hret
  rcases h with hgone | ⟨⟨past, hcons⟩, hcount⟩
  · rw [hp] at hgone
    cases hgone
  obtain ⟨c, hc⟩ := Option.isSome_iff_exists.mp (hcount.entered hflushing)
  obtain ⟨-, hunset, hisSet⟩ := hcount.cycle c hc
  rw [hcount.settled hcons hz]
  refine exists_congr fun c' => and_congr_right fun hc' => ?_
  obtain rfl : c = c' := Option.some.inj (hc.symm.trans hc')
  constructor
  · intro hle hset
    rw [← (hisSet hset).2]
    exact hle
  · intro hfresh
    cases hset : c.wakerSet with
    | true =>
        rw [(hisSet hset).2]
        exact hfresh hset
    | false =>
        rcases hunset hset with hle | ⟨-, hb⟩
        · exact hle
        · rw [hp] at hb
          cases hb

end Steps

/-- **The exact condition of a flush cycle.**  Over any run of the adapter and its thread in which the
inner writer does not fail: every cycle that ends with `Ready(Ok(()))` has the inner writer flushed
behind the Write commands before it exactly when every such cycle began without a waker or with nothing
unflushed. -/
theorem cycles_exact (bufferMinSize : Nat) {tr : List (Event B E × Watched B E)}
    (htr : IsTrace WatchedStep (.new bufferMinSize) tr) :
    StepsMeet FlushedBehind (.new bufferMinSize) tr ↔
      StepsMeet BegunFresh (.new bufferMinSize) tr := by
  have hnew : Tracked (.new bufferMinSize : Watched B E) :=
    Or.inr ⟨⟨[], conserves_new bufferMinSize⟩, counted_new bufferMinSize⟩
  exact stepsMeet_iff (fun _ _ _ h hs _ => h.step hs) (fun _ _ _ h hs => h.behind_iff hs) hnew htr

/-! ### Two cycles -/

/-- A byte is written and flushed, with one poll before the thread runs and one behind. -/
def firstCycle : List (Event Nat Unit) :=
  [.pollWrite [7], .poller, .poller, .pollFlush 0, .poller, .poller, .poller, .poller,
    .bg .silent, .bg (.wrote 1), .bg .silent, .bg .silent, .bg .flushed, .bg .silent, .bg .silent,
    .pollFlush 0, .poller, .poller, .poller, .poller]

/-- Another byte is written, the thread writes it, and it is flushed. -/
def secondCycle : List (Event Nat Unit) :=
  [.pollWrite [8], .poller, .poller, .bg .silent, .bg (.wrote 1), .bg .silent, .pollFlush 0, .poller,
    .poller, .poller]

/-- The second cycle ends with `Ready(Ok(()))`; both bytes are written, and the inner writer was flushed
behind the first alone. -/
theorem secondCycle_unflushed :
    (watch (.new 1) (firstCycle ++ secondCycle)).map Prod.fst = firstCycle ++ secondCycle ∧
      (last (.new 1) (watch (.new 1) (firstCycle ++ secondCycle))).state.poller =
        .idle (some .flushed) ∧
      (last (.new 1) (watch (.new 1) (firstCycle ++ secondCycle))).state.writer = [7, 8] ∧
      (last (.new 1) (watch (.new 1) (firstCycle ++ secondCycle))).flushed = 1 ∧
      ¬StepsMeet FlushedBehind (.new 1) (watch (.new 1) (firstCycle ++ secondCycle)) := by
  decide

theorem isTrace_watch (w : Watched B E) {evs : List (Event B E)} (hok : ∀ ev ∈ evs, ev.fails = false) :
    IsTrace WatchedStep w (watch w evs) := by
  induction evs generalizing w with
  | nil => trivial
  | cons ev evs ih =>
      have hrest : ∀ e ∈ evs, e.fails = false := fun e he => hok e (List.mem_cons_of_mem _ he)
      unfold watch
      cases hn : next w.state ev with
      | none => trivial
      | some t => exact ⟨⟨hok ev List.mem_cons_self, t, hn, rfl⟩, ih _ hrest⟩

theorem cycles_exact_first :
    StepsMeet FlushedBehind (.new 1) (watch (.new 1) firstCycle : List (Event Nat Unit × Watched Nat Unit)) :=
  (cycles_exact 1 (isTrace_watch _ (by decide))).mpr (by decide)

example : (last (.new 1) (watch (.new 1) firstCycle)).state.poller = .idle (some .flushed) := by decide

end BackedData.Adapters
