/-
# BackedData.Adapters.PendingCount — what `num_cmds_pending` counts

Every command sent adds one to `num_cmds_pending`, every success that a poll receives takes one off.  A
write error is not the last word on its command: the thread keeps the command and answers again when it is
allowed to retry.  The error of a Flush command is; but a poll that receives it returns at once, and does
not count the command off.  From then on one command too many is pending, and `poll_flush` returns
`Pending` for ever.

`pending_exact`: over any run, whatever the inner writer answers, `num_cmds_pending` is in every state the
number of commands sent whose last status has not been received exactly when no poll has received the
error of a Flush command; then the decrement never underflows, and every `Pending` has a command to wait
for.
-/
import BackedData.Adapters.AsyncWriteFlush

namespace BackedData.Adapters

open Logic.Trace

set_option autoImplicit false

variable {B E : Type} {s t : State B E} {ev : Event B E}

/-! ## Commands and their last statuses -/

/-- The status is the last one of its command: no retry is offered. -/
def isFinal : Except (WriteError E) Unit → Bool
  | .ok () => true
  | .error e => !e.retry

/-- The status that the next step of the poller takes off the channel. -/
def State.receives (s : State B E) : Option (Except (WriteError E) Unit) :=
  if s.poller.draining then s.statuses.head? else none

/-- The commands sent, and those of them whose last status the poller has received. -/
structure Tally where
  sent : Nat
  settled : Nat
  deriving DecidableEq, Repr

/-- What an observer of the two channels counts. -/
def tally (s : State B E) (ev : Event B E) (t : State B E) (n : Tally) : Tally :=
  match ev with
  | .poller =>
      { sent := n.sent + (t.cmds.length - s.cmds.length)
        settled := n.settled + if s.receives.any isFinal then 1 else 0 }
  | _ => n

/-- **`PendingCounted p`** — `num_cmds_pending` is the number of commands sent whose last status has not
been received; a success is received only where something is pending; and a `poll_flush` that is about to
return `Pending` has a command to wait for. -/
structure PendingCounted (p : State B E × Tally) : Prop where
  counted : p.1.numCmdsPending + p.2.settled = p.2.sent
  decrement : p.1.receives = some (.ok ()) → 0 < p.1.numCmdsPending
  waits : ∀ cx, p.1.poller = .storingWaker cx → p.2.settled < p.2.sent

/-- The step does not receive the error of a Flush command. -/
def NoFlushError (p : State B E × Tally) (ev : Event B E) (_ : State B E × Tally) : Prop :=
  ev = .poller → ∀ r ∈ p.1.receives, r = .ok () ∨ isFinal r = false

instance [DecidableEq B] [DecidableEq E] (p : State B E × Tally) (ev : Event B E)
    (q : State B E × Tally) : Decidable (NoFlushError p ev q) :=
  inferInstanceAs (Decidable (_ → _))

/-! ## The invariant -/

/-- **`Accounts s n`** — every command sent and not settled is counted as pending, and those that are
queued, in work or answered are among them; what is lost when the poller's end is dropped may be missing. -/
structure Accounts (s : State B E) (n : Tally) : Prop where
  counted : s.numCmdsPending + n.settled = n.sent
  present : n.settled + s.cmds.length + s.bg.busy + s.statuses.countP isFinal ≤ n.sent
  storing : ∀ cx, s.poller = .storingWaker cx → 0 < s.numCmdsPending

theorem accounts_new (bufferMinSize : Nat) : Accounts (.new bufferMinSize : State B E) ⟨0, 0⟩ where
  counted := rfl
  present := Nat.le_refl 0
  storing := nofun

/-- What a caller sees of a state, from the invariant. -/
theorem Accounts.pendingCounted {n : Tally} (h : Accounts s n) : PendingCounted (s, n) := by
  refine ⟨h.counted, fun hreceives => ?_, fun cx hp => ?_⟩
  · show 0 < s.numCmdsPending
    -- the success that is about to be received is the last status of a command
    have hfinal : 0 < s.statuses.countP isFinal := by
      change s.receives = some (.ok ()) at hreceives
      unfold State.receives at hreceives
      split at hreceives
      · rw [List.countP_pos_iff]
        exact ⟨.ok (), List.mem_of_head? hreceives, rfl⟩
      · cases hreceives
    have hcounted := h.counted
    have hpresent := h.present
    omega
  · show n.settled < n.sent
    have hcounted := h.counted
    have hpos := h.storing cx hp
    omega

/-- A step that leaves the channels and the count alone. -/
theorem Accounts.move {n : Tally} (h : Accounts s n) (hpending : t.numCmdsPending = s.numCmdsPending)
    (hpresent : t.cmds.length + t.bg.busy + t.statuses.countP isFinal ≤
      s.cmds.length + s.bg.busy + s.statuses.countP isFinal)
    (hstoring : ∀ cx, t.poller = .storingWaker cx →
      (∃ cx, s.poller = .storingWaker cx) ∨ 0 < s.numCmdsPending) : Accounts t n := by
  refine ⟨?_, ?_, ?_⟩
  · rw [hpending]
    exact h.counted
  · have hold := h.present
    omega
  · intro cx hp
    rw [hpending]
    rcases hstoring cx hp with ⟨cx', hp'⟩ | hpos
    · exact h.storing cx' hp'
    · exact hpos

/-- A step of the thread: a command goes from the queue into work, and from there its last status into the
channel. -/
theorem Accounts.bg {n : Tally} {answer : InnerAnswer E} (h : Accounts s n)
    (hs : bgNext s answer = some t) : Accounts t n := by
  obtain ⟨hpoller, -, hpending⟩ := bgNext_frame hs
  have hstoring : ∀ cx, t.poller = .storingWaker cx →
      (∃ cx, s.poller = .storingWaker cx) ∨ 0 < s.numCmdsPending := by
    intro cx hp
    exact Or.inl ⟨cx, hpoller ▸ hp⟩
  have hsend : ∀ (status : Except (WriteError E) Unit) (bg : Bg B E),
      bg.busy + (if isFinal status then 1 else 0) ≤ s.bg.busy →
      (s.sendStatus status bg).cmds.length + (s.sendStatus status bg).bg.busy +
          (s.sendStatus status bg).statuses.countP isFinal ≤
        s.cmds.length + s.bg.busy + s.statuses.countP isFinal := by
    intro status bg hbusy
    rw [State.sendStatus_eq]
    show s.cmds.length + bg.busy +
      (if s.statusRx then s.statuses ++ [status] else s.statuses).countP isFinal ≤ _
    split
    · simp only [List.countP_append, List.countP_singleton]
      omega
    · omega
  refine h.move hpending ?_ hstoring
  cases bgNext_moves hs with
  | @received cmd cmds hb hc =>
      have hbusy : (cmd.work : Bg B E).busy = 1 := by
        cases cmd with
        | write data => rfl
        | flush => rfl
      show cmds.length + (cmd.work : Bg B E).busy + s.statuses.countP isFinal ≤ _
      rw [hb, hc, hbusy, List.length_cons]
      omega
  | disconnected hb | wrote hb | writeFailed hb | resumed hb | flushed hb | flushFailed hb | waking hb =>
      rw [hb]
      exact Nat.le_refl _
  | unheard hb | abandoned hb =>
      show s.cmds.length + 0 + s.statuses.countP isFinal ≤ _
      omega
  | interrupted | wokenUp => exact Nat.le_refl _
  | written hb =>
      refine hsend _ _ ?_
      rw [hb]
      exact Nat.le_refl 1
  | reported hb =>
      refine hsend _ _ ?_
      rw [hb]
      exact Nat.le_refl 1
  | @answered status hb =>
      refine hsend _ _ ?_
      rw [hb]
      show 0 + (if isFinal status then 1 else 0) ≤ 1
      split <;> omega

/-- A step of a call that receives nothing and sends nothing. -/
theorem Accounts.still {n : Tally} (h : Accounts s n) (hreceives : s.receives = none)
    (hcmds : t.cmds = s.cmds) (hbg : t.bg = s.bg) (hstatuses : t.statuses = s.statuses)
    (hpending : t.numCmdsPending = s.numCmdsPending)
    (hstoring : ∀ cx, t.poller = .storingWaker cx → 0 < s.numCmdsPending) :
    Accounts t (tally s .poller t n) := by
  have htally : tally s .poller t n = n := by
    simp only [tally, hreceives, hcmds, Nat.sub_self, Nat.add_zero, Option.any_none,
      Bool.false_eq_true, if_false]
  rw [htally]
  refine h.move hpending ?_ fun cx hp => Or.inr (hstoring cx hp)
  exact Nat.le_of_eq (by rw [hcmds, hbg, hstatuses])

/-- In the loop over the statuses, the next one is received. -/
theorem receives_eq (hd : s.poller.draining = true) : s.receives = s.statuses.head? := if_pos hd

/-- A round of the loop over the statuses, unless it receives the error of a Flush command. -/
theorem Accounts.drain {n : Tally} (h : Accounts s n) (hd : s.poller.draining = true)
    (hs : pollerNext s = some t) (hcond : ∀ r ∈ s.receives, r = .ok () ∨ isFinal r = false) :
    Accounts t (tally s .poller t n) := by
  have hreceives := receives_eq hd
  have hcounted := h.counted
  have hpresent := h.present
  rcases draining_cases hd hs with ⟨e, statuses, hst, rfl⟩ | ⟨statuses, hst, hz, rfl⟩ |
    ⟨statuses, hst, hn, rfl⟩ | ⟨hst, hgoes⟩
  · -- the error of a Write command, which is still pending
    rw [hst] at hreceives hpresent
    have hnotFinal : isFinal (.error e : Except (WriteError E) Unit) = false :=
      (hcond _ hreceives).resolve_left nofun
    have htally : tally s .poller { s with
        statuses, retry := e.retry, poller := .idle (some (.failed e.error)) } n = n := by
      simp only [tally, hreceives, List.head?_cons, Option.any_some, hnotFinal, Nat.sub_self,
        Nat.add_zero, Bool.false_eq_true, if_false]
    rw [htally]
    refine ⟨hcounted, ?_, nofun⟩
    rw [List.countP_cons, hnotFinal] at hpresent
    simpa using hpresent
  · -- a success is the last status of a command, so one is pending
    exfalso
    rw [hst, List.countP_cons] at hpresent
    simp only [isFinal, if_true] at hpresent
    omega
  · rw [hst] at hreceives hpresent
    have htally : tally s .poller { s with statuses, numCmdsPending := s.numCmdsPending - 1 } n =
        { n with settled := n.settled + 1 } := by
      simp only [tally, hreceives, List.head?_cons, Option.any_some, isFinal, Nat.sub_self,
        Nat.add_zero, if_true]
    rw [htally]
    rw [List.countP_cons] at hpresent
    simp only [isFinal, if_true] at hpresent
    refine ⟨?_, ?_, ?_⟩
    · show s.numCmdsPending - 1 + (n.settled + 1) = n.sent
      omega
    · show n.settled + 1 + s.cmds.length + s.bg.busy + statuses.countP isFinal ≤ n.sent
      omega
    · intro cx hp
      change s.poller = .storingWaker cx at hp
      rw [hp] at hd
      cases hd
  · rw [hst] at hreceives
    have hnone : s.receives = none := hreceives
    rcases hgoes with ⟨buf, hp, rfl⟩ | ⟨cx, hp, hn, rfl⟩ | ⟨cx, hp, hz, rfl⟩
    · unfold State.buffer
      split
      · exact h.still hnone rfl rfl rfl rfl nofun
      · exact h.still hnone rfl rfl rfl rfl nofun
    · exact h.still hnone rfl rfl rfl rfl fun _ _ => hn
    · exact h.still hnone rfl rfl rfl rfl nofun

/-- Any other step of a call. -/
theorem Accounts.call {n : Tally} (h : Accounts s n) (hd : s.poller.draining = false)
    (hs : pollerNext s = some t) : Accounts t (tally s .poller t n) := by
  have hnone : s.receives = none := by
    unfold State.receives
    rw [hd]
    rfl
  cases pollerNext_moves hs with
  | retrying | starting | goingOn | stored | unsent | dropping | closing =>
      exact h.still hnone rfl rfl rfl rfl nofun
  | @sent cmd poller hsends =>
      have htally : tally s .poller { s with
          cmds := s.cmds ++ [cmd], numCmdsPending := s.numCmdsPending + 1, poller } n =
          { n with sent := n.sent + 1 } := by
        simp only [tally, hnone, Option.any_none, Bool.false_eq_true, if_false, Nat.add_zero,
          List.length_append, List.length_singleton, Nat.add_sub_cancel_left]
      rw [htally]
      have hcounted := h.counted
      have hpresent := h.present
      refine ⟨?_, ?_, ?_⟩
      · show s.numCmdsPending + 1 + n.settled = n.sent + 1
        omega
      · show n.settled + (s.cmds ++ [cmd]).length + s.bg.busy + s.statuses.countP isFinal ≤ n.sent + 1
        rw [List.length_append, List.length_singleton]
        omega
      · intro cx _
        exact Nat.succ_pos _
  | failed hd' | miscounted hd' | counted hd' =>
      rw [hd] at hd'
      cases hd'
  | taken hp | buffered hp | waiting hp | flushed hp =>
      rw [hp] at hd
      cases hd

/-- **The step lemma.** -/
theorem Accounts.step {p q : State B E × Tally} (h : Accounts p.1 p.2)
    (hs : observed next tally p ev = some q) (hcond : NoFlushError p ev q) : Accounts q.1 q.2 := by
  obtain ⟨s, n⟩ := p
  obtain ⟨t, n'⟩ := q
  obtain ⟨hnext, hnote⟩ := observed_inv hs
  change next s ev = some t at hnext
  change n' = tally s ev t n at hnote
  subst hnote
  cases ev with
  | bg answer => exact h.bg hnext
  | poller =>
      cases hd : s.poller.draining with
      | true => exact h.drain hd hnext (hcond rfl)
      | false => exact h.call hd hnext
  | pollWrite buf =>
      obtain ⟨-, rfl | rfl⟩ := pollWrite_inv hnext
      · exact h.move rfl (Nat.le_refl _) nofun
      · exact h.move rfl (Nat.le_refl _) nofun
  | pollFlush cx =>
      obtain ⟨-, rfl⟩ := pollFlush_inv hnext
      exact h.move rfl (Nat.le_refl _) nofun
  | drop =>
      obtain ⟨-, rfl⟩ := drop_inv hnext
      exact h.move rfl (Nat.le_refl _) nofun

/-- **One step.**  From a state where the count is right, it is right afterwards exactly when the step
does not receive the error of a Flush command. -/
theorem Accounts.counted_iff {p q : State B E × Tally} (h : Accounts p.1 p.2)
    (hs : observed next tally p ev = some q) : PendingCounted q ↔ NoFlushError p ev q := by
  constructor
  · intro hq hev r hreceives
    subst hev
    obtain ⟨s, n⟩ := p
    obtain ⟨t, n'⟩ := q
    obtain ⟨hnext, hnote⟩ := observed_inv hs
    change pollerNext s = some t at hnext
    change n' = tally s .poller t n at hnote
    subst hnote
    change s.receives = some r at hreceives
    by_contra hbad
    obtain ⟨hnotOk, hfinal⟩ := not_or.mp hbad
    rw [Bool.not_eq_false] at hfinal
    have hd : s.poller.draining = true := by
      unfold State.receives at hreceives
      split at hreceives
      next hd => exact hd
      next => cases hreceives
    rw [receives_eq hd] at hreceives
    -- the error is taken off the channel, and nothing off the count
    rcases draining_cases hd hnext with ⟨e, statuses, hst, rfl⟩ | ⟨statuses, hst, -⟩ |
      ⟨statuses, hst, -⟩ | ⟨hst, -⟩
    · have hcounted := hq.counted
      have hold := h.counted
      change s.numCmdsPending + n.settled = n.sent at hold
      simp only [tally, receives_eq hd, hreceives, Option.any_some, hfinal, if_true, Nat.sub_self,
        Nat.add_zero] at hcounted
      omega
    · rw [hst] at hreceives
      exact hnotOk (Option.some.inj hreceives).symm
    · rw [hst] at hreceives
      exact hnotOk (Option.some.inj hreceives).symm
    · rw [hst] at hreceives
      cases hreceives
  · intro hcond
    exact (h.step hs hcond).pendingCounted

/-- **The exact condition of the count.**  Over any run of the adapter and its thread, with any errors of
the inner writer: `num_cmds_pending` is right in every state exactly when no step receives the error of a
Flush command. -/
theorem pending_exact (bufferMinSize : Nat) {tr : List (Event B E × (State B E × Tally))}
    (htr : IsTrace (Steps (observed next tally)) (.new bufferMinSize, ⟨0, 0⟩) tr) :
    StatesMeet PendingCounted (.new bufferMinSize, ⟨0, 0⟩) tr ↔
      StepsMeet NoFlushError (.new bufferMinSize, ⟨0, 0⟩) tr := by
  have hnew : Accounts (.new bufferMinSize : State B E) ⟨0, 0⟩ := accounts_new bufferMinSize
  have hiff := stepsMeet_iff (I := fun p : State B E × Tally => Accounts p.1 p.2)
    (Q := fun _ _ q => PendingCounted q) (fun _ _ _ h hs hc => h.step hs hc)
    (fun _ _ _ h hs => h.counted_iff hs) hnew htr
  rw [stepsMeet_post] at hiff
  exact ⟨fun h => hiff.mp h.2, fun h => ⟨hnew.pendingCounted, hiff.mpr h⟩⟩

/-! ### A flush that fails, and flushes behind it -/

/-- A Flush command fails, and a poll receives its error. -/
def failedFlush : List (Event Nat Unit) :=
  [.pollFlush 0, .poller, .poller, .bg .silent, .bg (.failed ()), .bg .silent, .bg .silent, .poller]

/-- The next `poll_flush` sends another, which succeeds; the one behind it sends none. -/
def flushedAgain : List (Event Nat Unit) :=
  [.pollFlush 0, .poller, .poller, .bg .silent, .bg .flushed, .bg .silent, .bg .silent, .poller,
    .poller, .poller, .pollFlush 0, .poller, .poller, .poller]

/-- The run of these calls. -/
def stuckFlush : List (Event Nat Unit × (State Nat Unit × Tally)) :=
  follow (observed next tally) (.new 1, ⟨0, 0⟩) (failedFlush ++ flushedAgain)

/-- Both commands are settled, the thread is idle, and `poll_flush` has returned `Pending` twice. -/
theorem stuckFlush_pending :
    stuckFlush.map Prod.fst = failedFlush ++ flushedAgain ∧
      (last (.new 1, ⟨0, 0⟩) stuckFlush).1.poller = .idle (some .pending) ∧
      (last (.new 1, ⟨0, 0⟩) stuckFlush).1.bg = .recv ∧
      (last (.new 1, ⟨0, 0⟩) stuckFlush).2 = ⟨2, 2⟩ ∧
      (last (.new 1, ⟨0, 0⟩) stuckFlush).1.numCmdsPending = 1 ∧
      ¬StatesMeet PendingCounted (.new 1, ⟨0, 0⟩) stuckFlush := by
  refine ⟨by decide, by decide, by decide, by decide, by decide, fun h => ?_⟩
  have hcounted := h.last.counted
  revert hcounted
  decide

/-- A write fails, is retried on the next call, and another follows. -/
def retriedWrite : List (Event Nat Unit × (State Nat Unit × Tally)) :=
  follow (observed next tally) (.new 1, ⟨0, 0⟩)
    [.pollWrite [7], .poller, .poller, .bg .silent, .bg (.failed ()), .bg .silent, .pollWrite [8],
      .poller, .pollWrite [8], .poller, .bg .silent, .bg (.wrote 1), .bg .silent, .poller, .poller,
      .poller]

theorem pending_exact_retried : StatesMeet PendingCounted (.new 1, ⟨0, 0⟩) retriedWrite :=
  (pending_exact 1 (isTrace_follow _ _ _)).mpr (by decide)

end BackedData.Adapters
