/-
# BackedData.Adapters.WriteLoop — whether the thread comes to the end of a `Write`

The loop of `SyncAsAsyncWriteBg::call` has three kinds of rounds that leave `pos` where it is: an error that
is ignored, an error that is reported and retried, and a write of nothing.  The first ends if the inner
writer interrupts only so often in a row, and the second waits for an answer of the controller; nothing ends
the third.  `write_loop_ends_iff` says in which runs every loop ends: those in which no byte is ever waited
for through empty writes and granted retries without end, and no error is to be reported to a controller
that no longer listens.  A run is infinite, or comes to an end, as every run does in which the controller is
dropped and the thread returns or panics.
-/
import BackedData.Adapters.AsyncWrite
import BackedData.Logic.Runs
import Mathlib.Tactic.IntervalCases

namespace BackedData.Adapters

open Logic.Trace Logic.Runs

set_option autoImplicit false

variable {B E : Type}

/-! ## The steps of the loop -/

/-- The thread is in the loop of a `Write`. -/
def Bg.inWriteLoop : Bg B E → Bool
  | .writing _ _ => true
  | .reporting _ _ _ => true
  | .waiting _ _ => true
  | _ => false

/-- **`LoopMoves s answer t`** — the steps of the loop, with what each of them needs. -/
inductive LoopMoves (s : State B E) : InnerAnswer E → State B E → Prop
  | accepted {data : List B} {pos advance : Nat} : s.bg = .writing data pos →
      pos + (advance + 1) ≤ data.length →
      LoopMoves s (.wrote (advance + 1))
        { s with
          writer := s.writer ++ (data.drop pos).take (advance + 1)
          bg := .writing data (pos + (advance + 1)) }
  | empty {data : List B} {pos : Nat} : s.bg = .writing data pos → pos < data.length →
      LoopMoves s (.wrote 0) s
  | interrupted {data : List B} {pos : Nat} : s.bg = .writing data pos → pos < data.length →
      LoopMoves s .interrupted s
  | failed {data : List B} {pos : Nat} {error : E} : s.bg = .writing data pos → pos < data.length →
      LoopMoves s (.failed error) { s with bg := .reporting data pos error }
  | sent {data : List B} {pos : Nat} : s.bg = .writing data pos → data.length ≤ pos →
      LoopMoves s .silent (s.sendStatus (.ok ()) .recv)
  | reported {data : List B} {pos : Nat} {error : E} : s.bg = .reporting data pos error →
      s.statusRx = true →
      LoopMoves s .silent (s.sendStatus (.error { error, retry := true }) (.waiting data pos))
  | unheard {data : List B} {pos : Nat} {error : E} : s.bg = .reporting data pos error →
      s.statusRx = false → LoopMoves s .silent { s with bg := .panicked }
  | returned {data : List B} {pos : Nat} : s.bg = .waiting data pos → s.retryToggle.alive = false →
      LoopMoves s .silent { s with bg := .returned }
  | retried {data : List B} {pos : Nat} : s.bg = .waiting data pos → s.retryToggle.alive = true →
      s.retryToggle.enabled = true →
      LoopMoves s .silent { s with
        retryToggle := { s.retryToggle with enabled := false }
        bg := .writing data pos }
  | woken {data : List B} {pos : Nat} : s.bg = .waiting data pos → s.retryToggle.alive = true →
      s.retryToggle.enabled = false → LoopMoves s .silent s

variable {s t : State B E}

theorem bgNext_loop {answer : InnerAnswer E} (hin : s.bg.inWriteLoop = true)
    (hs : bgNext s answer = some t) : LoopMoves s answer t := by
  unfold bgNext at hs
  split at hs
  next hb => rw [hb] at hin; cases hin
  next data pos advance hb =>
    split at hs
    next hlt =>
      cases Option.some.inj hs
      rcases advance with _ | advance
      · have hself : { s with
            writer := s.writer ++ (data.drop pos).take 0
            bg := .writing data (pos + 0) } = s := by
          rw [List.take_zero, List.append_nil, Nat.add_zero, ← hb]
        rw [hself]
        exact .empty hb hlt.1
      · exact .accepted hb (by omega)
    next => cases hs
  next hb =>
    split at hs
    next hlt => exact Option.some.inj hs ▸ .interrupted hb hlt
    next => cases hs
  next hb =>
    split at hs
    next hlt => exact Option.some.inj hs ▸ .failed hb hlt
    next => cases hs
  next hb =>
    split at hs
    next => cases hs
    next hlt => exact Option.some.inj hs ▸ .sent hb (Nat.le_of_not_lt hlt)
  next hb =>
    split at hs
    next hrx => exact Option.some.inj hs ▸ .reported hb hrx
    next hrx => exact Option.some.inj hs ▸ .unheard hb (Bool.eq_false_iff.2 hrx)
  next hb =>
    split at hs
    next halive => exact Option.some.inj hs ▸ .returned hb (Bool.not_eq_true' _ ▸ halive)
    next halive =>
      have halive' : s.retryToggle.alive = true := by
        cases ha : s.retryToggle.alive with
        | true => rfl
        | false => rw [ha] at halive; exact absurd rfl halive
      split at hs
      next hen => exact Option.some.inj hs ▸ .retried hb halive' hen
      next hen => exact Option.some.inj hs ▸ .woken hb halive' (Bool.eq_false_iff.2 hen)
  next hb => rw [hb] at hin; cases hin
  next hb => rw [hb] at hin; cases hin
  next hb => rw [hb] at hin; cases hin
  next hb => rw [hb] at hin; cases hin
  next => cases hs

/-- The thread always has a next step while it is in the loop. -/
theorem exists_bgNext (hin : s.bg.inWriteLoop = true) : ∃ answer t, bgNext s answer = some t := by
  cases hb : s.bg with
  | writing data pos =>
      by_cases hlt : pos < data.length
      · refine ⟨.interrupted, s, ?_⟩
        unfold bgNext
        simp only [hb]
        exact if_pos hlt
      · refine ⟨.silent, s.sendStatus (.ok ()) .recv, ?_⟩
        unfold bgNext
        simp only [hb]
        exact if_neg hlt
  | reporting data pos error =>
      refine ⟨.silent, ?_⟩
      unfold bgNext
      simp only [hb]
      split
      · exact ⟨_, rfl⟩
      · exact ⟨_, rfl⟩
  | waiting data pos =>
      refine ⟨.silent, ?_⟩
      unfold bgNext
      simp only [hb]
      split
      · exact ⟨_, rfl⟩
      · split
        · exact ⟨_, rfl⟩
        · exact ⟨_, rfl⟩
  | _ => rw [hb] at hin; cases hin

/-- What a step of the controller leaves to the loop: the thread stands where it stood, nothing is taken
from the inner writer, and an answer is not taken back. -/
structure Apart (s t : State B E) : Prop where
  bg : t.bg = s.bg
  writer : t.writer = s.writer
  statusRx : s.statusRx = false → t.statusRx = false
  alive : s.retryToggle.alive = false → t.retryToggle.alive = false
  enabled : s.retryToggle.enabled = true → t.retryToggle.enabled = true

theorem Apart.refl (s : State B E) : Apart s s := ⟨rfl, rfl, id, id, id⟩

theorem PollerMoves.apart (h : PollerMoves s t) : Apart s t := by
  cases h with
  | retrying _ => exact ⟨rfl, rfl, id, id, fun _ => rfl⟩
  | closing _ => exact ⟨rfl, rfl, fun _ => rfl, id, id⟩
  | _ => exact ⟨rfl, rfl, id, id, id⟩

theorem next_apart {ev : Event B E} (hev : ∀ answer, ev ≠ .bg answer) (hs : next s ev = some t) :
    Apart s t := by
  cases ev with
  | pollWrite buf =>
      obtain ⟨-, rfl | rfl⟩ := pollWrite_inv hs
      · exact ⟨rfl, rfl, id, id, id⟩
      · exact ⟨rfl, rfl, id, id, id⟩
  | pollFlush cx =>
      obtain ⟨-, rfl⟩ := pollFlush_inv hs
      exact ⟨rfl, rfl, id, id, id⟩
  | drop =>
      obtain ⟨-, rfl⟩ := drop_inv hs
      exact ⟨rfl, rfl, id, fun _ => rfl, id⟩
  | poller => exact (pollerNext_moves hs).apart
  | bg answer => exact absurd rfl (hev answer)

/-- How far a round has come that writes nothing: the write, the report of its error, the answer. -/
def Bg.phase : Bg B E → Nat
  | .writing _ _ => 2
  | .reporting _ _ _ => 1
  | _ => 0

/-! ## Runs -/

/-- A run of the writer and its thread, finite or infinite. -/
abbrev Session (B E : Type) := Run (Steps (next (B := B) (E := E)))

namespace Session

variable (r : Session B E)

/-- The run begins with `SyncAsAsyncWrite::new`. -/
def Started : Prop := ∃ bufferMinSize, r.state 0 = State.new bufferMinSize

/-- **`Scheduled`** — while it is in the loop the thread gets its turns, and the inner writer does not
answer `WouldBlock` or `Interrupted` in all of them.  So the run does not end there, as no run does that goes
on while there is a step (`runs_on`). -/
def Scheduled : Prop :=
  ∀ n, (r.state n).bg.inWriteLoop = true →
    ∃ m, n ≤ m ∧ ∃ answer, r.label m = some (.bg answer) ∧ answer ≠ .interrupted

/-- **`Answered`** — a reported error is answered sooner or later, by a retry or by dropping the
controller. -/
def Answered : Prop :=
  ∀ n data pos, (r.state n).bg = .waiting data pos → ∃ m, n ≤ m ∧
    ((r.state m).retryToggle.enabled = true ∨ (r.state m).retryToggle.alive = false)

/-- **`Ends n`** — the loop that runs at `n` ends: it sends the `Ok` status, with every byte that was left
accepted by the inner writer, or it returns. -/
def Ends (n : Nat) : Prop :=
  ∃ m, n ≤ m ∧ (∀ k, n ≤ k → k ≤ m → (r.state k).bg.inWriteLoop = true) ∧
    ((r.state (m + 1) = (r.state m).sendStatus (.ok ()) .recv ∧
        (r.state m).writer = (r.state n).writer ++ (r.state n).bg.rest) ∨
      (r.state (m + 1)).bg = .returned)

/-- The inner writer accepts a byte. -/
def Accepts (n : Nat) : Prop := ∃ advance, r.label n = some (.bg (.wrote (advance + 1)))

/-- A write of nothing, or a retry that is granted. -/
def Idles (n : Nat) : Prop :=
  r.label n = some (.bg (.wrote 0)) ∨
    (∃ data pos, (r.state n).bg = .waiting data pos) ∧ (r.state n).retryToggle.alive = true ∧
      (r.state n).retryToggle.enabled = true ∧ r.label n = some (.bg .silent)

/-- **`StallsFrom n`** — from `n` on there is no end of empty writes and granted retries, and no byte is
accepted. -/
def StallsFrom (n : Nat) : Prop :=
  (∀ m, n ≤ m → ¬ r.Accepts m) ∧ ∀ m, n ≤ m → ∃ k, m ≤ k ∧ r.Idles k

/-- **`Unheard n`** — there is an error to report, and the controller has dropped its receiver. -/
def Unheard (n : Nat) : Prop :=
  (∃ data pos error, (r.state n).bg = .reporting data pos error) ∧ (r.state n).statusRx = false

variable {r}

/-- A run that ends only where no step is left does not end in the loop. -/
theorem runs_on (hmax : r.Maximal) {n : Nat} (hin : (r.state n).bg.inWriteLoop = true) : r.label n ≠ none := by
  intro hend
  obtain ⟨answer, t, hs⟩ := exists_bgNext hin
  exact hmax n hend (.bg answer) t hs

/-- A step of the run, or its end, seen from anywhere: the thread moves, or the rest of the system does. -/
theorem thread_or_apart (r : Session B E) (n : Nat) :
    (Apart (r.state n) (r.state (n + 1)) ∧ ∀ answer, r.label n ≠ some (.bg answer)) ∨
      ∃ answer, r.label n = some (.bg answer) ∧ bgNext (r.state n) answer = some (r.state (n + 1)) := by
  cases hl : r.label n with
  | none =>
      rw [r.rests n hl]
      exact .inl ⟨.refl _, nofun⟩
  | some ev =>
      have hs : next (r.state n) ev = some (r.state (n + 1)) := r.steps n ev hl
      by_cases hev : ∃ answer, ev = .bg answer
      · obtain ⟨answer, rfl⟩ := hev
        exact .inr ⟨answer, rfl, hs⟩
      · refine .inl ⟨next_apart (fun answer h => hev ⟨answer, h⟩) hs, fun answer h => hev ⟨answer, ?_⟩⟩
        exact Option.some.inj h

/-- The same, seen from the loop. -/
theorem loop_or_apart {n : Nat} (hin : (r.state n).bg.inWriteLoop = true) :
    (Apart (r.state n) (r.state (n + 1)) ∧ ∀ answer, r.label n ≠ some (.bg answer)) ∨
      ∃ answer, r.label n = some (.bg answer) ∧ LoopMoves (r.state n) answer (r.state (n + 1)) := by
  refine (thread_or_apart r n).imp id ?_
  rintro ⟨answer, hl, hs⟩
  exact ⟨answer, hl, bgNext_loop hin hs⟩

/-- The bytes that are left are never added to. -/
theorem rest_le {n : Nat} (hin : (r.state n).bg.inWriteLoop = true) :
    (r.state (n + 1)).bg.rest.length ≤ (r.state n).bg.rest.length := by
  obtain ⟨hapart, -⟩ | ⟨answer, -, hmove⟩ := loop_or_apart hin
  · exact Nat.le_of_eq (congrArg (fun bg => bg.rest.length) hapart.bg)
  · generalize r.state n = s at hmove ⊢
    generalize r.state (n + 1) = t at hmove ⊢
    cases hmove with
    | @accepted data pos advance hb _ =>
        rw [hb]
        show (data.drop (pos + (advance + 1))).length ≤ (data.drop pos).length
        rw [List.length_drop, List.length_drop]
        omega
    | failed hb _ => rw [hb]; exact Nat.le_refl _
    | sent _ _ => rw [State.sendStatus_eq]; exact Nat.zero_le _
    | reported hb _ => rw [State.sendStatus_eq, hb]; exact Nat.le_refl _
    | retried hb _ _ => rw [hb]; exact Nat.le_refl _
    | unheard _ _ => exact Nat.zero_le _
    | returned _ _ => exact Nat.zero_le _
    | _ => exact Nat.le_refl _

/-- A write that accepts bytes takes them from what is left. -/
theorem rest_lt {n : Nat} (hin : (r.state n).bg.inWriteLoop = true) (hacc : r.Accepts n) :
    (r.state (n + 1)).bg.rest.length < (r.state n).bg.rest.length := by
  obtain ⟨advance, hl⟩ := hacc
  have hs : bgNext (r.state n) (.wrote (advance + 1)) = some (r.state (n + 1)) := r.steps n _ hl
  have hmove := bgNext_loop hin hs
  generalize r.state n = s at hmove ⊢
  generalize r.state (n + 1) = t at hmove ⊢
  cases hmove with
  | @accepted data pos _ hb hle =>
      rw [hb]
      show (data.drop (pos + (advance + 1))).length < (data.drop pos).length
      rw [List.length_drop, List.length_drop]
      omega

/-- Without a byte accepted, nothing is added to what the inner writer has. -/
theorem writer_same {n : Nat} (hin : (r.state n).bg.inWriteLoop = true) (hacc : ¬ r.Accepts n) :
    (r.state (n + 1)).writer = (r.state n).writer := by
  obtain ⟨hapart, -⟩ | ⟨answer, hl, hmove⟩ := loop_or_apart hin
  · exact hapart.writer
  · unfold Accepts at hacc
    rw [hl] at hacc
    generalize r.state n = s at hmove ⊢
    generalize r.state (n + 1) = t at hmove ⊢
    cases hmove with
    | accepted _ _ => exact absurd ⟨_, rfl⟩ hacc
    | sent _ _ => rw [State.sendStatus_eq]
    | reported _ _ => rw [State.sendStatus_eq]
    | _ => rfl

/-- **What one step makes of the loop.** -/
theorem loop_step {n : Nat} (hin : (r.state n).bg.inWriteLoop = true) :
    ((r.state (n + 1)).bg.inWriteLoop = true ∧
      (r.state (n + 1)).writer ++ (r.state (n + 1)).bg.rest = (r.state n).writer ++ (r.state n).bg.rest) ∨
    (r.state (n + 1) = (r.state n).sendStatus (.ok ()) .recv ∧ (r.state n).bg.rest = []) ∨
    (r.state (n + 1)).bg = .returned ∨
    ((r.state (n + 1)).bg = .panicked ∧ r.Unheard n) := by
  obtain ⟨hapart, -⟩ | ⟨answer, -, hmove⟩ := loop_or_apart hin
  · rw [hapart.bg, hapart.writer]
    exact .inl ⟨hin, rfl⟩
  · generalize hs : r.state n = s at hmove hin ⊢
    generalize r.state (n + 1) = t at hmove ⊢
    cases hmove with
    | @accepted data pos advance hb hle =>
        refine .inl ⟨rfl, ?_⟩
        show s.writer ++ _ ++ data.drop (pos + (advance + 1)) = _
        rw [hb, List.append_assoc, ← List.drop_drop, List.take_append_drop]
        rfl
    | empty hb _ => exact .inl ⟨hin, rfl⟩
    | interrupted hb _ => exact .inl ⟨hin, rfl⟩
    | failed hb _ => exact .inl ⟨rfl, by rw [hb]; rfl⟩
    | sent hb hle =>
        refine .inr (.inl ⟨rfl, ?_⟩)
        rw [hb]
        exact List.drop_eq_nil_of_le hle
    | reported hb _ =>
        rw [State.sendStatus_eq]
        exact .inl ⟨rfl, by rw [hb]; rfl⟩
    | unheard hb hrx =>
        have hunheard : r.Unheard n := by
          unfold Unheard
          rw [hs]
          exact ⟨⟨_, _, _, hb⟩, hrx⟩
        exact .inr (.inr (.inr ⟨rfl, hunheard⟩))
    | returned _ _ => exact .inr (.inr (.inl rfl))
    | retried hb _ _ => exact .inl ⟨rfl, by rw [hb]; rfl⟩
    | woken _ _ _ => exact .inl ⟨hin, rfl⟩

/-- A loop that does not end goes on, and loses nothing of what it is to write. -/
theorem goes_on {n : Nat} (hin : (r.state n).bg.inWriteLoop = true) (hends : ¬ r.Ends n)
    (hheard : ∀ n, ¬ r.Unheard n) {m : Nat} (hnm : n ≤ m) : (r.state m).bg.inWriteLoop = true := by
  have hall : (∀ k, n ≤ k → k ≤ m → (r.state k).bg.inWriteLoop = true) ∧
      (r.state m).writer ++ (r.state m).bg.rest = (r.state n).writer ++ (r.state n).bg.rest := by
    refine Run.carried (P := fun m => (∀ k, n ≤ k → k ≤ m → (r.state k).bg.inWriteLoop = true) ∧
      (r.state m).writer ++ (r.state m).bg.rest = (r.state n).writer ++ (r.state n).bg.rest) hnm ?_ ?_
    · refine ⟨fun k hnk hkn => ?_, rfl⟩
      rw [Nat.le_antisymm hkn hnk]
      exact hin
    · rintro k hnk - ⟨hloop, hbytes⟩
      obtain ⟨hin', hbytes'⟩ | ⟨hsent, hrest⟩ | hret | ⟨-, hunheard⟩ :=
        loop_step (hloop k hnk (Nat.le_refl k))
      · refine ⟨fun j hnj hj => ?_, hbytes'.trans hbytes⟩
        rcases Nat.le_succ_iff.1 hj with hj | rfl
        · exact hloop j hnj hj
        · exact hin'
      · rw [hrest, List.append_nil] at hbytes
        exact absurd ⟨k, hnk, hloop, .inl ⟨hsent, hbytes⟩⟩ hends
      · exact absurd ⟨k, hnk, hloop, .inr hret⟩ hends
      · exact absurd hunheard (hheard k)
  exact hall.1 m hnm (Nat.le_refl m)

/-- Between two idle rounds the thread only goes on from the write to the answer. -/
theorem phase_le {n : Nat} (hin : (r.state n).bg.inWriteLoop = true) (hidle : ¬ r.Idles n) :
    (r.state (n + 1)).bg.phase ≤ (r.state n).bg.phase := by
  obtain ⟨hapart, -⟩ | ⟨answer, hev, hmove⟩ := loop_or_apart hin
  · exact Nat.le_of_eq (congrArg Bg.phase hapart.bg)
  · unfold Idles at hidle
    rw [hev] at hidle
    generalize r.state n = s at hmove hidle ⊢
    generalize r.state (n + 1) = t at hmove ⊢
    cases hmove with
    | accepted hb _ => rw [hb]; exact Nat.le_refl _
    | failed hb _ => rw [hb]; exact Nat.le_succ _
    | sent _ _ => rw [State.sendStatus_eq]; exact Nat.zero_le _
    | reported _ _ => rw [State.sendStatus_eq]; exact Nat.zero_le _
    | retried hb halive hen => exact absurd (.inr ⟨⟨_, _, hb⟩, halive, hen, rfl⟩) hidle
    | unheard _ _ => exact Nat.zero_le _
    | returned _ _ => exact Nat.zero_le _
    | _ => exact Nat.le_refl _

/-- An answer that was given is there when the thread next looks, unless it grants a retry before. -/
theorem answer_stays {n : Nat} (hin : (r.state n).bg.inWriteLoop = true) (hidle : ¬ r.Idles n)
    (h : (r.state n).retryToggle.enabled = true ∨ (r.state n).retryToggle.alive = false) :
    (r.state (n + 1)).retryToggle.enabled = true ∨ (r.state (n + 1)).retryToggle.alive = false := by
  obtain ⟨hapart, -⟩ | ⟨answer, hev, hmove⟩ := loop_or_apart hin
  · exact h.imp hapart.enabled hapart.alive
  · unfold Idles at hidle
    rw [hev] at hidle
    generalize r.state n = s at hmove hidle h ⊢
    generalize r.state (n + 1) = t at hmove ⊢
    cases hmove with
    | sent _ _ => rw [State.sendStatus_eq]; exact h
    | reported _ _ => rw [State.sendStatus_eq]; exact h
    | retried hb halive hen => exact absurd (.inr ⟨⟨_, _, hb⟩, halive, hen, rfl⟩) hidle
    | _ => exact h

/-! ## A loop that does not end -/

/-- **Where the bytes stop, the idle rounds do not** — a loop that goes on without accepting a byte comes to
one more empty write or granted retry. -/
theorem exists_idles (hsched : r.Scheduled) (hans : r.Answered) {n : Nat}
    (hin : ∀ k, n ≤ k → (r.state k).bg.inWriteLoop = true) (hacc : ∀ k, n ≤ k → ¬ r.Accepts k) :
    ∃ k, n ≤ k ∧ r.Idles k := by
  by_contra hnone
  have hidle : ∀ k, n ≤ k → ¬ r.Idles k := fun k hk h => hnone ⟨k, hk, h⟩
  -- without them the thread stays where it is from some point on
  obtain ⟨m, hnm, hphase⟩ := settles (fun k => (r.state k).bg.phase)
    (fun k hk => phase_le (hin k hk) (hidle k hk))
  -- its next turn, when it has an answer if it waits for one
  have hturn : ∃ k, m ≤ k ∧ (∃ answer, r.label k = some (.bg answer) ∧ answer ≠ .interrupted) ∧
      ∀ data pos, (r.state k).bg = .waiting data pos →
        (r.state k).retryToggle.enabled = true ∨ (r.state k).retryToggle.alive = false := by
    by_cases hwait : ∃ data pos, (r.state m).bg = .waiting data pos
    · obtain ⟨data, pos, hwait⟩ := hwait
      obtain ⟨j, hmj, hgiven⟩ := hans m data pos hwait
      have hnj := Nat.le_trans hnm hmj
      obtain ⟨k, hjk, hlabel⟩ := hsched j (hin j hnj)
      refine ⟨k, Nat.le_trans hmj hjk, hlabel, fun _ _ _ => ?_⟩
      exact Run.carried (P := fun k => (r.state k).retryToggle.enabled = true ∨
        (r.state k).retryToggle.alive = false) hjk hgiven
        (fun i hi _ => answer_stays (hin i (Nat.le_trans hnj hi)) (hidle i (Nat.le_trans hnj hi)))
    · obtain ⟨k, hmk, hlabel⟩ := hsched m (hin m hnm)
      refine ⟨k, hmk, hlabel, fun data pos hk => ?_⟩
      have hm := hphase k hmk
      rw [hk] at hm
      have hloop := hin m hnm
      cases hb : (r.state m).bg with
      | waiting data' pos' => exact absurd ⟨data', pos', hb⟩ hwait
      | writing _ _ => rw [hb] at hm; cases hm
      | reporting _ _ _ => rw [hb] at hm; cases hm
      | _ => rw [hb] at hloop; cases hloop
  obtain ⟨k, hmk, ⟨answer, hlabel, hne⟩, hgiven⟩ := hturn
  have hnk := Nat.le_trans hnm hmk
  have hmove := bgNext_loop (hin k hnk) (r.steps k _ hlabel)
  have hloop := hin (k + 1) (Nat.le_succ_of_le hnk)
  have hsame : (r.state (k + 1)).bg.phase = (r.state k).bg.phase :=
    (hphase (k + 1) (Nat.le_succ_of_le hmk)).trans (hphase k hmk).symm
  have hacc' := hacc k hnk
  have hidle' := hidle k hnk
  unfold Accepts at hacc'
  unfold Idles at hidle'
  rw [hlabel] at hacc' hidle'
  generalize r.state k = s at hmove hsame hgiven hidle'
  generalize r.state (k + 1) = t at hmove hsame hloop
  cases hmove with
  | accepted _ _ => exact hacc' ⟨_, rfl⟩
  | empty _ _ => exact hidle' (.inl rfl)
  | interrupted _ _ => exact hne rfl
  | failed hb _ => rw [hb] at hsame; cases hsame
  | sent _ _ => rw [State.sendStatus_eq] at hloop; cases hloop
  | reported hb _ => rw [State.sendStatus_eq, hb] at hsame; cases hsame
  | unheard _ _ => cases hloop
  | returned _ _ => cases hloop
  | retried hb halive hen => exact hidle' (.inr ⟨⟨_, _, hb⟩, halive, hen, rfl⟩)
  | woken hb halive hen =>
      rcases hgiven _ _ hb with h | h
      · rw [hen] at h; cases h
      · rw [halive] at h; cases h

/-- A loop that does not end stalls. -/
theorem stalls_of_not_ends (hsched : r.Scheduled) (hans : r.Answered) (hheard : ∀ n, ¬ r.Unheard n) {n : Nat}
    (hin : (r.state n).bg.inWriteLoop = true) (hends : ¬ r.Ends n) : ∃ m, r.StallsFrom m := by
  have hloop : ∀ k, n ≤ k → (r.state k).bg.inWriteLoop = true := fun k hk => goes_on hin hends hheard hk
  obtain ⟨m, hnm, hrest⟩ := settles (fun k => (r.state k).bg.rest.length)
    (fun k hk => rest_le (hloop k hk))
  have hacc : ∀ k, m ≤ k → ¬ r.Accepts k := by
    intro k hk haccepts
    have hlt := rest_lt (hloop k (Nat.le_trans hnm hk)) haccepts
    have hk' : (r.state k).bg.rest.length = (r.state m).bg.rest.length := hrest k hk
    have hsucc : (r.state (k + 1)).bg.rest.length = (r.state m).bg.rest.length :=
      hrest (k + 1) (Nat.le_succ_of_le hk)
    omega
  refine ⟨m, hacc, fun j hj => ?_⟩
  exact exists_idles hsched hans (fun k hk => hloop k (Nat.le_trans (Nat.le_trans hnm hj) hk))
    (fun k hk => hacc k (Nat.le_trans hj hk))

end Session

/-! ## A loop that stalls -/

/-- Where an error is reported or waits for its answer, there are bytes left. -/
def Bg.Unwritten : Bg B E → Prop
  | .reporting data pos _ => pos < data.length
  | .waiting data pos => pos < data.length
  | _ => True

theorem unwritten_step {s t : State B E} {ev : Event B E} (h : s.bg.Unwritten) (hs : next s ev = some t) :
    t.bg.Unwritten := by
  by_cases hev : ∃ answer, ev = .bg answer
  · obtain ⟨answer, rfl⟩ := hev
    cases hin : s.bg.inWriteLoop with
    | true =>
        cases bgNext_loop hin hs with
        | failed _ hlt => exact hlt
        | sent _ _ => rw [State.sendStatus_eq]; trivial
        | reported hb _ => rw [State.sendStatus_eq]; rw [hb] at h; exact h
        | empty _ _ => exact h
        | interrupted _ _ => exact h
        | woken _ _ _ => exact h
        | _ => trivial
    | false =>
        cases bgNext_moves hs with
        | received _ _ =>
            rename_i cmd _ _ _
            cases cmd with
            | write data => trivial
            | flush => trivial
        | interrupted => exact h
        | writeFailed hb => rw [hb] at hin; cases hin
        | written hb _ => rw [hb] at hin; cases hin
        | reported hb => rw [hb] at hin; cases hin
        | wokenUp hb => rw [hb] at hin; cases hin
        | answered _ => rw [State.sendStatus_eq]; trivial
        | _ => trivial
  · have hbg := (next_apart (fun answer h => hev ⟨answer, h⟩) hs).bg
    rwa [hbg]

/-- The inner writer is asked only where there are bytes left. -/
theorem wrote_inv {s t : State B E} {advance : Nat} (hs : bgNext s (.wrote advance) = some t) :
    ∃ data pos, s.bg = .writing data pos ∧ pos < data.length := by
  have hin : s.bg.inWriteLoop = true := by
    cases bgNext_moves hs with
    | wrote hb => rw [hb]; rfl
  cases bgNext_loop hin hs with
  | accepted hb hle => exact ⟨_, _, hb, by omega⟩
  | empty hb hlt => exact ⟨_, _, hb, hlt⟩

/-- The send of a report is unwrapped. -/
theorem panicked_of_unheard {s t : State B E} {data : List B} {pos : Nat} {error : E} {answer : InnerAnswer E}
    (hb : s.bg = .reporting data pos error) (hrx : s.statusRx = false) (hs : bgNext s answer = some t) :
    t.bg = .panicked := by
  have hother : ∀ {bg : Bg B E}, s.bg = bg → bg = .reporting data pos error := fun h => h.symm.trans hb
  cases bgNext_loop (by rw [hb]; rfl) hs with
  | unheard _ _ => rfl
  | reported _ hrx' => rw [hrx] at hrx'; cases hrx'
  | accepted hb' _ => cases hother hb'
  | empty hb' _ => cases hother hb'
  | interrupted hb' _ => cases hother hb'
  | failed hb' _ => cases hother hb'
  | sent hb' _ => cases hother hb'
  | returned hb' _ => cases hother hb'
  | retried hb' _ _ => cases hother hb'
  | woken hb' _ _ => cases hother hb'

namespace Session

variable {r : Session B E}

/-- The thread that has returned takes no step. -/
theorem returned_stays {n : Nat} (h : (r.state n).bg = .returned) : (r.state (n + 1)).bg = .returned := by
  obtain ⟨hapart, -⟩ | ⟨answer, -, hs⟩ := thread_or_apart r n
  · exact hapart.bg.trans h
  · unfold bgNext at hs
    simp only [h] at hs
    cases hs

/-- An idle round is one of a loop with bytes left to write. -/
theorem idles_inWriteLoop (hstart : r.Started) {n : Nat} (hidle : r.Idles n) :
    (r.state n).bg.inWriteLoop = true ∧ (r.state n).bg.rest ≠ [] := by
  have hrest : ∀ {data : List B} {pos : Nat}, pos < data.length → data.drop pos ≠ [] :=
    fun hlt h => absurd (List.drop_eq_nil_iff.1 h) (Nat.not_le_of_lt hlt)
  obtain hev | ⟨⟨data, pos, hb⟩, -⟩ := hidle
  · obtain ⟨data, pos, hb, hlt⟩ := wrote_inv (r.steps n _ hev)
    rw [hb]
    exact ⟨rfl, hrest hlt⟩
  · have hunwritten : (r.state n).bg.Unwritten := by
      refine r.invariant (P := fun s => s.bg.Unwritten) (fun s ev t h hs => unwritten_step h hs) ?_ n
      obtain ⟨bufferMinSize, h0⟩ := hstart
      rw [h0]
      trivial
    rw [hb] at hunwritten ⊢
    exact ⟨rfl, hrest hunwritten⟩

/-- A loop that stalls does not end. -/
theorem not_ends_of_stalls (hstart : r.Started) {n : Nat} (hstalls : r.StallsFrom n) :
    ∃ m, (r.state m).bg.inWriteLoop = true ∧ ¬ r.Ends m := by
  obtain ⟨hacc, hidles⟩ := hstalls
  obtain ⟨k, hnk, hidle⟩ := hidles n (Nat.le_refl n)
  obtain ⟨hin, hrest⟩ := idles_inWriteLoop hstart hidle
  refine ⟨k, hin, ?_⟩
  rintro ⟨m, hkm, hloop, ⟨-, hwriter⟩ | hret⟩
  · -- the inner writer cannot have what was left
    have hsame : (r.state m).writer = (r.state k).writer := by
      refine Run.carried (P := fun j => (r.state j).writer = (r.state k).writer) hkm rfl ?_
      intro j hkj hjm hj
      exact (writer_same (hloop j hkj (Nat.le_of_lt hjm)) (hacc j (Nat.le_trans hnk hkj))).trans hj
    exact hrest (List.append_right_eq_self.1 (hwriter.symm.trans hsame))
  · -- no round follows the return
    have hstays : ∀ j, m + 1 ≤ j → (r.state j).bg = .returned := fun j hj =>
      Run.carried (P := fun j => (r.state j).bg = .returned) hj hret
        (fun i _ _ hi => returned_stays hi)
    obtain ⟨j, hmj, hidle'⟩ := hidles (m + 1) (by omega)
    have hin' := (idles_inWriteLoop hstart hidle').1
    rw [hstays j hmj] at hin'
    cases hin'

/-- Where an error cannot be reported, the thread panics. -/
theorem not_ends_of_unheard {n : Nat} (hunheard : r.Unheard n) : ¬ r.Ends n := by
  rintro ⟨m, hnm, hloop, hend⟩
  have hpanics : ∀ k, r.Unheard k → r.Unheard (k + 1) ∨ (r.state (k + 1)).bg = .panicked := by
    rintro k ⟨⟨data, pos, error, hb⟩, hrx⟩
    obtain ⟨hapart, -⟩ | ⟨answer, -, hstep⟩ := thread_or_apart r k
    · exact .inl ⟨⟨data, pos, error, hapart.bg.trans hb⟩, hapart.statusRx hrx⟩
    · exact .inr (panicked_of_unheard hb hrx hstep)
  have hstill : r.Unheard m := by
    refine Run.carried (P := r.Unheard) hnm hunheard ?_
    intro k hnk hkm hk
    rcases hpanics k hk with h | h
    · exact h
    · have hin := hloop (k + 1) (Nat.le_succ_of_le hnk) hkm
      rw [h] at hin
      cases hin
  -- and neither of its two ends is a step from there
  have hended : (r.state (m + 1)).bg = .recv ∨ (r.state (m + 1)).bg = .returned := by
    refine hend.imp (fun hsent => ?_) id
    rw [hsent.1, State.sendStatus_eq]
  rcases hpanics m hstill with ⟨⟨data, pos, error, hb⟩, -⟩ | hb
  · rw [hb] at hended
    rcases hended with h | h <;> cases h
  · rw [hb] at hended
    rcases hended with h | h <;> cases h

/-- **When every `Write` comes to its end** — in a finite or infinite run, exactly where there is no stall, and
no error is to be reported to a controller that has gone. -/
theorem write_loop_ends_iff (r : Session B E) (hstart : r.Started) (hsched : r.Scheduled)
    (hans : r.Answered) :
    (∀ n, (r.state n).bg.inWriteLoop = true → r.Ends n) ↔
      (∀ n, ¬ r.StallsFrom n) ∧ ∀ n, ¬ r.Unheard n := by
  constructor
  · intro hends
    constructor
    · intro n hstalls
      obtain ⟨m, hin, hnot⟩ := not_ends_of_stalls hstart hstalls
      exact hnot (hends m hin)
    · intro n hunheard
      obtain ⟨⟨data, pos, error, hb⟩, -⟩ := id hunheard
      exact not_ends_of_unheard hunheard (hends n (by rw [hb]; rfl))
  · rintro ⟨hstalls, hheard⟩ n hin
    by_contra hnot
    obtain ⟨m, hm⟩ := stalls_of_not_ends hsched hans hheard hin hnot
    exact hstalls m hm

end Session

/-! ## An inner writer that takes no more bytes -/

/-- One byte is written, and the inner writer answers `Ok(0)` whenever it is asked. -/
def emptyWrites : Nat → Event Nat Unit
  | 0 => .pollWrite [7]
  | 1 => .poller
  | 2 => .poller
  | 3 => .bg .silent
  | _ => .bg (.wrote 0)

theorem emptyWrites_state (n : Nat) :
    iterate next (State.new 1) (fun k => some (emptyWrites k)) (n + 4)
      = { State.new 1 with
          numCmdsPending := 1
          poller := .idle (some (.wrote 1))
          bg := .writing [7] 0 } := by
  induction n with
  | zero => rfl
  | succ n ih =>
      show (next (iterate next (State.new 1) (fun k => some (emptyWrites k)) (n + 4))
        (.bg (.wrote 0))).getD _ = _
      rw [ih]
      rfl

theorem emptyWrites_taken (n : Nat) :
    (next (iterate next (State.new 1) (fun k => some (emptyWrites k)) n) (emptyWrites n)).isSome = true := by
  match n with
  | 0 => rfl
  | 1 => rfl
  | 2 => rfl
  | 3 => rfl
  | n + 4 => rw [emptyWrites_state]; rfl

/-- The run of these events, which has no end. -/
def stuck : Session Nat Unit :=
  Run.ofLabels next (State.new 1) (fun n => some (emptyWrites n))
    (fun n l hl => by rw [← Option.some.inj hl]; exact emptyWrites_taken n) nofun

theorem stuck_bg (n : Nat) : (stuck.state (n + 4)).bg = .writing [7] 0 :=
  congrArg State.bg (emptyWrites_state n)

theorem stuck_started : stuck.Started := ⟨1, rfl⟩

theorem stuck_scheduled : stuck.Scheduled := fun n _ => ⟨n + 4, by omega, .wrote 0, rfl, by decide⟩

theorem stuck_answered : stuck.Answered := by
  intro n data pos hb
  match n with
  | 0 => cases hb
  | 1 => cases hb
  | 2 => cases hb
  | 3 => cases hb
  | n + 4 => rw [stuck_bg] at hb; cases hb

theorem stuck_not_ends : ¬ stuck.Ends 4 := by
  rintro ⟨m, hm, -, hend⟩
  obtain ⟨k, rfl⟩ := Nat.exists_eq_add_of_le' hm
  have hb := stuck_bg (k + 1)
  rcases hend with ⟨hsent, -⟩ | hret
  · rw [show k + 1 + 4 = k + 4 + 1 by omega, hsent, State.sendStatus_eq] at hb
    cases hb
  · rw [show k + 1 + 4 = k + 4 + 1 by omega, hret] at hb
    cases hb

/-- The thread is in the loop for ever. -/
theorem write_never_ends :
    stuck.Started ∧ stuck.Scheduled ∧ stuck.Answered ∧ (stuck.state 4).bg = .writing [7] 0 ∧
      ¬ stuck.Ends 4 :=
  ⟨stuck_started, stuck_scheduled, stuck_answered, stuck_bg 0, stuck_not_ends⟩

/-! ## A controller that is dropped -/

/-- One byte is written, the inner writer fails, and the controller is dropped while the thread waits: it
returns, and no step is left. -/
def quits : List (Event Nat Unit) :=
  [.pollWrite [7], .poller, .poller, .bg .silent, .bg (.failed ()), .bg .silent, .drop, .bg .silent,
    .poller, .poller]

theorem quits_taken (n : Nat) (ev : Event Nat Unit) (h : quits[n]? = some ev) :
    (next (iterate next (State.new 1) (quits[·]?) n) ev).isSome = true := by
  have hlt : n < 10 := (List.getElem?_eq_some_iff.1 h).1
  interval_cases n
  all_goals
    cases h
    rfl

/-- The run of these events, which has an end. -/
def quitting : Session Nat Unit := Run.ofList next (State.new 1) quits quits_taken

theorem quitting_returned (n : Nat) : (quitting.state (n + 8)).bg = .returned := by
  induction n with
  | zero => rfl
  | succ n ih => exact Session.returned_stays ih

theorem quitting_maximal : quitting.Maximal := by
  intro n hend ev t hs
  have hle : 10 ≤ n := List.getElem?_eq_none_iff.1 hend
  have hstate : quitting.state n = quitting.state 10 :=
    Run.carried (P := fun k => quitting.state k = quitting.state 10) hle rfl
      (fun k hk _ hsame => (quitting.rests k (List.getElem?_eq_none_iff.2 hk)).trans hsame)
  have hnone : next (quitting.state 10) ev = none := by
    cases ev with
    | bg answer => cases answer <;> rfl
    | _ => rfl
  rw [hstate, Steps, hnone] at hs
  cases hs

theorem quitting_scheduled : quitting.Scheduled := by
  intro n hin
  by_cases hn : n < 8
  · exact ⟨7, by omega, .silent, rfl, nofun⟩
  · obtain ⟨k, rfl⟩ := Nat.exists_eq_add_of_le' (Nat.le_of_not_lt hn)
    rw [quitting_returned] at hin
    cases hin

theorem quitting_answered : quitting.Answered := by
  intro n data pos hb
  by_cases hn : n < 8
  · exact ⟨7, by omega, .inr rfl⟩
  · obtain ⟨k, rfl⟩ := Nat.exists_eq_add_of_le' (Nat.le_of_not_lt hn)
    rw [quitting_returned] at hb
    cases hb

/-- The run ends, and so does the loop in it, by the thread's return. -/
theorem write_loop_ends_quitting :
    quitting.Maximal ∧ (quitting.state 5).bg = .reporting [7] 0 () ∧ (quitting.state 8).bg = .returned ∧
      ∀ n, (quitting.state n).bg.inWriteLoop = true → quitting.Ends n := by
  refine ⟨quitting_maximal, rfl, rfl, ?_⟩
  refine (Session.write_loop_ends_iff quitting ⟨1, rfl⟩ quitting_scheduled quitting_answered).2 ⟨?_, ?_⟩
  · -- behind the end there are no more rounds
    rintro n ⟨-, hidles⟩
    obtain ⟨k, hk, hidle⟩ := hidles (max n 10) (Nat.le_max_left n 10)
    have hend : quitting.label k = none := List.getElem?_eq_none_iff.2 (Nat.le_trans (Nat.le_max_right n 10) hk)
    unfold Session.Idles at hidle
    rw [hend] at hidle
    rcases hidle with h | ⟨-, -, -, h⟩ <;> cases h
  · rintro n ⟨⟨data, pos, error, hb⟩, hrx⟩
    by_cases hn : n < 8
    · -- the receiver is dropped later
      interval_cases n
      all_goals cases hrx
    · obtain ⟨k, rfl⟩ := Nat.exists_eq_add_of_le' (Nat.le_of_not_lt hn)
      rw [quitting_returned] at hb
      cases hb

end BackedData.Adapters
