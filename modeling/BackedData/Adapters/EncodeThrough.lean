/-
# BackedData.Adapters.EncodeThrough — a value encoded through the adapters

`SyncCoderAsyncDisk::encode` has a handle encode the value into a buffer, and awaits `write_all`, `flush` and
`close` on the disk it is given.  On a `SyncAsAsync` disk that is a `SyncAsAsyncWrite`, with the thread behind
it.  The model puts the future of `encode` in front of the two sides of `Adapters.AsyncWrite`: each of its steps
starts a poll of the writer or reads the answer of one, at any moment and with any waker.

`encode_exact`: when `encode` has returned `Ok`, the inner writer has been flushed behind the last byte it
accepted, and it has accepted the encoded value exactly if that is no shorter than `write_buffer_min_size`, or
empty.  A shorter value never leaves the buffer, and nothing of it is stored.  An error returned is the
handle's, or one of the inner writer.
-/
import BackedData.Adapters.Shutdown

namespace BackedData.Adapters

open Logic.Trace

set_option autoImplicit false

variable {B E F : Type}

/-! ## The future of `encode` -/

/-- What `encode` may fail with: no handle is configured, the handle failed, `write_all` met a writer that
takes nothing, or the writer failed. -/
inductive EncodeError (E F : Type) where
  | noHandle
  | handle (error : F)
  | writeZero
  | writer (error : E)
  deriving DecidableEq, Repr

/-- Where `encode` stands: in `write_all` with the bytes still to write, in `flush`, in `close`, or at its
end. -/
inductive EncodeStage (B E F : Type) where
  | writing (rest : List B)
  | flushing
  | closing
  | ended (res : Except (EncodeError E F) Unit)
  deriving DecidableEq

/-- `encode`, with the disk it writes to; `polling` says that a poll of the disk is under way or has an answer
not yet read. -/
structure Encoding (B E F : Type) where
  stage : EncodeStage B E F
  polling : Bool
  state : State B E
  deriving DecidableEq

/-- A step of `encode`: to begin a poll, with a waker, or to read its answer; or a step of the poll or of the
thread. -/
inductive EncodeEvent (E : Type) where
  | poll (cx : Nat)
  | read
  | poller
  | bg (answer : InnerAnswer E)
  deriving DecidableEq, Repr

/-- The start of `encode`, with what the handle answers, if there is one. -/
def Encoding.new (bufferMinSize : Nat) (handle : Option (Except F (List B))) : Encoding B E F where
  stage :=
    match handle with
    | none => .ended (.error .noHandle)
    | some (.error e) => .ended (.error (.handle e))
    | some (.ok encoded) => .writing encoded
  polling := false
  state := .new bufferMinSize

/-- What `encode` makes of the answer of a poll. -/
def EncodeStage.read : EncodeStage B E F → PollAnswer E → Option (EncodeStage B E F)
  | .writing rest, .wrote n =>
      if n = 0 then some (.ended (.error .writeZero)) else some (.writing (rest.drop n))
  | .flushing, .pending => some .flushing
  | .flushing, .flushed => some .closing
  | .closing, .pending => some .closing
  | .closing, .flushed => some (.ended (.ok ()))
  | .ended _, _ => none
  | _, .failed e => some (.ended (.error (.writer e)))
  | _, _ => none

/-- The next step of `encode` between two polls.  At its end the disk is dropped. -/
def Encoding.poll (p : Encoding B E F) (cx : Nat) : Option (Encoding B E F) :=
  match p.stage with
  | .writing [] => some { p with stage := .flushing }
  | .writing rest => (next p.state (.pollWrite rest)).map fun state => { p with state, polling := true }
  | .flushing => (next p.state (.pollFlush cx)).map fun state => { p with state, polling := true }
  | .closing => (next p.state (.pollFlush cx)).map fun state => { p with state, polling := true }
  | .ended _ => (next p.state .drop).map fun state => { p with state }

/-- One step of `encode` and its disk. -/
def encodeNext (p : Encoding B E F) : EncodeEvent E → Option (Encoding B E F)
  | .poll cx => if p.polling then none else p.poll cx
  | .read =>
      match p.polling, p.state.poller with
      | true, .idle (some answer) =>
          (p.stage.read answer).map fun stage => { p with stage, polling := false }
      | _, _ => none
  | .poller => (next p.state .poller).map fun state => { p with state }
  | .bg answer => (next p.state (.bg answer)).map fun state => { p with state }

/-- What an observer of the inner writer has seen: how much it had accepted when it was last flushed, and the
errors it answered. -/
structure Seen (E : Type) where
  flushedAt : Option Nat
  errors : List E
  deriving DecidableEq, Repr

/-- What the observer notes. -/
def noteWriter (p : Encoding B E F) (ev : EncodeEvent E) (_ : Encoding B E F) (n : Seen E) : Seen E :=
  match ev with
  | .bg .flushed => { n with flushedAt := some p.state.writer.length }
  | .bg (.failed e) => { n with errors := n.errors ++ [e] }
  | _ => n

/-- **`Answered`** — of a state with what was seen: behind an `Ok`, the writer was flushed behind its last
byte, and has the encoded value exactly if that is empty or no shorter than the buffer's least size; an error
is the handle's or the writer's own. -/
structure Answered (bufferMinSize : Nat) (handle : Option (Except F (List B)))
    (p : Encoding B E F × Seen E) : Prop where
  ok : p.1.stage = .ended (.ok ()) → ∃ encoded, handle = some (.ok encoded) ∧
    p.2.flushedAt = some p.1.state.writer.length ∧
    (p.1.state.writer = encoded ↔ bufferMinSize ≤ encoded.length ∨ encoded = []) ∧
    (p.1.state.writer = encoded ∨ p.1.state.writer = [])
  error : ∀ e, p.1.stage = .ended (.error e) →
    (e = .noHandle ∧ handle = none) ∨ (∃ err, e = .handle err ∧ handle = some (.error err)) ∨
      ∃ err ∈ p.2.errors, e = .writer err

/-! ## What a step can do -/

/-- **`EncodeMoves p ev q`** — the steps, one constructor for each kind. -/
inductive EncodeMoves (p : Encoding B E F) : EncodeEvent E → Encoding B E F → Prop
  | written {cx : Nat} : p.polling = false → p.stage = .writing [] →
      EncodeMoves p (.poll cx) { p with stage := .flushing }
  | writes {cx : Nat} {rest : List B} {state : State B E} : p.polling = false →
      p.stage = .writing rest → rest ≠ [] → next p.state (.pollWrite rest) = some state →
      EncodeMoves p (.poll cx) { p with state, polling := true }
  | flushes {cx : Nat} {state : State B E} : p.polling = false →
      p.stage = .flushing ∨ p.stage = .closing → next p.state (.pollFlush cx) = some state →
      EncodeMoves p (.poll cx) { p with state, polling := true }
  | drops {cx : Nat} {res : Except (EncodeError E F) Unit} {state : State B E} :
      p.stage = .ended res → next p.state .drop = some state →
      EncodeMoves p (.poll cx) { p with state }
  | reads {answer : PollAnswer E} {stage : EncodeStage B E F} : p.polling = true →
      p.state.poller = .idle (some answer) → p.stage.read answer = some stage →
      EncodeMoves p .read { p with stage, polling := false }
  | calls {state : State B E} : pollerNext p.state = some state →
      EncodeMoves p .poller { p with state }
  | thread {answer : InnerAnswer E} {state : State B E} : bgNext p.state answer = some state →
      EncodeMoves p (.bg answer) { p with state }

variable {p q : Encoding B E F} {ev : EncodeEvent E}

theorem poll_moves {cx : Nat} (hpolling : p.polling = false) (hs : p.poll cx = some q) :
    EncodeMoves p (.poll cx) q := by
  obtain ⟨stage, polling, state⟩ := p
  cases stage with
  | writing rest =>
      cases rest with
      | nil =>
          cases hs
          exact .written hpolling rfl
      | cons b rest =>
          obtain ⟨state', hnext, rfl⟩ := Option.map_eq_some_iff.mp hs
          exact .writes hpolling rfl (List.cons_ne_nil b rest) hnext
  | flushing =>
      obtain ⟨state', hnext, rfl⟩ := Option.map_eq_some_iff.mp hs
      exact .flushes hpolling (Or.inl rfl) hnext
  | closing =>
      obtain ⟨state', hnext, rfl⟩ := Option.map_eq_some_iff.mp hs
      exact .flushes hpolling (Or.inr rfl) hnext
  | ended res =>
      obtain ⟨state', hnext, rfl⟩ := Option.map_eq_some_iff.mp hs
      exact .drops rfl hnext

/-- **The steps** are those and no others. -/
theorem encodeNext_moves (hs : encodeNext p ev = some q) : EncodeMoves p ev q := by
  cases ev with
  | poll cx =>
      by_cases hpolling : p.polling = true
      · simp [encodeNext, hpolling] at hs
      · have hs : (if p.polling = true then none else p.poll cx) = some q := hs
        rw [if_neg hpolling] at hs
        exact poll_moves (Bool.not_eq_true _ ▸ hpolling) hs
  | read =>
      rcases hpolling : p.polling with _ | _
      · simp [encodeNext, hpolling] at hs
      · cases hp : p.state.poller with
        | idle answer =>
            rcases answer with _ | answer
            · simp [encodeNext, hpolling, hp] at hs
            · simp only [encodeNext, hpolling, hp] at hs
              obtain ⟨stage, hread, rfl⟩ := Option.map_eq_some_iff.mp hs
              exact .reads hpolling hp hread
        | _ => simp [encodeNext, hpolling, hp] at hs
  | poller =>
      obtain ⟨state, hnext, rfl⟩ := Option.map_eq_some_iff.mp hs
      exact .calls hnext
  | bg answer =>
      obtain ⟨state, hnext, rfl⟩ := Option.map_eq_some_iff.mp hs
      exact .thread hnext

/-- What `encode` makes of an answer. -/
theorem read_cases {stage stage' : EncodeStage B E F} {answer : PollAnswer E}
    (h : stage.read answer = some stage') :
    (∃ rest n, stage = .writing rest ∧ answer = .wrote n ∧
      stage' = if n = 0 then .ended (.error .writeZero) else .writing (rest.drop n)) ∨
    ((stage = .flushing ∨ stage = .closing) ∧ answer = .pending ∧ stage' = stage) ∨
    (stage = .flushing ∧ answer = .flushed ∧ stage' = .closing) ∨
    (stage = .closing ∧ answer = .flushed ∧ stage' = .ended (.ok ())) ∨
    ∃ e, answer = .failed e ∧ stage' = .ended (.error (.writer e)) := by
  cases stage with
  | writing rest =>
      cases answer with
      | wrote n =>
          refine Or.inl ⟨rest, n, rfl, rfl, ?_⟩
          by_cases hn : n = 0
          · simp only [EncodeStage.read, if_pos hn, Option.some.injEq] at h
            rw [if_pos hn, h]
          · simp only [EncodeStage.read, if_neg hn, Option.some.injEq] at h
            rw [if_neg hn, h]
      | failed e => exact Or.inr (Or.inr (Or.inr (Or.inr ⟨e, rfl, (Option.some.inj h).symm⟩)))
      | flushed | pending => cases h
  | flushing =>
      cases answer with
      | pending => exact Or.inr (Or.inl ⟨Or.inl rfl, rfl, (Option.some.inj h).symm⟩)
      | flushed => exact Or.inr (Or.inr (Or.inl ⟨rfl, rfl, (Option.some.inj h).symm⟩))
      | failed e => exact Or.inr (Or.inr (Or.inr (Or.inr ⟨e, rfl, (Option.some.inj h).symm⟩)))
      | wrote n => cases h
  | closing =>
      cases answer with
      | pending => exact Or.inr (Or.inl ⟨Or.inr rfl, rfl, (Option.some.inj h).symm⟩)
      | flushed => exact Or.inr (Or.inr (Or.inr (Or.inl ⟨rfl, rfl, (Option.some.inj h).symm⟩)))
      | failed e => exact Or.inr (Or.inr (Or.inr (Or.inr ⟨e, rfl, (Option.some.inj h).symm⟩)))
      | wrote n => cases h
  | ended res => cases answer <;> cases h

/-! ## Where errors come from -/

section Errors

variable {s t : State B E} {sev : Event B E} {e : E}

/-- **`s.Knows e`** — the error is on its way to the poller, or the poll has returned it. -/
def State.Knows (s : State B E) (e : E) : Prop :=
  (∃ data pos, s.bg = .reporting data pos e) ∨
    (∃ retry, s.bg = .sendingStatus (.error { error := e, retry })) ∨
    (∃ retry, .error { error := e, retry } ∈ s.statuses) ∨ s.poller = .idle (some (.failed e))

/-- A status in the channel was there or has been sent. -/
theorem mem_sendStatus {status r : Except (WriteError E) Unit} {bg : Bg B E}
    (h : r ∈ (s.sendStatus status bg).statuses) : r ∈ s.statuses ∨ r = status := by
  rw [State.sendStatus_eq] at h
  by_cases hrx : s.statusRx = true
  · rw [if_pos hrx] at h
    exact (List.mem_append.mp h).imp_right List.mem_singleton.mp
  · rw [if_neg hrx] at h
    exact Or.inl h

theorem sendStatus_knows {status : Except (WriteError E) Unit} {bg : Bg B E}
    (h : (s.sendStatus status bg).Knows e) (hrep : ∀ data pos, bg ≠ .reporting data pos e)
    (hsend : ∀ st, bg ≠ .sendingStatus st) :
    s.Knows e ∨ ∃ retry, status = .error { error := e, retry } := by
  rcases h with ⟨data, pos, hb⟩ | ⟨retry, hb⟩ | ⟨retry, hmem⟩ | hp
  · rw [State.sendStatus_eq] at hb
    exact absurd hb (hrep data pos)
  · rw [State.sendStatus_eq] at hb
    exact absurd hb (hsend _)
  · rcases mem_sendStatus hmem with hmem | rfl
    · exact Or.inl (Or.inr (Or.inr (Or.inl ⟨retry, hmem⟩)))
    · exact Or.inr ⟨retry, rfl⟩
  · rw [State.sendStatus_eq] at hp
    exact Or.inl (Or.inr (Or.inr (Or.inr hp)))

/-- A step of the thread learns of an error only from the inner writer. -/
theorem bg_knows {answer : InnerAnswer E} (hs : bgNext s answer = some t) (h : t.Knows e) :
    s.Knows e ∨ answer = .failed e := by
  have hkept : t.statuses = s.statuses → t.poller = s.poller →
      (∀ data pos, t.bg ≠ .reporting data pos e) → (∀ st, t.bg ≠ .sendingStatus (.error st)) →
      s.Knows e := by
    intro hst hp hrep hsend
    rcases h with ⟨data, pos, hb⟩ | ⟨retry, hb⟩ | ⟨retry, hmem⟩ | hfailed
    · exact absurd hb (hrep data pos)
    · exact absurd hb (hsend _)
    · exact Or.inr (Or.inr (Or.inl ⟨retry, hst ▸ hmem⟩))
    · exact Or.inr (Or.inr (Or.inr (hp ▸ hfailed)))
  cases bgNext_moves hs with
  | @received cmd =>
      cases cmd with
      | write data => exact Or.inl (hkept rfl rfl nofun nofun)
      | flush => exact Or.inl (hkept rfl rfl nofun nofun)
  | disconnected | wrote | unheard | abandoned | resumed | flushed | waking =>
      exact Or.inl (hkept rfl rfl nofun nofun)
  | interrupted | wokenUp => exact Or.inl h
  | @writeFailed data pos error hb =>
      rcases h with ⟨data', pos', hb'⟩ | ⟨retry, hb'⟩ | hrest
      · cases hb'
        exact Or.inr rfl
      · cases hb'
      · exact Or.inl (Or.inr (Or.inr hrest))
  | @flushFailed error hb =>
      rcases h with ⟨data', pos', hb'⟩ | ⟨retry, hb'⟩ | hrest
      · cases hb'
      · cases hb'
        exact Or.inr rfl
      · exact Or.inl (Or.inr (Or.inr hrest))
  | written hb =>
      rcases sendStatus_knows h nofun nofun with h | ⟨retry, hok⟩
      · exact Or.inl h
      · cases hok
  | @reported data pos error hb =>
      rcases sendStatus_knows h nofun nofun with h | ⟨retry, herr⟩
      · exact Or.inl h
      · cases herr
        exact Or.inl (Or.inl ⟨data, pos, hb⟩)
  | @answered status hb =>
      rcases sendStatus_knows h nofun nofun with h | ⟨retry, rfl⟩
      · exact Or.inl h
      · exact Or.inl (Or.inr (Or.inl ⟨retry, hb⟩))

/-- A step of a call learns of no error. -/
theorem poller_knows (hs : pollerNext s = some t) (h : t.Knows e) : s.Knows e := by
  have hkept : t.bg = s.bg → (∀ r ∈ t.statuses, r ∈ s.statuses) →
      (t.poller = .idle (some (.failed e)) → s.Knows e) → s.Knows e := by
    intro hb hst hp
    rcases h with ⟨data, pos, hb'⟩ | ⟨retry, hb'⟩ | ⟨retry, hmem⟩ | hfailed
    · exact Or.inl ⟨data, pos, hb ▸ hb'⟩
    · exact Or.inr (Or.inl ⟨retry, hb ▸ hb'⟩)
    · exact Or.inr (Or.inr (Or.inl ⟨retry, hst _ hmem⟩))
    · exact hp hfailed
  cases pollerNext_moves hs with
  | @failed we statuses hd hst =>
      refine hkept rfl (fun r hr => ?_) (fun hp => ?_)
      · rw [hst]
        exact List.mem_cons_of_mem _ hr
      · cases hp
        refine Or.inr (Or.inr (Or.inl ⟨we.retry, ?_⟩))
        rw [hst]
        exact List.mem_cons_self
  | @counted statuses hd hst =>
      refine hkept rfl (fun r hr => ?_) (fun hp => ?_)
      · rw [hst]
        exact List.mem_cons_of_mem _ hr
      · exact Or.inr (Or.inr (Or.inr hp))
  | @sent cmd poller hsends =>
      refine hkept rfl (fun r hr => hr) (fun hp => ?_)
      generalize s.poller = p at hsends
      cases hsends with
      | write | flush => cases hp
  | retrying | miscounted | taken | buffered | unsent | starting | goingOn | waiting | flushed | stored
  | dropping | closing => exact hkept rfl (fun r hr => hr) nofun

/-- **An error was the inner writer's answer.** -/
theorem next_knows (hs : next s sev = some t) (h : t.Knows e) : s.Knows e ∨ sev = .bg (.failed e) := by
  have hcalled : ∀ poller retry retryToggle, t = { s with poller, retry, retryToggle } →
      poller ≠ .idle (some (.failed e)) → s.Knows e := by
    rintro poller retry retryToggle rfl hne
    rcases h with hb | hb | hmem | hp
    · exact Or.inl hb
    · exact Or.inr (Or.inl hb)
    · exact Or.inr (Or.inr (Or.inl hmem))
    · exact absurd hp hne
  cases sev with
  | bg answer =>
      rcases bg_knows hs h with h | rfl
      · exact Or.inl h
      · exact Or.inr rfl
  | poller => exact Or.inl (poller_knows hs h)
  | pollWrite buf =>
      obtain ⟨-, rfl | rfl⟩ := pollWrite_inv hs
      · exact Or.inl (hcalled _ _ _ rfl nofun)
      · exact Or.inl (hcalled _ _ _ rfl nofun)
  | pollFlush cx =>
      obtain ⟨-, rfl⟩ := pollFlush_inv hs
      exact Or.inl (hcalled _ _ _ rfl nofun)
  | drop =>
      obtain ⟨-, rfl⟩ := drop_inv hs
      exact Or.inl (hcalled _ _ _ rfl nofun)

end Errors

/-! ## Behind a failure of the inner writer -/

section Failures

variable {s t : State B E}

/-- **`Tainted s`** — an error is on its way to the poll, which counts more commands than there are statuses
before it; or the poll has returned it, or panicked. -/
inductive Tainted (s : State B E) : Prop
  | reporting {data : List B} {pos : Nat} {e : E} : s.bg = .reporting data pos e →
      s.statuses.length < s.numCmdsPending → Tainted s
  | flushFailed {e : WriteError E} : s.bg = .sendingStatus (.error e) →
      s.statuses.length < s.numCmdsPending → Tainted s
  | queued {e : WriteError E} : .error e ∈ s.statuses → Tainted s
  | answered {e : E} : s.poller = .idle (some (.failed e)) → Tainted s
  | panicked : s.poller = .panicked → Tainted s

/-- The thread only adds to the statuses. -/
theorem bg_statuses {answer : InnerAnswer E} (hs : bgNext s answer = some t)
    {r : Except (WriteError E) Unit} (hr : r ∈ s.statuses) : r ∈ t.statuses := by
  have hsend : ∀ status bg, r ∈ (s.sendStatus status bg).statuses := by
    intro status bg
    rw [State.sendStatus_eq]
    show r ∈ if s.statusRx then s.statuses ++ [status] else s.statuses
    split
    · exact List.mem_append_left _ hr
    · exact hr
  cases bgNext_moves hs with
  | written | reported | answered => exact hsend _ _
  | _ => exact hr

/-- What the thread does while the poll listens. -/
theorem Tainted.bg {answer : InnerAnswer E} (h : Tainted s) (hrx : s.statusRx = true)
    (hs : bgNext s answer = some t) : Tainted t := by
  have hsent : ∀ e bg, Tainted (s.sendStatus (.error e) bg) := by
    intro e bg
    refine .queued (e := e) ?_
    rw [State.sendStatus_eq]
    show .error e ∈ if s.statusRx then s.statuses ++ [.error e] else s.statuses
    rw [if_pos hrx]
    exact List.mem_append_right _ List.mem_cons_self
  cases h with
  | reporting hb hlt =>
      cases bgNext_thread hs with
      | looped hloop =>
          cases hloop with
          | reported hb' => exact hsent _ _
          | unheard hb' hdeaf =>
              rw [hrx] at hdeaf
              cases hdeaf
          | accepted hb' | empty hb' | interrupted hb' | failed hb' | sent hb' | returned hb' | retried hb'
          | woken hb' =>
              rw [hb] at hb'
              cases hb'
      | received hb' | ended hb' | flushed hb' | flushFailed hb' | answered hb' | woke hb' =>
          rw [hb] at hb'
          cases hb'
  | flushFailed hb hlt =>
      cases bgNext_thread hs with
      | answered hb' =>
          rw [hb] at hb'
          cases hb'
          exact hsent _ _
      | looped hloop =>
          cases hloop with
          | reported hb' | unheard hb' | accepted hb' | empty hb' | interrupted hb' | failed hb' | sent hb'
          | returned hb' | retried hb' | woken hb' =>
              rw [hb] at hb'
              cases hb'
      | received hb' | ended hb' | flushed hb' | flushFailed hb' | woke hb' =>
          rw [hb] at hb'
          cases hb'
  | queued hmem => exact .queued (bg_statuses hs hmem)
  | answered hp => exact .answered ((bgNext_frame hs).1.trans hp)
  | panicked hp => exact .panicked ((bgNext_frame hs).1.trans hp)

/-- What the poll does.  It does not come to the end of a flush. -/
theorem Tainted.poller (h : Tainted s) (hs : pollerNext s = some t) :
    Tainted t ∧ t.poller ≠ .idle (some .flushed) := by
  have hidle : ∀ answer, s.poller ≠ .idle answer := by
    intro answer hp
    simp [pollerNext, hp] at hs
  by_cases hd : s.poller.draining = true
  · rcases draining_cases hd hs with ⟨e, statuses, hst, rfl⟩ | ⟨statuses, hst, hz, rfl⟩ |
      ⟨statuses, hst, hz, rfl⟩ | ⟨hst, hrest⟩
    · exact ⟨.answered rfl, by simp⟩
    · exact ⟨.panicked rfl, by simp⟩
    · refine ⟨?_, hidle _⟩
      cases h with
      | reporting hb hlt =>
          refine .reporting hb ?_
          rw [hst, List.length_cons] at hlt
          show statuses.length < s.numCmdsPending - 1
          omega
      | flushFailed hb hlt =>
          refine .flushFailed hb ?_
          rw [hst, List.length_cons] at hlt
          show statuses.length < s.numCmdsPending - 1
          omega
      | @queued e hmem =>
          rw [hst] at hmem
          rcases List.mem_cons.mp hmem with hok | hmem
          · cases hok
          · exact .queued hmem
      | answered hp | panicked hp => rw [hp] at hd; cases hd
    · -- with no status left the error is still with the thread, and its command pending
      have hpending : 0 < s.numCmdsPending ∧ ∀ u : State B E, u.bg = s.bg → u.statuses = s.statuses →
          u.numCmdsPending = s.numCmdsPending → Tainted u := by
        cases h with
        | reporting hb hlt =>
            rw [hst] at hlt
            refine ⟨hlt, fun u hbg hust hn => .reporting (hbg.trans hb) ?_⟩
            rw [hust, hst, hn]
            exact hlt
        | flushFailed hb hlt =>
            rw [hst] at hlt
            refine ⟨hlt, fun u hbg hust hn => .flushFailed (hbg.trans hb) ?_⟩
            rw [hust, hst, hn]
            exact hlt
        | queued hmem =>
            rw [hst] at hmem
            cases hmem
        | answered hp | panicked hp => rw [hp] at hd; cases hd
      rcases hrest with ⟨buf, hp, rfl⟩ | ⟨cx, hp, hpos, rfl⟩ | ⟨cx, hp, hz, rfl⟩
      · unfold State.buffer
        split
        · exact ⟨hpending.2 _ rfl rfl rfl, by simp⟩
        · exact ⟨hpending.2 _ rfl rfl rfl, by simp⟩
      · exact ⟨hpending.2 _ rfl rfl rfl, by simp⟩
      · rw [hz] at hpending
        exact absurd hpending.1 (Nat.lt_irrefl 0)
  · have hkept : t.bg = s.bg → t.statuses = s.statuses → s.numCmdsPending ≤ t.numCmdsPending →
        Tainted t := by
      intro hbg hst hn
      cases h with
      | reporting hb hlt =>
          refine .reporting (hbg.trans hb) ?_
          rw [hst]
          omega
      | flushFailed hb hlt =>
          refine .flushFailed (hbg.trans hb) ?_
          rw [hst]
          omega
      | queued hmem => exact .queued (hst ▸ hmem)
      | answered hp => exact absurd hp (hidle _)
      | panicked hp => simp [pollerNext, hp] at hs
    cases pollerNext_moves hs with
    | failed hd' | miscounted hd' | counted hd' => exact absurd hd' hd
    | taken hp | buffered hp | waiting hp | flushed hp =>
        rw [hp] at hd
        exact absurd rfl hd
    | @sent cmd poller hsends =>
        refine ⟨hkept rfl rfl (Nat.le_succ _), ?_⟩
        generalize s.poller = p at hsends
        cases hsends with
        | write | flush => simp
    | unsent => exact ⟨.panicked rfl, by simp⟩
    | retrying | starting | goingOn | stored | dropping | closing =>
        exact ⟨hkept rfl rfl (Nat.le_refl _), by simp⟩

end Failures

/-! ## Without a failure -/

/-- The bytes that a written value leaves in the buffer. -/
def kept (bufferMinSize : Nat) (encoded : List B) : List B :=
  if bufferMinSize ≤ encoded.length ∨ encoded = [] then [] else encoded

/-- The poll is a `poll_flush` behind the sending, if it sends. -/
def Poller.behindFlush : Poller B E → Bool
  | .drainingForFlush _ => true
  | .storingWaker _ => true
  | .idle (some .flushed) => true
  | .idle (some .pending) => true
  | _ => false

/-- `encode` has sent a `Flush`: the writer has a waker for it, or its poll is behind the sending. -/
def Encoding.flushSent (p : Encoding B E F) : Prop :=
  p.state.flushWaker ≠ none ∨ p.stage = .closing ∨ p.state.poller.behindFlush = true

/-- **`Reached min encoded p handed`** — how far `encode` has come, with the bytes handed to the writer. -/
inductive Reached (bufferMinSize : Nat) (encoded : List B) (p : Encoding B E F) : List B → Prop
  | fresh : p.stage = .writing encoded → p.state.poller = .idle none → p.state.writeBuffer = [] →
      p.state.flushWaker = none → Reached bufferMinSize encoded p []
  | draining : p.stage = .writing encoded → p.polling = true → encoded ≠ [] →
      p.state.poller = .drainingForWrite encoded → p.state.writeBuffer = [] →
      p.state.flushWaker = none → Reached bufferMinSize encoded p encoded
  | sending : p.stage = .writing encoded → p.polling = true → encoded ≠ [] →
      p.state.poller = .sendingWrite encoded encoded.length →
      p.state.writeBuffer = kept bufferMinSize encoded →
      p.state.flushWaker = none → Reached bufferMinSize encoded p encoded
  | wrote : p.stage = .writing encoded → p.polling = true → encoded ≠ [] →
      p.state.poller = .idle (some (.wrote encoded.length)) →
      p.state.writeBuffer = kept bufferMinSize encoded →
      p.state.flushWaker = none → Reached bufferMinSize encoded p encoded
  | written {answer : Option (PollAnswer E)} : p.stage = .writing [] ∨ p.stage = .flushing →
      p.polling = false → p.state.poller = .idle answer → p.state.poller.behindFlush = false →
      p.state.writeBuffer = kept bufferMinSize encoded →
      p.state.flushWaker = none → Reached bufferMinSize encoded p encoded
  | flushing : p.stage = .flushing ∨ p.stage = .closing → p.state.poller.inFlush = true →
      p.state.writeBuffer = kept bufferMinSize encoded → Reached bufferMinSize encoded p encoded

/-- The thread has written what it was given. -/
def Bg.hasWritten : Bg B E → Bool
  | .recv => true
  | .sendingStatus _ => true
  | .waking => true
  | .returned => true
  | _ => false

/-- **`FlushLast s n`** — the last command sent is a `Flush`: it is in the queue, or in work, or done, and
nothing was written after it. -/
def FlushLast (s : State B E) (n : Seen E) : Prop :=
  s.cmds.getLast? = some .flush ∨
    s.cmds = [] ∧ (s.bg = .flushing ∨ s.bg.hasWritten = true ∧ n.flushedAt = some s.writer.length)

/-- **`Clean min encoded (p, n)`** — no failure so far. -/
structure Clean (bufferMinSize : Nat) (encoded : List B) (p : Encoding B E F × Seen E) : Prop where
  reached : ∃ past, Conserves past p.1.state ∧ Reached bufferMinSize encoded p.1 (accepted past)
  retry : p.1.state.retry = false
  size : p.1.state.bufferMinSize = bufferMinSize
  settled : p.1.state.poller = .idle (some .flushed) → p.1.state.numCmdsPending = 0
  flushed : p.1.flushSent → FlushLast p.1.state p.2

/-- **`Finished min encoded (p, n)`** — `encode` has returned `Ok`; nothing more is written. -/
structure Finished (bufferMinSize : Nat) (encoded : List B) (p : Encoding B E F × Seen E) : Prop where
  stage : p.1.stage = .ended (.ok ())
  writer : p.1.state.writer = if bufferMinSize ≤ encoded.length ∨ encoded = [] then encoded else []
  cmds : p.1.state.cmds = []
  bg : p.1.state.bg.hasWritten = true
  flushedAt : p.2.flushedAt = some p.1.state.writer.length
  poller : (∃ answer, p.1.state.poller = .idle answer) ∨ p.1.state.poller.gone = true

section Steps

variable {bufferMinSize : Nat} {encoded : List B} {n : Seen E}

theorem clean_new (bufferMinSize : Nat) (encoded : List B) :
    Clean bufferMinSize encoded
      ((.new bufferMinSize (some (.ok encoded)) : Encoding B E F), (⟨none, []⟩ : Seen E)) where
  reached := ⟨[], conserves_new bufferMinSize, .fresh rfl rfl rfl rfl⟩
  retry := rfl
  size := rfl
  settled := nofun
  flushed h := by
    rcases h with h | h | h
    · exact absurd rfl h
    · cases h
    · cases h

/-- A step of a poll, as far as `encode` is concerned. -/
theorem Reached.call {past : List (Event B E)} {handed : List B} {state : State B E}
    (h : Reached bufferMinSize encoded p handed) (hcons : Conserves past p.state)
    (hsize : p.state.bufferMinSize = bufferMinSize) (hs : pollerNext p.state = some state) :
    Reached bufferMinSize encoded { p with state } handed := by
  cases h with
  | fresh _ hp | wrote _ _ _ hp | written _ _ hp => simp [pollerNext, hp] at hs
  | draining hstage hpolling hne hp hbuf hwaker =>
      have hd : p.state.poller.draining = true := by rw [hp]; rfl
      rcases draining_cases hd hs with ⟨e, statuses, hst, -⟩ | ⟨statuses, hst, hz, -⟩ |
        ⟨statuses, -, -, rfl⟩ | ⟨-, hrest⟩
      · cases hcons.all_ok _ (by rw [hst]; exact List.mem_cons_self)
      · have hpending := hcons.some_pending hst
        omega
      · exact .draining hstage hpolling hne hp hbuf hwaker
      · rcases hrest with ⟨buf, hp', rfl⟩ | ⟨cx, hp', -⟩ | ⟨cx, hp', -⟩
        · obtain rfl : encoded = buf := by
            rw [hp] at hp'
            cases hp'
            rfl
          unfold State.buffer
          rw [hbuf, List.nil_append, hsize]
          by_cases hmin : bufferMinSize ≤ encoded.length
          · rw [if_pos hmin]
            exact .sending hstage hpolling hne rfl (if_pos (Or.inl hmin)).symm hwaker
          · rw [if_neg hmin]
            refine .wrote hstage hpolling hne rfl (if_neg ?_).symm hwaker
            rintro (hle | hnil)
            · exact hmin hle
            · exact hne hnil
        · rw [hp] at hp'
          cases hp'
        · rw [hp] at hp'
          cases hp'
  | sending hstage hpolling hne hp hbuf hwaker =>
      simp only [pollerNext, hp, Option.some.injEq] at hs
      have hhealthy := hcons.healthy
      subst hs
      unfold State.sendCmd
      split
      next hb =>
        rw [hb] at hhealthy
        exact hhealthy.elim
      next hb =>
        rw [hb] at hhealthy
        exact hhealthy.elim
      next => exact .wrote hstage hpolling hne rfl hbuf hwaker
  | flushing hstage hin hbuf =>
      have hs : next p.state .poller = some state := hs
      obtain ⟨hin', hbuf'⟩ := inFlush_step hin rfl hs
      exact .flushing hstage hin' (hbuf'.trans hbuf)

/-- A step of the thread, as far as `encode` is concerned. -/
theorem Reached.thread {handed : List B} {state : State B E} {answer : InnerAnswer E}
    (h : Reached bufferMinSize encoded p handed) (hs : bgNext p.state answer = some state) :
    Reached bufferMinSize encoded { p with state } handed := by
  obtain ⟨hpoller, hbuf, -⟩ := bgNext_frame hs
  have hwaker : state.flushWaker = p.state.flushWaker := by
    cases bgNext_moves hs with
    | written | reported | answered =>
        rw [State.sendStatus_eq]
    | _ => rfl
  cases h with
  | fresh h1 h2 h3 h4 => exact .fresh h1 (hpoller.trans h2) (hbuf.trans h3) (hwaker.trans h4)
  | draining h1 h2 h3 h4 h5 h6 =>
      exact .draining h1 h2 h3 (hpoller.trans h4) (hbuf.trans h5) (hwaker.trans h6)
  | sending h1 h2 h3 h4 h5 h6 =>
      exact .sending h1 h2 h3 (hpoller.trans h4) (hbuf.trans h5) (hwaker.trans h6)
  | wrote h1 h2 h3 h4 h5 h6 =>
      exact .wrote h1 h2 h3 (hpoller.trans h4) (hbuf.trans h5) (hwaker.trans h6)
  | written h1 h2 h3 h4 h5 h6 =>
      exact .written h1 h2 (hpoller.trans h3) (hpoller ▸ h4) (hbuf.trans h5) (hwaker.trans h6)
  | flushing h1 h2 h3 =>
      refine .flushing h1 ?_ (hbuf.trans h3)
      rw [show ({ p with state } : Encoding B E F).state.poller = p.state.poller from hpoller]
      exact h2

/-- The thread leaves the queue alone, or takes its head. -/
theorem thread_cmds {s t : State B E} {answer : InnerAnswer E} (hs : bgNext s answer = some t) :
    t.cmds = s.cmds ∨ ∃ cmd, s.cmds = cmd :: t.cmds ∧ t.bg = cmd.work := by
  cases bgNext_moves hs with
  | @received cmd cmds hb hc => exact Or.inr ⟨cmd, hc, rfl⟩
  | written | reported | answered =>
      rw [State.sendStatus_eq]
      exact Or.inl rfl
  | _ => exact Or.inl rfl

/-- Behind its last write the thread writes no more, as long as there is nothing in the queue. -/
theorem hasWritten_thread {s t : State B E} {answer : InnerAnswer E} (hc : s.cmds = [])
    (hb : s.bg.hasWritten = true) (hs : bgNext s answer = some t) :
    answer = .silent ∧ t.cmds = [] ∧ t.bg.hasWritten = true ∧ t.writer = s.writer := by
  have hnot : ∀ {bg : Bg B E}, s.bg = bg → bg.hasWritten = true := fun h => h ▸ hb
  cases bgNext_thread hs with
  | looped hloop =>
      cases hloop with
      | accepted hb' | empty hb' | interrupted hb' | failed hb' | sent hb' | reported hb' | unheard hb'
      | returned hb' | retried hb' | woken hb' => cases hnot hb'
  | received hb' hc' =>
      rw [hc] at hc'
      cases hc'
  | ended => exact ⟨rfl, hc, rfl, rfl⟩
  | flushed hb' | flushFailed hb' => cases hnot hb'
  | answered =>
      rw [State.sendStatus_eq]
      exact ⟨rfl, hc, rfl, rfl⟩
  | woke => exact ⟨rfl, hc, rfl, rfl⟩

/-- A step of the thread that is no failure keeps a `Flush` last. -/
theorem FlushLast.thread {t : State B E} {answer : InnerAnswer E} (h : FlushLast p.state n)
    (hok : (Event.bg answer : Event B E).fails = false) (hs : bgNext p.state answer = some t) :
    FlushLast t (noteWriter p (.bg answer) q n) := by
  rcases h with hlast | ⟨hc, hb | ⟨hb, hflushed⟩⟩
  · rcases thread_cmds hs with hc | ⟨cmd, hc, hb⟩
    · exact Or.inl (hc ▸ hlast)
    · rw [hc] at hlast
      rcases hrest : t.cmds with _ | ⟨cmd', rest⟩
      · -- the last command was the head of the queue, and is in work now
        rw [hrest] at hlast
        obtain rfl : cmd = .flush := by simpa using hlast
        exact Or.inr ⟨hrest, Or.inl hb⟩
      · rw [hrest, List.getLast?_cons_cons] at hlast
        exact Or.inl (hrest ▸ hlast)
  · cases bgNext_thread hs with
    | flushed hb' => exact Or.inr ⟨hc, Or.inr ⟨rfl, rfl⟩⟩
    | flushFailed hb' => cases hok
    | looped hloop =>
        cases hloop with
        | accepted hb' | empty hb' | interrupted hb' | failed hb' | sent hb' | reported hb' | unheard hb'
        | returned hb' | retried hb' | woken hb' =>
            rw [hb] at hb'
            cases hb'
    | received hb' | ended hb' | answered hb' | woke hb' =>
        rw [hb] at hb'
        cases hb'
  · obtain ⟨rfl, hc', hb', hwriter⟩ := hasWritten_thread hc hb hs
    refine Or.inr ⟨hc', Or.inr ⟨hb', ?_⟩⟩
    rw [hwriter]
    exact hflushed

/-! ## The step lemmas -/

/-- In `write_all` no `Flush` has been sent. -/
theorem Reached.unsent {handed rest : List B} (h : Reached bufferMinSize encoded p handed)
    (hstage : p.stage = .writing rest) : ¬p.flushSent := by
  have hnone : p.state.flushWaker = none → p.state.poller.behindFlush = false → ¬p.flushSent := by
    rintro hwaker hbehind (h | h | h)
    · exact h hwaker
    · rw [hstage] at h
      cases h
    · rw [hbehind] at h
      cases h
  cases h with
  | fresh _ hp _ hw => exact hnone hw (by rw [hp]; rfl)
  | draining _ _ _ hp _ hw => exact hnone hw (by rw [hp]; rfl)
  | sending _ _ _ hp _ hw => exact hnone hw (by rw [hp]; rfl)
  | wrote _ _ _ hp _ hw => exact hnone hw (by rw [hp]; rfl)
  | written _ _ _ hbehind _ hw => exact hnone hw hbehind
  | flushing hstage' =>
      rcases hstage' with h | h <;> rw [hstage] at h <;> cases h

/-- What a poll of `flush` or `close` does to the last command. -/
theorem flushing_call {state : State B E} (hin : p.state.poller.inFlush = true)
    (hs : pollerNext p.state = some state) :
    state.cmds.getLast? = some .flush ∨
      (({ p with state } : Encoding B E F).flushSent → p.flushSent) ∧ state.cmds = p.state.cmds ∧
        state.bg = p.state.bg ∧ state.writer = p.state.writer := by
  -- where the poll now stands says nothing new: what was sent, was sent before
  have hold : state.poller.behindFlush = false → state.flushWaker = p.state.flushWaker →
      ({ p with state } : Encoding B E F).flushSent → p.flushSent := by
    rintro hbehind hwaker (h | h | h)
    · exact Or.inl (hwaker ▸ h)
    · exact Or.inr (Or.inl h)
    · exact absurd (hbehind.symm.trans h) (by decide)
  cases pollerNext_moves hs with
  | @sent cmd poller hsends =>
      left
      generalize p.state.poller = from_ at hin hsends
      cases hsends with
      | write data n => cases hin
      | flush cx =>
          rw [List.getLast?_append]
          rfl
  | @counted statuses hd hst => exact Or.inr ⟨id, rfl, rfl, rfl⟩
  | failed | miscounted | unsent | starting =>
      exact Or.inr ⟨hold rfl rfl, rfl, rfl, rfl⟩
  | goingOn hp hw => exact Or.inr ⟨fun _ => Or.inl hw, rfl, rfl, rfl⟩
  | waiting hp | flushed hp | stored hp =>
      refine Or.inr ⟨fun _ => Or.inr (Or.inr ?_), rfl, rfl, rfl⟩
      rw [hp]
      rfl
  | retrying hp | taken hp | buffered hp | dropping hp | closing hp =>
      rw [hp] at hin
      cases hin

/-- A step of a poll keeps everything clean. -/
theorem Clean.call {state : State B E} (h : Clean bufferMinSize encoded (p, n))
    (hs : pollerNext p.state = some state) : Clean bufferMinSize encoded ({ p with state }, n) := by
  obtain ⟨past, hcons, hreached⟩ := h.reached
  have hreached : Reached bufferMinSize encoded p (accepted past) := hreached
  have hcons : Conserves past p.state := hcons
  have hreached' := hreached.call hcons h.size hs
  have hstep : next p.state .poller = some state := hs
  refine ⟨⟨past, hcons.poller hs, hreached'⟩, ?_, ?_, flushed_step h.settled hstep, ?_⟩
  · cases pollerNext_moves hs with
    | failed hd hst => cases hcons.all_ok _ (by rw [hst]; exact List.mem_cons_self)
    | _ => exact h.retry
  · cases pollerNext_moves hs with
    | _ => exact h.size
  · intro hsent
    generalize accepted past = handed at hreached hreached'
    cases hreached with
    | fresh _ hp | wrote _ _ _ hp | written _ _ hp => simp [pollerNext, hp] at hs
    | draining hstage => exact absurd hsent (hreached'.unsent hstage)
    | sending hstage => exact absurd hsent (hreached'.unsent hstage)
    | flushing hstage hin hbuf =>
        rcases flushing_call hin hs with hlast | ⟨hback, hcmds, hbg, hwriter⟩
        · exact Or.inl hlast
        · have hlast : FlushLast p.state n := h.flushed (hback hsent)
          unfold FlushLast at hlast ⊢
          rw [hcmds, hbg, hwriter]
          exact hlast

/-- A step of the thread that is no failure keeps everything clean. -/
theorem Clean.thread {state : State B E} {answer : InnerAnswer E}
    (h : Clean bufferMinSize encoded (p, n)) (hok : (Event.bg answer : Event B E).fails = false)
    (hs : bgNext p.state answer = some state) :
    Clean bufferMinSize encoded ({ p with state }, noteWriter p (.bg answer) { p with state } n) := by
  obtain ⟨past, hcons, hreached⟩ := h.reached
  have hcons : Conserves past p.state := hcons
  have hreached : Reached bufferMinSize encoded p (accepted past) := hreached
  obtain ⟨hpoller, -, hpending⟩ := bgNext_frame hs
  have hframe : state.retry = p.state.retry ∧ state.bufferMinSize = p.state.bufferMinSize ∧
      state.flushWaker = p.state.flushWaker := by
    cases bgNext_moves hs with
    | written | reported | answered =>
        rw [State.sendStatus_eq]
        exact ⟨rfl, rfl, rfl⟩
    | _ => exact ⟨rfl, rfl, rfl⟩
  refine ⟨⟨past, hcons.bg hok hs, hreached.thread hs⟩, hframe.1.trans h.retry, hframe.2.1.trans h.size, ?_,
    ?_⟩
  · intro hflushed
    exact hpending.trans (h.settled (hpoller.symm.trans hflushed))
  · intro hsent
    refine FlushLast.thread (q := { p with state }) (h.flushed ?_) hok hs
    unfold Encoding.flushSent at hsent ⊢
    rw [show ({ p with state } : Encoding B E F).state.flushWaker = p.state.flushWaker from hframe.2.2,
      show ({ p with state } : Encoding B E F).state.poller = p.state.poller from hpoller] at hsent
    exact hsent

/-- A failure of the inner writer taints what was clean. -/
theorem Clean.fails {state : State B E} {answer : InnerAnswer E}
    (h : Clean bufferMinSize encoded (p, n)) (hfails : (Event.bg answer : Event B E).fails = true)
    (hs : bgNext p.state answer = some state) :
    Tainted state ∧ state.poller ≠ .idle (some .flushed) := by
  obtain ⟨past, hcons, -⟩ := h.reached
  have hcons : Conserves past p.state := hcons
  have hpending := hcons.pending
  -- the command in work is still counted
  have hbehind : p.state.bg.busy = 1 → p.state.statuses.length < p.state.numCmdsPending ∧
      p.state.poller ≠ .idle (some .flushed) := by
    intro hbusy
    refine ⟨by omega, ?_⟩
    intro hflushed
    have hnone : p.state.numCmdsPending = 0 := h.settled hflushed
    omega
  cases bgNext_moves hs with
  | writeFailed hb =>
      obtain ⟨hlt, hne⟩ := hbehind (by rw [hb]; rfl)
      exact ⟨.reporting rfl hlt, hne⟩
  | flushFailed hb =>
      obtain ⟨hlt, hne⟩ := hbehind (by rw [hb]; rfl)
      exact ⟨.flushFailed rfl hlt, hne⟩
  | _ => cases hfails

/-- The stages of an `encode` that has not ended. -/
theorem Reached.live {handed : List B} (h : Reached bufferMinSize encoded p handed)
    (res : Except (EncodeError E F) Unit) : p.stage ≠ .ended res := by
  intro hended
  cases h with
  | fresh hstage | draining hstage | sending hstage | wrote hstage =>
      rw [hended] at hstage
      cases hstage
  | written hstage | flushing hstage =>
      rw [hended] at hstage
      rcases hstage with hstage | hstage <;> cases hstage

/-- With everything written, `encode` goes on to `flush`. -/
theorem Clean.written (h : Clean bufferMinSize encoded (p, n)) (hpolling : p.polling = false)
    (hstage : p.stage = .writing []) :
    Clean bufferMinSize encoded (({ p with stage := .flushing } : Encoding B E F), n) := by
  obtain ⟨past, hcons, hreached⟩ := h.reached
  have hreached : Reached bufferMinSize encoded p (accepted past) := hreached
  have hunsent := hreached.unsent hstage
  have hnext : Reached bufferMinSize encoded ({ p with stage := .flushing } : Encoding B E F)
      (accepted past) := by
    generalize accepted past = handed at hreached
    cases hreached with
    | fresh hstage' hp hbuf hwaker =>
        obtain rfl : encoded = [] := by
          rw [hstage] at hstage'
          cases hstage'
          rfl
        exact .written (Or.inr rfl) hpolling hp (by rw [hp]; rfl) (hbuf.trans (if_pos (Or.inr rfl)).symm)
          hwaker
    | draining _ hpolling' | sending _ hpolling' | wrote _ hpolling' =>
        rw [hpolling] at hpolling'
        cases hpolling'
    | written _ _ hp hbehind hbuf hwaker => exact .written (Or.inr rfl) hpolling hp hbehind hbuf hwaker
    | flushing hstage' =>
        rcases hstage' with h | h <;> rw [hstage] at h <;> cases h
  refine ⟨⟨past, hcons, hnext⟩, h.retry, h.size, h.settled, ?_⟩
  rintro (hw | hclosing | hbehind)
  · exact absurd (Or.inl hw) hunsent
  · cases hclosing
  · exact absurd (Or.inr (Or.inr hbehind)) hunsent

/-- `write_all` begins its poll. -/
theorem Clean.writes {rest : List B} {state : State B E} (h : Clean bufferMinSize encoded (p, n))
    (hpolling : p.polling = false) (hstage : p.stage = .writing rest) (hne : rest ≠ [])
    (hnext : next p.state (.pollWrite rest) = some state) :
    Clean bufferMinSize encoded ({ p with state, polling := true }, n) := by
  obtain ⟨past, hcons, hreached⟩ := h.reached
  have hcons : Conserves past p.state := hcons
  have hreached : Reached bufferMinSize encoded p (accepted past) := hreached
  have hretry : p.state.retry = false := h.retry
  obtain ⟨rfl, hp, hbuf, hwaker, hhanded⟩ : rest = encoded ∧ p.state.poller = .idle none ∧
      p.state.writeBuffer = [] ∧ p.state.flushWaker = none ∧ accepted past = [] := by
    generalize accepted past = handed at hreached
    cases hreached with
    | fresh hstage' hp hbuf hwaker =>
        rw [hstage] at hstage'
        cases hstage'
        exact ⟨rfl, hp, hbuf, hwaker, rfl⟩
    | draining _ hpolling' | sending _ hpolling' | wrote _ hpolling' =>
        rw [hpolling] at hpolling'
        cases hpolling'
    | written hstage' =>
        rcases hstage' with h | h
        · rw [hstage] at h
          cases h
          exact absurd rfl hne
        · rw [hstage] at h
          cases h
    | flushing hstage' =>
        rcases hstage' with h | h <;> rw [hstage] at h <;> cases h
  obtain rfl : { p.state with retry := false, poller := .drainingForWrite rest } = state := by
    simp only [next, hp, hretry, Bool.false_eq_true, if_false, Option.some.injEq] at hnext
    rw [← hnext, ← hretry]
  have hcons' : Conserves (past ++ [.pollWrite rest])
      { p.state with retry := false, poller := .drainingForWrite rest } :=
    hcons.pollWrite hp rfl rfl ⟨by simp, rfl⟩
  have hreached' : Reached bufferMinSize rest
      { p with
        state := { p.state with retry := false, poller := .drainingForWrite rest }, polling := true }
      (accepted (past ++ [.pollWrite rest])) := by
    have haccepted : accepted (past ++ [.pollWrite rest]) = rest := by
      rw [accepted_append, hhanded]
      simp [accepted]
    rw [haccepted]
    exact .draining hstage rfl hne rfl hbuf hwaker
  exact ⟨⟨_, hcons', hreached'⟩, rfl, h.size, by simp, fun hsent => absurd hsent (hreached'.unsent hstage)⟩

/-- `flush` or `close` begins its poll. -/
theorem Clean.flushes {cx : Nat} {state : State B E} (h : Clean bufferMinSize encoded (p, n))
    (hstage : p.stage = .flushing ∨ p.stage = .closing)
    (hnext : next p.state (.pollFlush cx) = some state) :
    Clean bufferMinSize encoded ({ p with state, polling := true }, n) := by
  obtain ⟨past, hcons, hreached⟩ := h.reached
  have hcons : Conserves past p.state := hcons
  have hreached : Reached bufferMinSize encoded p (accepted past) := hreached
  obtain ⟨⟨answer, hp⟩, rfl⟩ := pollFlush_inv hnext
  have hcons' : Conserves past { p.state with poller := .checkingWaker cx } :=
    hcons.move (by rw [hp]; rfl) (by rw [hp]; rfl) ⟨nofun, rfl⟩
  have hreached' : Reached bufferMinSize encoded
      { p with state := { p.state with poller := .checkingWaker cx }, polling := true }
      (accepted past) := by
    generalize accepted past = handed at hreached
    cases hreached with
    | fresh hstage' | draining hstage' | sending hstage' | wrote hstage' =>
        rcases hstage with h | h <;> rw [hstage'] at h <;> cases h
    | written _ _ _ _ hbuf => exact .flushing hstage rfl hbuf
    | flushing _ _ hbuf => exact .flushing hstage rfl hbuf
  refine ⟨⟨past, hcons', hreached'⟩, h.retry, h.size, nofun, ?_⟩
  rintro (hw | hclosing | hbehind)
  · exact h.flushed (Or.inl hw)
  · exact h.flushed (Or.inr (Or.inl hclosing))
  · cases hbehind

/-- The end of `encode`: every command is done, and the last of them was a `Flush`. -/
theorem Clean.finished (h : Clean bufferMinSize encoded (p, n)) (hstage : p.stage = .closing)
    (hp : p.state.poller = .idle (some .flushed)) :
    Finished bufferMinSize encoded
      (({ p with stage := .ended (.ok ()), polling := false } : Encoding B E F), n) := by
  obtain ⟨past, hcons, hreached⟩ := h.reached
  have hcons : Conserves past p.state := hcons
  have hreached : Reached bufferMinSize encoded p (accepted past) := hreached
  have hnone : p.state.numCmdsPending = 0 := h.settled hp
  have hpending := hcons.pending
  rw [hnone] at hpending
  have hcmds : p.state.cmds = [] := List.eq_nil_of_length_eq_zero (by omega)
  have hbusy : p.state.bg.busy = 0 := by omega
  obtain ⟨hhanded, hbuf⟩ : accepted past = encoded ∧
      p.state.writeBuffer = kept bufferMinSize encoded := by
    generalize accepted past = handed at hreached
    cases hreached with
    | fresh hstage' | draining hstage' | sending hstage' | wrote hstage' =>
        rw [hstage] at hstage'
        cases hstage'
    | written hstage' =>
        rcases hstage' with h | h <;> rw [hstage] at h <;> cases h
    | flushing _ _ hbuf => exact ⟨rfl, hbuf⟩
  have hbytes := hcons.idle_bytes hp hnone
  rw [hhanded, hbuf] at hbytes
  have hlast : FlushLast p.state n := h.flushed (Or.inr (Or.inl hstage))
  refine ⟨rfl, ?_, hcmds, ?_, ?_, Or.inl ⟨_, hp⟩⟩
  · unfold kept at hbytes
    split at hbytes
    next hfits =>
      rw [if_pos hfits, hbytes, List.append_nil]
    next hshort =>
      rw [if_neg hshort]
      exact List.append_left_eq_self.mp hbytes.symm
  · show p.state.bg.hasWritten = true
    have hhealthy := hcons.healthy
    cases hb : p.state.bg with
    | recv | sendingStatus | waking | returned => rfl
    | writing | reporting | waiting | flushing =>
        rw [hb] at hbusy
        cases hbusy
    | panicked =>
        rw [hb] at hhealthy
        exact hhealthy.elim
  · rcases hlast with hlast | ⟨-, hb | ⟨-, hflushed⟩⟩
    · rw [hcmds] at hlast
      cases hlast
    · rw [hb] at hbusy
      cases hbusy
    · exact hflushed

/-- `encode` reads the answer of a poll: it goes on, or it has ended well or with an error. -/
theorem Clean.reads {answer : PollAnswer E} {stage : EncodeStage B E F}
    (h : Clean bufferMinSize encoded (p, n)) (hpolling : p.polling = true)
    (hp : p.state.poller = .idle (some answer)) (hread : p.stage.read answer = some stage) :
    Clean bufferMinSize encoded ({ p with stage, polling := false }, n) ∨
      Finished bufferMinSize encoded ({ p with stage, polling := false }, n) ∨
        ∃ e, stage = .ended (.error (.writer e)) ∧ answer = .failed e := by
  obtain ⟨past, hcons, hreached⟩ := h.reached
  have hreached : Reached bufferMinSize encoded p (accepted past) := hreached
  rcases read_cases hread with ⟨rest, m, hstage, rfl, rfl⟩ | ⟨hstage, rfl, rfl⟩ | ⟨hstage, rfl, rfl⟩ |
    ⟨hstage, rfl, rfl⟩ | ⟨e, rfl, rfl⟩
  · -- the whole of the value was taken
    left
    generalize hhanded : accepted past = handed at hreached
    cases hreached with
    | fresh _ hp' | draining _ _ _ hp' | sending _ _ _ hp' =>
        rw [hp] at hp'
        cases hp'
    | wrote hstage' _ hne hp' hbuf hwaker =>
        rw [hstage] at hstage'
        cases hstage'
        rw [hp] at hp'
        cases hp'
        have hpos : encoded.length ≠ 0 := fun hz => hne (List.eq_nil_of_length_eq_zero hz)
        rw [if_neg hpos, List.drop_length]
        have hreached' : Reached bufferMinSize encoded
            ({ p with stage := .writing [], polling := false } : Encoding B E F) (accepted past) := by
          rw [hhanded]
          exact .written (Or.inl rfl) rfl hp (by rw [hp]; rfl) hbuf hwaker
        exact ⟨⟨past, hcons, hreached'⟩, h.retry, h.size, h.settled,
          fun hsent => absurd hsent (hreached'.unsent rfl)⟩
    | written _ hpolling' =>
        rw [hpolling] at hpolling'
        cases hpolling'
    | flushing hstage' =>
        rcases hstage' with h | h <;> rw [hstage] at h <;> cases h
  · left
    have hreached' : Reached bufferMinSize encoded ({ p with polling := false } : Encoding B E F)
        (accepted past) := by
      generalize accepted past = handed at hreached
      cases hreached with
      | fresh hstage' | draining hstage' | sending hstage' | wrote hstage' =>
          rcases hstage with h | h <;> rw [hstage'] at h <;> cases h
      | written _ hpolling' =>
          rw [hpolling] at hpolling'
          cases hpolling'
      | flushing hstage' hin hbuf => exact .flushing hstage' hin hbuf
    exact ⟨⟨past, hcons, hreached'⟩, h.retry, h.size, h.settled, h.flushed⟩
  · left
    have hreached' : Reached bufferMinSize encoded
        ({ p with stage := .closing, polling := false } : Encoding B E F) (accepted past) := by
      generalize accepted past = handed at hreached
      cases hreached with
      | fresh hstage' | draining hstage' | sending hstage' | wrote hstage' =>
          rw [hstage] at hstage'
          cases hstage'
      | written _ hpolling' =>
          rw [hpolling] at hpolling'
          cases hpolling'
      | flushing _ hin hbuf => exact .flushing (Or.inr rfl) hin hbuf
    exact ⟨⟨past, hcons, hreached'⟩, h.retry, h.size, h.settled,
      fun _ => h.flushed (Or.inr (Or.inr (by rw [hp]; rfl)))⟩
  · exact Or.inr (Or.inl (h.finished hstage hp))
  · exact Or.inr (Or.inr ⟨e, rfl, rfl⟩)

end Steps

/-! ## From step to step -/

/-- A poll of `poll_write` is given something, and answers with how much it was. -/
def Poller.takesSome : Poller B E → Prop
  | .retrying buf => buf ≠ []
  | .drainingForWrite buf => buf ≠ []
  | .sendingWrite _ n => n ≠ 0
  | .idle (some (.wrote n)) => n ≠ 0
  | _ => True

theorem takesSome_next {s t : State B E} {sev : Event B E} (h : s.poller.takesSome)
    (hbuf : ∀ buf, sev = .pollWrite buf → buf ≠ []) (hs : next s sev = some t) :
    t.poller.takesSome := by
  have hlength : ∀ {buf : List B}, buf ≠ [] → buf.length ≠ 0 :=
    fun hne hz => hne (List.eq_nil_of_length_eq_zero hz)
  cases sev with
  | bg answer =>
      rw [(bgNext_frame hs).1]
      exact h
  | pollWrite buf =>
      obtain ⟨-, rfl | rfl⟩ := pollWrite_inv hs
      · exact hbuf buf rfl
      · exact hbuf buf rfl
  | pollFlush cx =>
      obtain ⟨-, rfl⟩ := pollFlush_inv hs
      trivial
  | drop =>
      obtain ⟨-, rfl⟩ := drop_inv hs
      trivial
  | poller =>
      cases pollerNext_moves hs with
      | retrying hp =>
          rw [hp] at h
          exact h
      | taken hp _ | buffered hp =>
          rw [hp] at h
          exact hlength h
      | sent hsends =>
          generalize s.poller = p at h hsends
          cases hsends with
          | write => exact h
          | flush => trivial
      | counted => exact h
      | failed | miscounted | unsent | starting | goingOn | waiting | flushed | stored | dropping | closing =>
          trivial

/-- **What a step does to the disk**: nothing, or one of its own steps, at which `encode` stays where it is. -/
theorem EncodeMoves.disk (h : EncodeMoves p ev q) :
    q.state = p.state ∨ q.stage = p.stage ∧ ∃ sev : Event B E, next p.state sev = some q.state ∧
      (∀ buf, sev = .pollWrite buf → buf ≠ []) ∧ ∀ e, sev = .bg (.failed e) → ev = .bg (.failed e) := by
  cases h with
  | written | reads => exact Or.inl rfl
  | @writes cx rest state _ _ hne hs =>
      refine Or.inr ⟨rfl, _, hs, fun buf hbuf => ?_, nofun⟩
      cases hbuf
      exact hne
  | flushes _ _ hs => exact Or.inr ⟨rfl, _, hs, nofun, nofun⟩
  | drops _ hs => exact Or.inr ⟨rfl, _, hs, nofun, nofun⟩
  | @calls state hs => exact Or.inr ⟨rfl, .poller, hs, nofun, nofun⟩
  | @thread answer state hs =>
      refine Or.inr ⟨rfl, .bg answer, hs, nofun, fun e he => ?_⟩
      cases he
      rfl

/-- An `encode` at its end stays there. -/
theorem EncodeMoves.stays {res : Except (EncodeError E F) Unit} (h : EncodeMoves p ev q)
    (hended : p.stage = .ended res) : q.stage = .ended res := by
  cases h with
  | written _ hstage =>
      rw [hended] at hstage
      cases hstage
  | reads _ _ hread =>
      rw [hended] at hread
      cases hread
  | _ => exact hended

/-- **`Attributed handle (p, n)`** — every error under way, or returned, is one that the handle or the writer
answered; and between two polls the disk is idle, without an error. -/
structure Attributed (handle : Option (Except F (List B))) (p : Encoding B E F × Seen E) : Prop where
  known : ∀ e, p.1.state.Knows e → e ∈ p.2.errors
  takes : p.1.state.poller.takesSome
  parted : Parted p.1.state
  ended : ∀ e, p.1.stage = .ended (.error e) →
    (e = .noHandle ∧ handle = none) ∨ (∃ err, e = .handle err ∧ handle = some (.error err)) ∨
      ∃ err ∈ p.2.errors, e = .writer err
  rests : p.1.polling = false → (∀ res, p.1.stage ≠ .ended res) →
    ∃ answer, p.1.state.poller = .idle answer ∧ ∀ e, answer ≠ some (.failed e)
  there : (∀ res, p.1.stage ≠ .ended res) → p.1.state.poller.gone = false

theorem attributed_new (bufferMinSize : Nat) (handle : Option (Except F (List B))) :
    Attributed handle ((.new bufferMinSize handle : Encoding B E F), (⟨none, []⟩ : Seen E)) where
  known e h := by
    rcases h with ⟨_, _, hb⟩ | ⟨_, hb⟩ | ⟨_, hmem⟩ | hp
    · cases hb
    · cases hb
    · cases hmem
    · cases hp
  takes := trivial
  parted := parted_new bufferMinSize
  ended e h := by
    rcases handle with _ | err | encoded
    · cases h
      exact Or.inl ⟨rfl, rfl⟩
    · cases h
      exact Or.inr (Or.inl ⟨err, rfl, rfl⟩)
    · cases h
  rests _ _ := ⟨none, rfl, nofun⟩
  there _ := rfl

/-- A call does not begin the drop. -/
theorem there_call {s t : State B E} (h : s.poller.gone = false) (hs : pollerNext s = some t) :
    t.poller.gone = false := by
  cases pollerNext_moves hs with
  | counted => exact h
  | sent hsends => exact hsends.present.2
  | dropping hp | closing hp =>
      rw [hp] at h
      cases h
  | _ => rfl

/-- The errors seen only grow. -/
theorem mem_noteWriter {n : Seen E} {e : E} (h : e ∈ n.errors) : e ∈ (noteWriter p ev q n).errors := by
  unfold noteWriter
  split
  · exact h
  · exact List.mem_append_left _ h
  · exact h

theorem Attributed.step {handle : Option (Except F (List B))} {n : Seen E} (h : Attributed handle (p, n))
    (hs : EncodeMoves p ev q) : Attributed handle (q, noteWriter p ev q n) := by
  have hdisk := hs.disk
  refine ⟨fun e hknows => ?_, ?_, ?_, fun e hended => ?_, fun hpolling hlive => ?_, fun hlive => ?_⟩
  · rcases hdisk with hsame | ⟨-, sev, hnext, -, hfailed⟩
    · exact mem_noteWriter (q := q) (h.known e (hsame ▸ hknows))
    · rcases next_knows hnext hknows with hknows | rfl
      · exact mem_noteWriter (q := q) (h.known e hknows)
      · obtain rfl := hfailed e rfl
        exact List.mem_append_right _ List.mem_cons_self
  · rcases hdisk with hsame | ⟨-, sev, hnext, hbuf, -⟩
    · exact hsame ▸ h.takes
    · exact takesSome_next h.takes hbuf hnext
  · rcases hdisk with hsame | ⟨-, sev, hnext, -⟩
    · exact hsame ▸ h.parted
    · exact h.parted.step hnext
  · have hbefore : p.stage = .ended (.error e) →
        (e = .noHandle ∧ handle = none) ∨ (∃ err, e = .handle err ∧ handle = some (.error err)) ∨
          ∃ err ∈ (noteWriter p ev q n).errors, e = .writer err := by
      intro hstage
      rcases h.ended e hstage with h | h | ⟨err, hmem, herr⟩
      · exact Or.inl h
      · exact Or.inr (Or.inl h)
      · exact Or.inr (Or.inr ⟨err, mem_noteWriter hmem, herr⟩)
    cases hs with
    | written => cases hended
    | writes | flushes | drops | calls | thread => exact hbefore hended
    | reads _ hp hread =>
        have htakes : p.state.poller.takesSome := h.takes
        rcases read_cases hread with ⟨rest, m, -, rfl, rfl⟩ | ⟨-, -, rfl⟩ | ⟨-, -, rfl⟩ | ⟨-, -, rfl⟩ |
          ⟨err, rfl, rfl⟩
        · -- `write_all` is never told that nothing was written
          rw [hp] at htakes
          have hne : m ≠ 0 := htakes
          rw [if_neg hne] at hended
          cases hended
        · exact hbefore hended
        · cases hended
        · cases hended
        · cases hended
          exact Or.inr (Or.inr ⟨err, h.known err (Or.inr (Or.inr (Or.inr hp))), rfl⟩)
  · cases hs with
    | written hpolling' hstage =>
        refine h.rests hpolling' fun res hended => ?_
        rw [hstage] at hended
        cases hended
    | writes | flushes => cases hpolling
    | drops hended => exact absurd hended (hlive _)
    | @reads answer stage _ hp hread =>
        refine ⟨some answer, hp, fun e he => ?_⟩
        obtain rfl := Option.some.inj he
        cases hstage : p.stage with
        | ended res =>
            rw [hstage] at hread
            cases hread
        | writing | flushing | closing =>
            rw [hstage] at hread
            cases hread
            exact hlive _ rfl
    | calls hcall =>
        obtain ⟨answer, hp, -⟩ := h.rests hpolling hlive
        have hp : p.state.poller = .idle answer := hp
        simp [pollerNext, hp] at hcall
    | thread hbg =>
        obtain ⟨answer, hp, hfine⟩ := h.rests hpolling hlive
        exact ⟨answer, (bgNext_frame hbg).1.trans hp, hfine⟩
  · cases hs with
    | written _ hstage =>
        refine h.there fun res hended => ?_
        rw [hstage] at hended
        cases hended
    | writes _ _ _ hnext =>
        obtain ⟨-, rfl | rfl⟩ := pollWrite_inv hnext
        · rfl
        · rfl
    | flushes _ _ hnext =>
        obtain ⟨-, rfl⟩ := pollFlush_inv hnext
        rfl
    | drops hended => exact absurd hended (hlive _)
    | reads _ hp => exact congrArg Poller.gone hp
    | calls hcall => exact there_call (h.there hlive) hcall
    | thread hbg => exact (congrArg Poller.gone (bgNext_frame hbg).1).trans (h.there hlive)

/-- **`Course min handle (p, n)`** — where `encode` stands: no failure so far, an error on its way to it, or its
end. -/
inductive Course (bufferMinSize : Nat) (handle : Option (Except F (List B)))
    (p : Encoding B E F × Seen E) : Prop
  | clean {encoded : List B} : handle = some (.ok encoded) → Clean bufferMinSize encoded p →
      Course bufferMinSize handle p
  | tainted : Tainted p.1.state → p.1.state.poller ≠ .idle (some .flushed) →
      (∀ res, p.1.stage ≠ .ended res) → Course bufferMinSize handle p
  | finished {encoded : List B} : handle = some (.ok encoded) → Finished bufferMinSize encoded p →
      Course bufferMinSize handle p
  | failed {e : EncodeError E F} : p.1.stage = .ended (.error e) → Course bufferMinSize handle p

theorem course_new (bufferMinSize : Nat) (handle : Option (Except F (List B))) :
    Course bufferMinSize handle ((.new bufferMinSize handle : Encoding B E F), (⟨none, []⟩ : Seen E)) := by
  rcases handle with _ | err | encoded
  · exact .failed rfl
  · exact .failed rfl
  · exact .clean rfl (clean_new bufferMinSize encoded)

/-- A poll begins behind a failure that it has not been told of. -/
theorem Tainted.begins {s t : State B E} (h : Tainted s) {answer : Option (PollAnswer E)}
    (hp : s.poller = .idle answer) (hfine : ∀ e, answer ≠ some (.failed e)) (hbg : t.bg = s.bg)
    (hst : t.statuses = s.statuses) (hn : t.numCmdsPending = s.numCmdsPending) : Tainted t := by
  cases h with
  | reporting hb hlt =>
      refine .reporting (hbg.trans hb) ?_
      rw [hst, hn]
      exact hlt
  | flushFailed hb hlt =>
      refine .flushFailed (hbg.trans hb) ?_
      rw [hst, hn]
      exact hlt
  | queued hmem => exact .queued (hst ▸ hmem)
  | answered hp' =>
      rw [hp] at hp'
      cases hp'
      exact absurd rfl (hfine _)
  | panicked hp' =>
      rw [hp] at hp'
      cases hp'

section Course

variable {bufferMinSize : Nat} {handle : Option (Except F (List B))} {encoded : List B} {n : Seen E}

theorem Clean.step (h : Clean bufferMinSize encoded (p, n)) (hhandle : handle = some (.ok encoded))
    (hs : EncodeMoves p ev q) : Course bufferMinSize handle (q, noteWriter p ev q n) := by
  obtain ⟨past, -, hreached⟩ := h.reached
  cases hs with
  | written hpolling hstage => exact .clean hhandle (h.written hpolling hstage)
  | writes hpolling hstage hne hnext => exact .clean hhandle (h.writes hpolling hstage hne hnext)
  | flushes _ hstage hnext => exact .clean hhandle (h.flushes hstage hnext)
  | drops hended => exact absurd hended (hreached.live _)
  | reads hpolling hp hread =>
      rcases h.reads hpolling hp hread with hclean | hfinished | ⟨e, hended, -⟩
      · exact .clean hhandle hclean
      · exact .finished hhandle hfinished
      · exact .failed hended
  | calls hcall => exact .clean hhandle (h.call hcall)
  | @thread answer state hbg =>
      rcases hfails : (Event.bg answer : Event B E).fails with _ | _
      · exact .clean hhandle (h.thread hfails hbg)
      · obtain ⟨htainted, hne⟩ := h.fails hfails hbg
        exact .tainted htainted hne fun res => hreached.live res

theorem Tainted.step (h : Tainted p.state) (hne : p.state.poller ≠ .idle (some .flushed))
    (hlive : ∀ res, p.stage ≠ .ended res) (hattr : Attributed handle (p, n)) (hs : EncodeMoves p ev q) :
    Course bufferMinSize handle (q, noteWriter p ev q n) := by
  cases hs with
  | written => exact .tainted h hne nofun
  | writes hpolling _ _ hnext =>
      obtain ⟨answer, hp, hfine⟩ := hattr.rests hpolling hlive
      obtain ⟨-, rfl | rfl⟩ := pollWrite_inv hnext
      · exact .tainted (h.begins hp hfine rfl rfl rfl) nofun hlive
      · exact .tainted (h.begins hp hfine rfl rfl rfl) nofun hlive
  | flushes hpolling _ hnext =>
      obtain ⟨answer, hp, hfine⟩ := hattr.rests hpolling hlive
      obtain ⟨-, rfl⟩ := pollFlush_inv hnext
      exact .tainted (h.begins hp hfine rfl rfl rfl) nofun hlive
  | drops hended => exact absurd hended (hlive _)
  | reads _ hp hread =>
      rcases read_cases hread with ⟨rest, m, -, rfl, rfl⟩ | ⟨-, rfl, rfl⟩ | ⟨-, rfl, -⟩ | ⟨-, rfl, -⟩ |
        ⟨e, -, rfl⟩
      · by_cases hm : m = 0
        · rw [if_pos hm]
          exact .failed rfl
        · rw [if_neg hm]
          exact .tainted h hne nofun
      · exact .tainted h hne hlive
      · exact absurd hp hne
      · exact absurd hp hne
      · exact .failed rfl
  | calls hcall =>
      obtain ⟨htainted, hne'⟩ := h.poller hcall
      exact .tainted htainted hne' hlive
  | thread hbg =>
      have hpoller := (bgNext_frame hbg).1
      obtain ⟨-, -, hrx, -⟩ := hattr.parted.heard (hattr.there hlive)
      exact .tainted (h.bg hrx hbg) (fun hp => hne (hpoller.symm.trans hp)) hlive

theorem Finished.step (h : Finished bufferMinSize encoded (p, n)) (hs : EncodeMoves p ev q) :
    Finished bufferMinSize encoded (q, noteWriter p ev q n) := by
  have hstage := hs.stays h.stage
  cases hs with
  | written _ hstage' =>
      rw [h.stage] at hstage'
      cases hstage'
  | writes _ hstage' =>
      rw [h.stage] at hstage'
      cases hstage'
  | flushes _ hstage' =>
      rw [h.stage] at hstage'
      rcases hstage' with h | h <;> cases h
  | reads _ _ hread =>
      rw [h.stage] at hread
      cases hread
  | drops _ hnext =>
      obtain ⟨-, rfl⟩ := drop_inv hnext
      exact ⟨hstage, h.writer, h.cmds, h.bg, h.flushedAt, Or.inr rfl⟩
  | calls hcall =>
      rcases h.poller with ⟨answer, hp⟩ | hgone
      · have hp : p.state.poller = .idle answer := hp
        simp [pollerNext, hp] at hcall
      · -- of the steps of a call those of the drop are left
        have hgone : p.state.poller.gone = true := hgone
        cases hp : p.state.poller with
        | dropping =>
            simp only [pollerNext, hp, Option.some.injEq] at hcall
            subst hcall
            exact ⟨hstage, h.writer, h.cmds, h.bg, h.flushedAt, Or.inr rfl⟩
        | closing =>
            simp only [pollerNext, hp, Option.some.injEq] at hcall
            subst hcall
            exact ⟨hstage, h.writer, h.cmds, h.bg, h.flushedAt, Or.inr rfl⟩
        | dropped => simp [pollerNext, hp] at hcall
        | _ =>
            rw [hp] at hgone
            cases hgone
  | thread hbg =>
      obtain ⟨rfl, hcmds, hwritten, hwriter⟩ := hasWritten_thread h.cmds h.bg hbg
      have hpoller := (bgNext_frame hbg).1
      have hkept := h.poller
      refine ⟨hstage, hwriter.trans h.writer, hcmds, hwritten, ?_, ?_⟩
      · rw [hwriter]
        exact h.flushedAt
      · rw [hpoller]
        exact hkept

/-- **A step of `encode`**, wherever it stands. -/
theorem Course.step (h : Course bufferMinSize handle (p, n)) (hattr : Attributed handle (p, n))
    (hs : EncodeMoves p ev q) : Course bufferMinSize handle (q, noteWriter p ev q n) := by
  cases h with
  | clean hhandle hclean => exact hclean.step hhandle hs
  | tainted htainted hne hlive => exact htainted.step hne hlive hattr hs
  | finished hhandle hfinished => exact .finished hhandle (hfinished.step hs)
  | failed hended => exact .failed (hs.stays hended)

theorem Course.answered (h : Course bufferMinSize handle (p, n)) (hattr : Attributed handle (p, n)) :
    Answered bufferMinSize handle (p, n) := by
  refine ⟨fun hok => ?_, hattr.ended⟩
  cases h with
  | clean _ hclean =>
      obtain ⟨past, -, hreached⟩ := hclean.reached
      exact absurd hok (hreached.live _)
  | tainted _ _ hlive => exact absurd hok (hlive _)
  | @finished encoded hhandle hfinished =>
      refine ⟨encoded, hhandle, hfinished.flushedAt, ?_⟩
      rw [hfinished.writer]
      by_cases hfits : bufferMinSize ≤ encoded.length ∨ encoded = []
      · rw [if_pos hfits]
        exact ⟨iff_of_true rfl hfits, Or.inl rfl⟩
      · rw [if_neg hfits]
        refine ⟨iff_of_false (fun hnil => hfits (Or.inr hnil.symm)) hfits, Or.inr rfl⟩
  | failed hended =>
      rw [hended] at hok
      cases hok

end Course

theorem course_run (bufferMinSize : Nat) (handle : Option (Except F (List B)))
    {tr : List (EncodeEvent E × (Encoding B E F × Seen E))}
    (htr : IsTrace (Steps (observed encodeNext noteWriter)) (.new bufferMinSize handle, ⟨none, []⟩) tr) :
    StatesMeet (fun p => Course bufferMinSize handle p ∧ Attributed handle p)
      (.new bufferMinSize handle, ⟨none, []⟩) tr := by
  refine invariant (fun p ev q h hs => ?_)
    ⟨course_new bufferMinSize handle, attributed_new bufferMinSize handle⟩ htr
  obtain ⟨hnext, hnote⟩ := observed_inv hs
  have hmoves := encodeNext_moves hnext
  obtain ⟨q, n⟩ := q
  obtain rfl : n = noteWriter p.1 ev q p.2 := hnote
  exact ⟨h.1.step h.2 hmoves, h.2.step hmoves⟩

/-- **Encoding through the adapters**: in every run of `encode` and of the thread behind its disk, whatever the
handle and the inner writer answer, an `Ok` stands behind a last flush of the inner writer, which has the encoded
value exactly if that is empty or no shorter than the least size of the buffer, and nothing of it otherwise;
an error is the handle's, or one that the inner writer answered. -/
theorem encode_exact (bufferMinSize : Nat) (handle : Option (Except F (List B)))
    {tr : List (EncodeEvent E × (Encoding B E F × Seen E))}
    (htr : IsTrace (Steps (observed encodeNext noteWriter)) (.new bufferMinSize handle, ⟨none, []⟩) tr) :
    StatesMeet (Answered bufferMinSize handle) (.new bufferMinSize handle, ⟨none, []⟩) tr := by
  have hkept := course_run bufferMinSize handle htr
  exact ⟨hkept.1.1.answered hkept.1.2, fun x hx => (hkept.2 x hx).1.answered (hkept.2 x hx).2⟩

/-- A `flush` or `close` sends its command, which the thread carries out before the next look at the statuses. -/
def flushRound : List (EncodeEvent Unit) :=
  [.poll 0, .poller, .poller, .bg .silent, .bg .flushed, .bg .silent, .bg .silent, .poller, .poller, .read]

/-- Two bytes are encoded over a buffer of two: the thread writes them before the flush. -/
def storedEncode : List (EncodeEvent Unit × (Encoding Nat Unit Unit × Seen Unit)) :=
  follow (observed encodeNext noteWriter) (.new 2 (some (.ok [7, 8])), ⟨none, []⟩)
    ([.poll 0, .poller, .poller, .read, .bg .silent, .bg (.wrote 2), .bg .silent, .poll 0, .poll 0, .poller,
      .poller, .bg .silent, .bg .flushed, .bg .silent, .bg .silent, .poller, .poller, .poller, .read] ++
      flushRound)

/-- Over a buffer of four they stay in it. -/
def lostEncode : List (EncodeEvent Unit × (Encoding Nat Unit Unit × Seen Unit)) :=
  follow (observed encodeNext noteWriter) (.new 4 (some (.ok [7, 8])), ⟨none, []⟩)
    ([.poll 0, .poller, .read, .poll 0] ++ flushRound ++ flushRound)

theorem encode_exact_lost :
    (last (.new 2 (some (.ok [7, 8])), ⟨none, []⟩) storedEncode).1.stage = .ended (.ok ()) ∧
      (last (.new 2 (some (.ok [7, 8])), ⟨none, []⟩) storedEncode).1.state.writer = [7, 8] ∧
      StatesMeet (Answered 2 (some (.ok [7, 8]))) (.new 2 (some (.ok [7, 8])), ⟨none, []⟩) storedEncode ∧
      (last (.new 4 (some (.ok [7, 8])), ⟨none, []⟩) lostEncode).1.stage = .ended (.ok ()) ∧
      (last (.new 4 (some (.ok [7, 8])), ⟨none, []⟩) lostEncode).1.state.writer = [] ∧
      StatesMeet (Answered 4 (some (.ok [7, 8]))) (.new 4 (some (.ok [7, 8])), ⟨none, []⟩) lostEncode :=
  ⟨by decide, by decide, encode_exact 2 (some (.ok [7, 8])) (isTrace_follow _ _ _), by decide, by decide,
    encode_exact 4 (some (.ok [7, 8])) (isTrace_follow _ _ _)⟩

end BackedData.Adapters
