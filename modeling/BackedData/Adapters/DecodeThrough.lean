/-
# BackedData.Adapters.DecodeThrough — a value decoded through the adapters

`SyncCoderAsyncDisk::decode` awaits `read_to_end` on the disk it is given, and has a handle decode what came.
On a `SyncAsAsync` disk that is a `SyncAsAsyncRead`, with the thread behind it.  As for `encode` the model puts
the future in front of the two sides of `Adapters.AsyncRead`: each of its steps starts a `poll_read`, with a
buffer of any length but zero and any waker, or reads the answer of one.

`decode_exact`: the handle gets what the reader answered up to its first empty answer, whole and in order, and
never anything behind an error; an error returned is the handle's, or the reader's first.  The flag that an
error leaves set does no harm here, since `read_to_end` polls no more behind one: a `decode` that waits is
woken, or the thread is in the reader.
-/
import BackedData.Adapters.ReadWakeups

namespace BackedData.Adapters.AsyncRead

open Logic.Trace

set_option autoImplicit false

variable {B E F T : Type}

/-! ## The future of `decode` -/

/-- What `decode` may fail with: no handle is configured, the reader failed, or the handle. -/
inductive DecodeError (E F : Type) where
  | noHandle
  | reader (error : E)
  | handle (error : F)
  deriving DecidableEq, Repr

/-- Where `decode` stands: in `read_to_end` with the bytes so far, in the handle, or at its end. -/
inductive DecodeStage (B E F T : Type) where
  | reading (buffer : List B)
  | handling (buffer : List B)
  | ended (res : Except (DecodeError E F) T)
  deriving DecidableEq

/-- `decode`, with the disk it reads from; `polling` says that a poll of the disk is under way or has an answer
not yet read. -/
structure Decoding (B E F T : Type) where
  stage : DecodeStage B E F T
  polling : Bool
  state : State B E
  deriving DecidableEq

/-- A step of `decode`: to begin a poll, with a waker and the room that `read_to_end` has made, or to read its
answer; or a step of the poll or of the thread. -/
inductive DecodeEvent (B E : Type) where
  | poll (room cx : Nat)
  | read
  | poller
  | bg (answer : ReaderAnswer B E)
  deriving DecidableEq, Repr

/-- The start of `decode`. -/
def Decoding.new (bufferSize : Nat) (handle : Option (List B → Except F T)) : Decoding B E F T where
  stage :=
    match handle with
    | none => .ended (.error .noHandle)
    | some _ => .reading []
  polling := false
  state := .new bufferSize

/-- What `read_to_end` makes of the answer of a poll: nothing read is the end. -/
def DecodeStage.read : DecodeStage B E F T → ReadAnswer B E → Option (DecodeStage B E F T)
  | .reading buffer, .read [] => some (.handling buffer)
  | .reading buffer, .read bytes => some (.reading (buffer ++ bytes))
  | .reading buffer, .pending => some (.reading buffer)
  | .reading _, .failed e => some (.ended (.error (.reader e)))
  | _, _ => none

/-- The end of `decode`, with what the handle returned. -/
def DecodeStage.handled (res : Except F T) : DecodeStage B E F T :=
  match res with
  | .ok value => .ended (.ok value)
  | .error e => .ended (.error (.handle e))

/-- The next step of `decode` between two polls.  At its end the disk is dropped. -/
def Decoding.poll (handle : Option (List B → Except F T)) (p : Decoding B E F T) (room cx : Nat) :
    Option (Decoding B E F T) :=
  match p.stage with
  | .reading _ =>
      if 0 < room then
        (next p.state (.poll (.read room) cx)).map fun state => { p with state, polling := true }
      else none
  | .handling buffer => handle.map fun decode => { p with stage := .handled (decode buffer) }
  | .ended _ => (next p.state .drop).map fun state => { p with state }

/-- One step of `decode` and its disk. -/
def decodeNext (handle : Option (List B → Except F T)) (p : Decoding B E F T) :
    DecodeEvent B E → Option (Decoding B E F T)
  | .poll room cx => if p.polling then none else p.poll handle room cx
  | .read =>
      match p.polling, p.state.poller with
      | true, .idle (some answer) =>
          (p.stage.read answer).map fun stage => { p with stage, polling := false }
      | _, _ => none
  | .poller => (next p.state .poller).map fun state => { p with state }
  | .bg answer => (next p.state (.bg answer)).map fun state => { p with state }

/-- What an observer has seen: the answers of the reader, and the wakers. -/
structure Heard (B E : Type) where
  answers : List (Except E (List B))
  watch : Watch
  deriving DecidableEq

/-- The observer before the first step. -/
def Heard.start : Heard B E where
  answers := []
  watch := ⟨none, false⟩

/-- What the observer makes of an answer of the reader. -/
def noteAnswer (answer : ReaderAnswer B E) (answers : List (Except E (List B))) :
    List (Except E (List B)) :=
  match answer with
  | .silent => answers
  | .read bytes => answers ++ [.ok bytes]
  | .failed e => answers ++ [.error e]

/-- What the observer notes. -/
def noteDecode (p : Decoding B E F T) (ev : DecodeEvent B E) (q : Decoding B E F T) (n : Heard B E) :
    Heard B E :=
  match ev with
  | .poll room cx =>
      match p.stage with
      | .reading _ => { n with watch := noteWatch p.state (.poll (.read room) cx) q.state n.watch }
      | _ => n
  | .read => n
  | .poller => { n with watch := noteWatch p.state .poller q.state n.watch }
  | .bg answer =>
      { answers := noteAnswer answer n.answers, watch := noteWatch p.state (.bg answer) q.state n.watch }

/-- **`ReadThrough answers chunks`** — every answer was of some bytes. -/
structure ReadThrough (answers : List (Except E (List B))) (chunks : List (List B)) : Prop where
  all : answers = chunks.map Except.ok
  some : ∀ chunk ∈ chunks, chunk ≠ []

/-- **`Complete answers whole`** — the reader gave `whole` in some answers, and then nothing. -/
def Complete (answers : List (Except E (List B))) (whole : List B) : Prop :=
  ∃ before chunks, answers = before ++ [.ok []] ∧ ReadThrough before chunks ∧ whole = chunks.flatten

/-- **`Broken answers e`** — the reader failed with `e` behind some answers. -/
def Broken (answers : List (Except E (List B))) (e : E) : Prop :=
  ∃ before chunks, answers = before ++ [.error e] ∧ ReadThrough before chunks

/-- **`Result handle res n`** — what a result stands for: there is no handle; it is what the handle made of all that
the reader gave; or the reader failed first. -/
def Result (handle : Option (List B → Except F T)) (res : Except (DecodeError E F) T) (n : Heard B E) :
    Prop :=
  (handle = none ∧ res = .error .noHandle ∧ n.answers = []) ∨
    (∃ decode whole, handle = some decode ∧ Complete n.answers whole ∧
      .ended res = (DecodeStage.handled (decode whole) : DecodeStage B E F T)) ∨
    ∃ e, res = .error (.reader e) ∧ Broken n.answers e

/-- **`Decodes handle`** — of a state with what was seen: the handle gets all that the reader gave before its end,
and so does a result stand for it; no poll panics; and a `decode` that waits, with both sides at rest, has been
woken or the thread is in the reader. -/
structure Decodes (handle : Option (List B → Except F T)) (p : Decoding B E F T × Heard B E) : Prop where
  handed : ∀ buffer, p.1.stage = .handling buffer → Complete p.2.answers buffer
  ended : ∀ res, p.1.stage = .ended res → Result handle res p.2
  calm : p.1.state.poller ≠ .panicked
  awaited : OnlyReaderAwaited (p.1.state, p.2.watch)

/-! ## What a step can do -/

/-- **`DecodeMoves handle p ev q`** — the steps, one constructor for each kind. -/
inductive DecodeMoves (handle : Option (List B → Except F T)) (p : Decoding B E F T) :
    DecodeEvent B E → Decoding B E F T → Prop
  | polls {room cx : Nat} {buffer : List B} {state : State B E} : p.polling = false →
      p.stage = .reading buffer → 0 < room → next p.state (.poll (.read room) cx) = some state →
      DecodeMoves handle p (.poll room cx) { p with state, polling := true }
  | decodes {room cx : Nat} {buffer : List B} {decode : List B → Except F T} :
      p.stage = .handling buffer → handle = some decode →
      DecodeMoves handle p (.poll room cx) { p with stage := .handled (decode buffer) }
  | drops {room cx : Nat} {res : Except (DecodeError E F) T} {state : State B E} :
      p.stage = .ended res → next p.state .drop = some state →
      DecodeMoves handle p (.poll room cx) { p with state }
  | reads {answer : ReadAnswer B E} {stage : DecodeStage B E F T} : p.polling = true →
      p.state.poller = .idle (some answer) → p.stage.read answer = some stage →
      DecodeMoves handle p .read { p with stage, polling := false }
  | calls {state : State B E} : next p.state .poller = some state →
      DecodeMoves handle p .poller { p with state }
  | thread {answer : ReaderAnswer B E} {state : State B E} : next p.state (.bg answer) = some state →
      DecodeMoves handle p (.bg answer) { p with state }

variable {handle : Option (List B → Except F T)} {p q : Decoding B E F T} {ev : DecodeEvent B E}

theorem decodePoll_moves {room cx : Nat} (hpolling : p.polling = false)
    (hs : p.poll handle room cx = some q) : DecodeMoves handle p (.poll room cx) q := by
  obtain ⟨stage, polling, state⟩ := p
  cases stage with
  | reading buffer =>
      by_cases hroom : 0 < room
      · have hs : (if 0 < room then
            (next state (.poll (.read room) cx)).map fun state' =>
              (⟨.reading buffer, true, state'⟩ : Decoding B E F T)
          else none) = some q := hs
        rw [if_pos hroom] at hs
        obtain ⟨state', hnext, rfl⟩ := Option.map_eq_some_iff.mp hs
        exact .polls hpolling rfl hroom hnext
      · simp [Decoding.poll, hroom] at hs
  | handling buffer =>
      obtain ⟨decode, hhandle, rfl⟩ := Option.map_eq_some_iff.mp hs
      exact .decodes rfl hhandle
  | ended res =>
      obtain ⟨state', hnext, rfl⟩ := Option.map_eq_some_iff.mp hs
      exact .drops rfl hnext

/-- **The steps** are those and no others. -/
theorem decodeNext_moves (hs : decodeNext handle p ev = some q) : DecodeMoves handle p ev q := by
  cases ev with
  | poll room cx =>
      by_cases hpolling : p.polling = true
      · simp [decodeNext, hpolling] at hs
      · have hs : (if p.polling = true then none else p.poll handle room cx) = some q := hs
        rw [if_neg hpolling] at hs
        exact decodePoll_moves (Bool.not_eq_true _ ▸ hpolling) hs
  | read =>
      rcases hpolling : p.polling with _ | _
      · simp [decodeNext, hpolling] at hs
      · cases hp : p.state.poller with
        | idle answer =>
            rcases answer with _ | answer
            · simp [decodeNext, hpolling, hp] at hs
            · simp only [decodeNext, hpolling, hp] at hs
              obtain ⟨stage, hread, rfl⟩ := Option.map_eq_some_iff.mp hs
              exact .reads hpolling hp hread
        | _ => simp [decodeNext, hpolling, hp] at hs
  | poller =>
      obtain ⟨state, hnext, rfl⟩ := Option.map_eq_some_iff.mp hs
      exact .calls hnext
  | bg answer =>
      obtain ⟨state, hnext, rfl⟩ := Option.map_eq_some_iff.mp hs
      exact .thread hnext

/-- What `read_to_end` makes of an answer. -/
theorem stageRead_cases {stage stage' : DecodeStage B E F T} {answer : ReadAnswer B E}
    (h : stage.read answer = some stage') :
    ∃ buffer, stage = .reading buffer ∧
      ((answer = .read [] ∧ stage' = .handling buffer) ∨
        (∃ bytes, answer = .read bytes ∧ bytes ≠ [] ∧ stage' = .reading (buffer ++ bytes)) ∨
        (answer = .pending ∧ stage' = .reading buffer) ∨
        ∃ e, answer = .failed e ∧ stage' = .ended (.error (.reader e))) := by
  cases stage with
  | reading buffer =>
      refine ⟨buffer, rfl, ?_⟩
      cases answer with
      | read bytes =>
          cases bytes with
          | nil => exact Or.inl ⟨rfl, (Option.some.inj h).symm⟩
          | cons b rest =>
              exact Or.inr (Or.inl ⟨b :: rest, rfl, List.cons_ne_nil b rest, (Option.some.inj h).symm⟩)
      | pending => exact Or.inr (Or.inr (Or.inl ⟨rfl, (Option.some.inj h).symm⟩))
      | failed e => exact Or.inr (Or.inr (Or.inr ⟨e, rfl, (Option.some.inj h).symm⟩))
      | filled | consumed => cases h
  | handling | ended => cases answer <;> cases h

/-! ## Where `decode` stands -/

/-- The response on its way to the poll: in the slot, or in the thread's hands. -/
def State.onItsWay (s : State B E) : Option (Except E (List B)) :=
  match s.read, s.bg with
  | some res, _ => some res
  | none, .holding res => some res
  | none, _ => none

/-- The bytes of an answer that `read_to_end` has not read yet. -/
def Decoding.unread (p : Decoding B E F T) : List B :=
  match p.polling, p.state.poller with
  | true, .idle (some (.read bytes)) => bytes
  | _, _ => []

/-- **`Going p n`** — in `read_to_end`, before the end: every answer but the one on its way was of some bytes, and
they are in the buffer of `read_to_end`, in an answer it has not read, or in that of the adapter. -/
structure Going (p : Decoding B E F T) (n : Heard B E) : Prop where
  bytes : ∃ buffer before chunks, p.stage = .reading buffer ∧ ReadThrough before chunks ∧
    n.answers = before ++ p.state.onItsWay.toList ∧
    buffer ++ p.unread ++ p.state.buffered = chunks.flatten
  erred : n.watch.erred = false
  empty : p.state.pending = true → p.state.buffered = []
  more : p.polling = true → p.state.poller ≠ .idle (some (.read [])) ∧
    ∀ e, p.state.poller ≠ .idle (some (.failed e))
  between : p.polling = false → p.state.poller.isIdle = true
  room : ∀ call cx, p.state.poller = .taking call cx → ∃ room, 0 < room ∧ call = .read room
  calm : p.state.poller ≠ .panicked

/-- **`Settled p`** — the poll is over and nothing more is asked of the reader. -/
structure Settled (p : Decoding B E F T) : Prop where
  rests : p.state.bg.rests = true
  still : (∃ answer, p.state.poller = .idle answer) ∨ p.state.poller = .dropped

/-- **`Standing handle p n`** — where `decode` stands: in `read_to_end`, with an empty answer or an error to read,
in the handle, or at its end. -/
inductive Standing (handle : Option (List B → Except F T)) (p : Decoding B E F T) (n : Heard B E) : Prop
  | going : Going p n → Standing handle p n
  | emptied {buffer : List B} : Settled p → p.polling = true → p.stage = .reading buffer →
      p.state.poller = .idle (some (.read [])) → Complete n.answers buffer → Standing handle p n
  | broke {buffer : List B} {e : E} : Settled p → p.polling = true → p.stage = .reading buffer →
      p.state.poller = .idle (some (.failed e)) → Broken n.answers e → Standing handle p n
  | handling {buffer : List B} : Settled p → p.stage = .handling buffer → Complete n.answers buffer →
      Standing handle p n
  | ended {res : Except (DecodeError E F) T} : Settled p → p.stage = .ended res → Result handle res n →
      Standing handle p n

theorem standing_new (bufferSize : Nat) (handle : Option (List B → Except F T)) :
    Standing handle (.new bufferSize handle : Decoding B E F T) .start := by
  rcases handle with _ | decode
  · exact .ended ⟨rfl, Or.inl ⟨none, rfl⟩⟩ rfl (Or.inl ⟨rfl, rfl, rfl⟩)
  · refine .going ⟨⟨[], [], [], rfl, ⟨rfl, nofun⟩, rfl, rfl⟩, rfl, nofun, nofun, fun _ => rfl, nofun, nofun⟩

section Steps

variable {s t : State B E} {n : Heard B E}

/-- A thread at rest has nothing in its hands. -/
theorem onItsWay_rests (h : s.bg.rests = true) : s.onItsWay = s.read := by
  unfold State.onItsWay
  cases hb : s.bg with
  | recv | returned => cases s.read <;> rfl
  | _ =>
      rw [hb] at h
      cases h

/-- A poll begins by waiting for the response, by asking for one, or by serving what is buffered. -/
theorem poll_cases {call : ReadCall} {cx : Nat} (hs : next s (.poll call cx) = some t) :
    (s.pending = true ∧ t = { s with poller := .taking call cx }) ∨
      (s.pending = false ∧ s.buffered = [] ∧ t = { s with pending := true, poller := .storingWaker cx }) ∨
      (s.pending = false ∧ s.buffered ≠ [] ∧ t = s.ready call) := by
  cases hp : s.poller with
  | idle answer =>
      simp only [next, hp, Option.some.injEq] at hs
      subst hs
      unfold State.pollFillBuf
      by_cases hpending : s.pending = true
      · rw [if_pos hpending]
        exact Or.inl ⟨hpending, rfl⟩
      · rw [if_neg hpending]
        have hclear := Bool.eq_false_iff.mpr hpending
        by_cases hb : s.buffered.isEmpty = true
        · rw [if_pos hb]
          exact Or.inr (Or.inl ⟨hclear, List.isEmpty_iff.mp hb, rfl⟩)
        · rw [if_neg hb]
          exact Or.inr (Or.inr ⟨hclear, fun hnil => hb (List.isEmpty_iff.mpr hnil), rfl⟩)
  | _ => simp [next, hp] at hs

/-- Where nothing is asked of it, the thread does nothing but end. -/
theorem rests_thread {answer : ReaderAnswer B E} (h : s.bg.rests = true)
    (hs : next s (.bg answer) = some t) :
    answer = .silent ∧ t.bg.rests = true ∧ t.poller = s.poller := by
  have hmoves := next_moves hs
  cases hmoves with
  | disconnected => exact ⟨rfl, rfl, rfl⟩
  | produced hb | readFailed hb | puts hb | wakes hb | releases hb =>
      rw [hb] at h
      cases h

theorem Settled.thread {answer : ReaderAnswer B E} {state : State B E} (h : Settled p)
    (hs : next p.state (.bg answer) = some state) :
    answer = .silent ∧ Settled ({ p with state } : Decoding B E F T) ∧
      state.poller = p.state.poller := by
  obtain ⟨rfl, hrests, hpoller⟩ := rests_thread h.rests hs
  refine ⟨rfl, ⟨hrests, ?_⟩, hpoller⟩
  show (∃ answer, state.poller = .idle answer) ∨ state.poller = .dropped
  rw [hpoller]
  exact h.still

theorem Settled.no_call {state : State B E} (h : Settled p) : next p.state .poller ≠ some state := by
  intro hs
  have hs : pollerNext p.state = some state := hs
  rcases h.still with ⟨answer, hp⟩ | hp
  · simp [pollerNext, hp] at hs
  · simp [pollerNext, hp] at hs

/-- Only an answer of the reader changes what the observer has of them. -/
theorem noteDecode_answers (hev : ∀ answer, ev ≠ .bg answer) : (noteDecode p ev q n).answers = n.answers := by
  cases ev with
  | poll room cx =>
      unfold noteDecode
      cases p.stage <;> rfl
  | read | poller => rfl
  | bg answer => exact absurd rfl (hev answer)

/-- `read_to_end` begins a poll. -/
theorem Going.polls {room cx : Nat} {buffer : List B} {state : State B E} (h : Going p n)
    (hpolling : p.polling = false) (hstage : p.stage = .reading buffer) (hroom : 0 < room)
    (hnext : next p.state (.poll (.read room) cx) = some state) :
    Going { p with state, polling := true }
      (noteDecode p (.poll room cx) { p with state, polling := true } n) := by
  obtain ⟨buffer', before, chunks, hstage', hthrough, hanswers, hbytes⟩ := h.bytes
  have hnone : p.unread = [] := by
    unfold Decoding.unread
    rw [hpolling]
  rw [hnone, List.append_nil] at hbytes
  have hnote : noteDecode p (.poll room cx) { p with state, polling := true } n =
      { n with watch := noteWatch p.state (.poll (.read room) cx) state n.watch } := by
    unfold noteDecode
    rw [hstage]
  rw [hnote]
  rcases poll_cases hnext with ⟨hpending, rfl⟩ | ⟨-, hempty, rfl⟩ | ⟨hclear, hsome, rfl⟩
  · refine ⟨⟨buffer', before, chunks, hstage', hthrough, hanswers, ?_⟩, h.erred, h.empty, ?_, nofun, ?_, nofun⟩
    · show buffer' ++ [] ++ p.state.buffered = chunks.flatten
      rw [List.append_nil, hbytes]
    · exact fun _ => ⟨nofun, fun e => nofun⟩
    · intro call' cx' hp
      cases hp
      exact ⟨room, hroom, rfl⟩
  · refine ⟨⟨buffer', before, chunks, hstage', hthrough, hanswers, ?_⟩, h.erred, fun _ => hempty, ?_, nofun,
      nofun, nofun⟩
    · show buffer' ++ [] ++ p.state.buffered = chunks.flatten
      rw [List.append_nil, hbytes]
    · exact fun _ => ⟨nofun, fun e => nofun⟩
  · -- something is buffered, and there is room for some of it
    have htaken : p.state.buffered.take (min room p.state.buffered.length) ≠ [] := by
      intro hnil
      have hlength := congrArg List.length hnil
      have hpos := List.length_pos_of_ne_nil hsome
      rw [List.length_take, List.length_nil] at hlength
      omega
    refine ⟨⟨buffer', before, chunks, hstage', hthrough, hanswers, ?_⟩, h.erred, ?_, ?_, nofun, nofun, nofun⟩
    · show buffer' ++ p.state.buffered.take (min room p.state.buffered.length) ++
        p.state.buffered.drop (min room p.state.buffered.length) = chunks.flatten
      rw [List.append_assoc, List.take_append_drop, hbytes]
    · intro hpending
      rw [show p.state.pending = true from hpending] at hclear
      cases hclear
    · refine fun _ => ⟨fun hp => htaken ?_, fun e => nofun⟩
      simpa [State.ready] using hp

/-- The poll has found nothing, and goes to sleep. -/
def ReadPoller.sleeps : ReadPoller B E → Bool
  | .replacingWaker _ => true
  | .sending => true
  | .idle (some .pending) => true
  | _ => false

/-- A step on the way to sleep. -/
theorem Going.sleeps {state : State B E} {watch : Watch} (h : Going p n) (hpolling : p.polling = true)
    (hnone : p.unread = []) (hto : state.poller.sleeps = true) (hway : state.onItsWay = p.state.onItsWay)
    (hbuf : state.buffered = p.state.buffered) (hpending : state.pending = p.state.pending)
    (herred : watch.erred = false) :
    Going ({ p with state } : Decoding B E F T) { n with watch } := by
  obtain ⟨buffer, before, chunks, hstage, hthrough, hanswers, hbytes⟩ := h.bytes
  have hnot : ∀ {poller : ReadPoller B E}, poller.sleeps = false → state.poller ≠ poller := by
    intro poller hawake hp
    rw [hp, hawake] at hto
    cases hto
  refine ⟨⟨buffer, before, chunks, hstage, hthrough, ?_, ?_⟩, herred, ?_, ?_, ?_, ?_, hnot rfl⟩
  · show n.answers = before ++ state.onItsWay.toList
    rw [hway]
    exact hanswers
  · have hunread : ({ p with state } : Decoding B E F T).unread = [] := by
      unfold Decoding.unread
      show (match p.polling, state.poller with
        | true, .idle (some (.read bytes)) => bytes
        | _, _ => []) = []
      split
      next bytes _ hp => exact absurd hp (hnot rfl)
      next => rfl
    rw [hunread, ← hnone]
    show buffer ++ p.unread ++ state.buffered = chunks.flatten
    rw [hbuf]
    exact hbytes
  · intro hp
    exact hbuf.trans (h.empty (hpending.symm.trans hp))
  · exact fun _ => ⟨hnot rfl, fun e => hnot rfl⟩
  · intro hidle
    rw [show p.polling = false from hidle] at hpolling
    cases hpolling
  · exact fun call cx hp => absurd hp (hnot rfl)

/-- A step of a poll: its response comes, in the end. -/
theorem Going.calls {state : State B E} (h : Going p n) (hw : Watched p.state n.watch)
    (hconnected : Connected p.state) (hnext : next p.state .poller = some state) :
    Standing handle ({ p with state } : Decoding B E F T)
      (noteDecode p .poller { p with state } n) := by
  obtain ⟨buffer, before, chunks, hstage, hthrough, hanswers, hbytes⟩ := h.bytes
  have hpolling : p.polling = true := by
    rcases hpolling : p.polling with _ | _
    · have hidle := h.between hpolling
      cases hp : p.state.poller with
      | idle answer =>
          have hnext : pollerNext p.state = some state := hnext
          simp [pollerNext, hp] at hnext
      | _ =>
          rw [hp] at hidle
          cases hidle
    · rfl
  have hunread : ∀ {poller : ReadPoller B E}, p.state.poller = poller →
      (∀ bytes, poller ≠ .idle (some (.read bytes))) → p.unread = [] := by
    intro poller hp hne
    unfold Decoding.unread
    rw [hp, hpolling]
    cases poller with
    | idle answer =>
        rcases answer with _ | answer
        · rfl
        · cases answer with
          | read bytes => exact absurd rfl (hne bytes)
          | _ => rfl
    | _ => rfl
  cases next_moves hnext with
  | @takes call cx x hp hread =>
      obtain ⟨room, hroom, rfl⟩ := h.room call cx hp
      have hrests := hw.resting (taking_free hnext hp) (by rw [hread]; rfl)
      have hway : p.state.onItsWay = some (.ok x) := by
        unfold State.onItsWay
        rw [hread]
      have hbuf : p.state.buffered = [] := h.empty (hw.asking (Or.inr (Or.inl (by rw [hp]; rfl))))
      rw [hunread hp (by simp), hbuf, List.append_nil, List.append_nil] at hbytes
      have hanswers : n.answers = before ++ [.ok x] := by
        rw [hanswers, hway]
        rfl
      have herred : (n.watch.erred || p.state.failedRead) = false := by
        unfold State.failedRead
        rw [h.erred, hread]
        rfl
      by_cases hx : x = []
      · -- nothing was read: that is the end
        subst hx
        have hwhole : Complete n.answers buffer := ⟨before, chunks, hanswers, hthrough, hbytes⟩
        exact .emptied ⟨hrests, Or.inl ⟨_, rfl⟩⟩ hpolling hstage (by simp [State.ready, State.drain]) hwhole
      · have htaken : x.take (min room x.length) ≠ [] := by
          intro hnil
          have hlength := congrArg List.length hnil
          have hpos := List.length_pos_of_ne_nil hx
          rw [List.length_take, List.length_nil] at hlength
          omega
        refine .going ⟨⟨buffer, before ++ [.ok x], chunks ++ [x], hstage, ?_, ?_, ?_⟩, ?_,
          by simp [State.ready, State.drain], ?_, ?_, by simp [State.ready], by simp [State.ready]⟩
        · refine ⟨?_, fun chunk hmem => ?_⟩
          · rw [hthrough.all, List.map_append]
            rfl
          · rcases List.mem_append.mp hmem with hmem | hmem
            · exact hthrough.some chunk hmem
            · rw [List.mem_singleton.mp hmem]
              exact hx
        · have hnothing : (State.ready { p.state with read := none, buffered := x, pending := false }
              (.read room)).onItsWay = none := onItsWay_rests hrests
          show n.answers = before ++ [.ok x] ++ Option.toList _
          rw [hnothing, hanswers]
          exact (List.append_nil _).symm
        · have hunread' : ({ p with
              state := State.ready { p.state with read := none, buffered := x, pending := false }
                (.read room) } : Decoding B E F T).unread = x.take (min room x.length) := by
            simp only [Decoding.unread, hpolling, State.ready]
          rw [hunread']
          show buffer ++ x.take (min room x.length) ++ x.drop (min room x.length) = (chunks ++ [x]).flatten
          rw [List.append_assoc, List.take_append_drop, hbytes]
          simp
        · exact (congrArg Watch.erred (noteWatch_taking (t := p.state) hp)).trans herred
        · refine fun _ => ⟨fun hnil => htaken ?_, by simp [State.ready]⟩
          simpa [State.ready] using hnil
        · intro hidle
          rw [show p.polling = false from hidle] at hpolling
          cases hpolling
  | @fails call cx e hp hread =>
      have hrests := hw.resting (taking_free hnext hp) (by rw [hread]; rfl)
      have hway : p.state.onItsWay = some (.error e) := by
        unfold State.onItsWay
        rw [hread]
      refine .broke ⟨hrests, Or.inl ⟨_, rfl⟩⟩ hpolling hstage rfl ⟨before, chunks, ?_, hthrough⟩
      show n.answers = before ++ [.error e]
      rw [hanswers, hway]
      rfl
  | misses hp hread =>
      have herred : (n.watch.erred || p.state.failedRead) = false := by
        unfold State.failedRead
        rw [h.erred, hread]
        rfl
      exact .going (h.sleeps hpolling (hunread hp (by simp)) rfl rfl rfl rfl
        ((congrArg Watch.erred (noteWatch_taking (t := p.state) hp)).trans herred))
  | replaces hp =>
      refine .going (h.sleeps hpolling (hunread hp (by simp)) rfl rfl rfl rfl ?_)
      simp only [noteWatch, hp]
      exact h.erred
  | stores hp =>
      refine .going (h.sleeps hpolling (hunread hp (by simp)) rfl rfl rfl rfl ?_)
      simp only [noteWatch, hp]
      exact h.erred
  | «meets» hp hb =>
      refine .going (h.sleeps hpolling (hunread hp (by simp)) rfl ?_ rfl rfl ?_)
      · unfold State.onItsWay
        rw [hb]
        cases p.state.read <;> rfl
      · simp only [noteWatch, hp]
        exact h.erred
  | unheard hp hb =>
      have hdropped := hconnected.adapter (hconnected.thread hb)
      rw [hp] at hdropped
      cases hdropped

/-- A look at the waker is no error taken. -/
theorem noteWatch_thread (s t : State B E) (answer : ReaderAnswer B E) (w : Watch) :
    (noteWatch s (.bg answer) t w).erred = w.erred := by
  cases hb : s.bg with
  | waking =>
      unfold noteWatch
      rw [hb]
      rfl
  | _ => rw [noteWatch_bg (by rw [hb]; nofun)]

/-- A step of the thread: an answer of the reader is on its way as soon as it is seen. -/
theorem Going.thread {answer : ReaderAnswer B E} {state : State B E} (h : Going p n)
    (hw : Watched p.state n.watch) (hnext : next p.state (.bg answer) = some state) :
    Going ({ p with state } : Decoding B E F T) (noteDecode p (.bg answer) { p with state } n) := by
  obtain ⟨buffer, before, chunks, hstage, hthrough, hanswers, hbytes⟩ := h.bytes
  have hmoves := next_moves hnext
  have hempty : p.state.bg.busy = 1 → p.state.read = none := by
    intro hbusy
    cases hread : p.state.read with
    | none => rfl
    | some res =>
        have hidle := hw.single (by rw [hread]; rfl)
        omega
  have hframe : state.poller = p.state.poller ∧ state.buffered = p.state.buffered ∧
      state.pending = p.state.pending := by
    cases hmoves with
    | _ => exact ⟨rfl, rfl, rfl⟩
  have hway : noteAnswer answer n.answers = before ++ state.onItsWay.toList := by
    cases hmoves with
    | produced hb | readFailed hb =>
        have hread := hempty (by rw [hb]; rfl)
        have hnone : p.state.onItsWay = none := by
          unfold State.onItsWay
          rw [hread, hb]
        rw [hnone] at hanswers
        simp [noteAnswer, State.onItsWay, hanswers, hread]
    | @puts res hb =>
        have hread := hempty (by rw [hb]; rfl)
        simpa [noteAnswer, State.onItsWay, hread, hb] using hanswers
    | disconnected hb | wakes hb | releases hb =>
        have hsame : p.state.onItsWay = p.state.read := by
          unfold State.onItsWay
          rw [hb]
          cases p.state.read <;> rfl
        rw [hsame] at hanswers
        cases hread : p.state.read with
        | none => simpa [noteAnswer, State.onItsWay, hread] using hanswers
        | some res => simpa [noteAnswer, State.onItsWay, hread] using hanswers
  have hunread : ({ p with state } : Decoding B E F T).unread = p.unread := by
    unfold Decoding.unread
    show (match p.polling, state.poller with
      | true, .idle (some (.read bytes)) => bytes
      | _, _ => []) = _
    rw [hframe.1]
  refine ⟨⟨buffer, before, chunks, hstage, hthrough, hway, ?_⟩, ?_, ?_, ?_, ?_, ?_, ?_⟩
  · rw [hunread]
    show buffer ++ p.unread ++ state.buffered = chunks.flatten
    rw [hframe.2.1]
    exact hbytes
  · exact (noteWatch_thread p.state state answer n.watch).trans h.erred
  · intro hpending
    exact hframe.2.1.trans (h.empty (hframe.2.2.symm.trans hpending))
  · intro hpolling
    show state.poller ≠ _ ∧ ∀ e, state.poller ≠ _
    rw [hframe.1]
    exact h.more hpolling
  · intro hpolling
    show state.poller.isIdle = true
    rw [hframe.1]
    exact h.between hpolling
  · intro call cx hp
    exact h.room call cx (hframe.1.symm.trans hp)
  · exact fun hp => h.calm (hframe.1.symm.trans hp)

/-- `read_to_end` reads an answer, which is not the last. -/
theorem Going.reads {answer : ReadAnswer B E} {stage : DecodeStage B E F T} (h : Going p n)
    (hpolling : p.polling = true) (hp : p.state.poller = .idle (some answer))
    (hread : p.stage.read answer = some stage) :
    Going ({ p with stage, polling := false } : Decoding B E F T) n := by
  obtain ⟨buffer, before, chunks, hstage, hthrough, hanswers, hbytes⟩ := h.bytes
  obtain ⟨hmore, hfine⟩ := h.more hpolling
  have hroom : ∀ call cx, p.state.poller = .taking call cx → ∃ room, 0 < room ∧ call = .read room := by
    intro call cx htaking
    rw [hp] at htaking
    cases htaking
  have hidle : p.state.poller.isIdle = true := by rw [hp]; rfl
  obtain ⟨buffer', hstage', hcases⟩ := stageRead_cases hread
  obtain rfl : buffer' = buffer := by
    rw [hstage] at hstage'
    cases hstage'
    rfl
  rcases hcases with ⟨rfl, -⟩ | ⟨bytes, rfl, -, rfl⟩ | ⟨rfl, rfl⟩ | ⟨e, rfl, -⟩
  · exact absurd hp hmore
  · have hunread : p.unread = bytes := by
      unfold Decoding.unread
      rw [hpolling, hp]
    rw [hunread] at hbytes
    refine ⟨⟨buffer' ++ bytes, before, chunks, rfl, hthrough, hanswers, ?_⟩, h.erred, h.empty, nofun,
      fun _ => hidle, hroom, h.calm⟩
    show buffer' ++ bytes ++ [] ++ p.state.buffered = chunks.flatten
    rw [List.append_nil]
    exact hbytes
  · have hunread : p.unread = [] := by
      unfold Decoding.unread
      rw [hpolling, hp]
    rw [hunread] at hbytes
    exact ⟨⟨buffer', before, chunks, rfl, hthrough, hanswers, hbytes⟩, h.erred, h.empty, nofun, fun _ => hidle,
      hroom, h.calm⟩
  · exact absurd hp (hfine e)

/-- **A step of `decode`**, wherever it stands. -/
theorem Standing.step (h : Standing handle p n) (hw : Watched p.state n.watch) (hconnected : Connected p.state)
    (hs : DecodeMoves handle p ev q) : Standing handle q (noteDecode p ev q n) := by
  have hanswers : (∀ answer, ev ≠ .bg answer) → (noteDecode p ev q n).answers = n.answers :=
    noteDecode_answers
  cases h with
  | going hgoing =>
      obtain ⟨buffer, before, chunks, hstage, -⟩ := hgoing.bytes
      cases hs with
      | polls hpolling hstage' hroom hnext => exact .going (hgoing.polls hpolling hstage' hroom hnext)
      | decodes hstage' | drops hstage' =>
          rw [hstage] at hstage'
          cases hstage'
      | reads hpolling hp hread => exact .going (hgoing.reads hpolling hp hread)
      | calls hnext => exact hgoing.calls hw hconnected hnext
      | thread hnext => exact .going (hgoing.thread hw hnext)
  | emptied hsettled hpolling hstage hp hcomplete =>
      cases hs with
      | polls hpolling' =>
          rw [hpolling] at hpolling'
          cases hpolling'
      | decodes hstage' | drops hstage' =>
          rw [hstage] at hstage'
          cases hstage'
      | reads _ hp' hread =>
          rw [hp] at hp'
          cases hp'
          rw [hstage] at hread
          cases hread
          exact .handling ⟨hsettled.rests, hsettled.still⟩ rfl hcomplete
      | calls hnext => exact absurd hnext hsettled.no_call
      | thread hnext =>
          obtain ⟨rfl, hsettled', hpoller⟩ := hsettled.thread hnext
          exact .emptied hsettled' hpolling hstage (hpoller.trans hp) hcomplete
  | broke hsettled hpolling hstage hp hbroken =>
      cases hs with
      | polls hpolling' =>
          rw [hpolling] at hpolling'
          cases hpolling'
      | decodes hstage' | drops hstage' =>
          rw [hstage] at hstage'
          cases hstage'
      | reads _ hp' hread =>
          rw [hp] at hp'
          cases hp'
          rw [hstage] at hread
          cases hread
          exact .ended ⟨hsettled.rests, hsettled.still⟩ rfl (Or.inr (Or.inr ⟨_, rfl, hbroken⟩))
      | calls hnext => exact absurd hnext hsettled.no_call
      | thread hnext =>
          obtain ⟨rfl, hsettled', hpoller⟩ := hsettled.thread hnext
          exact .broke hsettled' hpolling hstage (hpoller.trans hp) hbroken
  | @handling buffer hsettled hstage hcomplete =>
      cases hs with
      | polls _ hstage' | drops hstage' =>
          rw [hstage] at hstage'
          cases hstage'
      | @decodes room cx buffer' decode hstage' hhandle =>
          rw [hstage] at hstage'
          cases hstage'
          have hkept := hanswers nofun
          have hended : ∃ res, (.ended res : DecodeStage B E F T) = .handled (decode buffer) := by
            cases decode buffer with
            | ok value => exact ⟨.ok value, rfl⟩
            | error e => exact ⟨.error (.handle e), rfl⟩
          obtain ⟨res, hres⟩ := hended
          refine .ended ⟨hsettled.rests, hsettled.still⟩ hres.symm (Or.inr (Or.inl ⟨decode, buffer, hhandle, ?_,
            hres⟩))
          rw [hkept]
          exact hcomplete
      | reads _ _ hread =>
          rw [hstage] at hread
          cases hread
      | calls hnext => exact absurd hnext hsettled.no_call
      | thread hnext =>
          obtain ⟨rfl, hsettled', -⟩ := hsettled.thread hnext
          exact .handling hsettled' hstage hcomplete
  | @ended res hsettled hstage hresult =>
      have hsame : (noteDecode p ev q n).answers = n.answers →
          Result handle res (noteDecode p ev q n) := by
        intro hkept
        unfold Result
        rw [hkept]
        exact hresult
      cases hs with
      | polls _ hstage' | decodes hstage' =>
          rw [hstage] at hstage'
          cases hstage'
      | drops _ hnext =>
          have hdropped : next p.state .drop = some _ := hnext
          cases next_moves hdropped with
          | drops => exact .ended ⟨hsettled.rests, Or.inr rfl⟩ hstage (hsame (hanswers nofun))
      | reads _ _ hread =>
          rw [hstage] at hread
          cases hread
      | calls hnext => exact absurd hnext hsettled.no_call
      | thread hnext =>
          obtain ⟨rfl, hsettled', -⟩ := hsettled.thread hnext
          exact .ended hsettled' hstage (hsame rfl)

end Steps

/-! ## Runs of `decode` -/

/-- **`Kept handle p`** — what holds in every state of a run. -/
structure Kept (handle : Option (List B → Except F T)) (p : Decoding B E F T × Heard B E) : Prop where
  watched : Watched p.1.state p.2.watch
  connected : Connected p.1.state
  attended : Attended (p.1.state, p.2.watch)
  standing : Standing handle p.1 p.2

/-- No poll goes to sleep behind an error. -/
theorem Standing.inTime {n : Heard B E} (h : Standing handle p n)
    (hlock : p.state.poller.holdsLock = true) : n.watch.erred = false := by
  have hnot : Settled p → False := by
    intro hsettled
    rcases hsettled.still with ⟨answer, hp⟩ | hp
    · rw [hp] at hlock
      cases hlock
    · rw [hp] at hlock
      cases hlock
  cases h with
  | going hgoing => exact hgoing.erred
  | emptied hsettled | broke hsettled | handling hsettled | ended hsettled => exact (hnot hsettled).elim

theorem Standing.calm {n : Heard B E} (h : Standing handle p n) : p.state.poller ≠ .panicked := by
  have hsettled : Settled p → p.state.poller ≠ .panicked := by
    intro hsettled hpanicked
    rcases hsettled.still with ⟨answer, hp⟩ | hp
    · rw [hpanicked] at hp
      cases hp
    · rw [hpanicked] at hp
      cases hp
  cases h with
  | going hgoing => exact hgoing.calm
  | emptied h | broke h | handling h | ended h => exact hsettled h

/-- What a step does to the disk and its observer: nothing, or one of their own steps. -/
theorem DecodeMoves.disk (h : DecodeMoves handle p ev q) (n : Heard B E) :
    (q.state = p.state ∧ (noteDecode p ev q n).watch = n.watch) ∨
      ∃ sev, next p.state sev = some q.state ∧
        (noteDecode p ev q n).watch = noteWatch p.state sev q.state n.watch := by
  cases h with
  | polls _ hstage _ hnext =>
      refine Or.inr ⟨_, hnext, ?_⟩
      unfold noteDecode
      rw [hstage]
  | decodes hstage =>
      refine Or.inl ⟨rfl, ?_⟩
      unfold noteDecode
      rw [hstage]
  | drops hstage hnext =>
      refine Or.inr ⟨.drop, hnext, ?_⟩
      unfold noteDecode
      rw [hstage]
      rfl
  | reads => exact Or.inl ⟨rfl, rfl⟩
  | calls hnext => exact Or.inr ⟨_, hnext, rfl⟩
  | thread hnext => exact Or.inr ⟨_, hnext, rfl⟩

theorem Kept.step {n : Heard B E} (h : Kept handle (p, n)) (hs : DecodeMoves handle p ev q) :
    Kept handle (q, noteDecode p ev q n) := by
  have hstanding := h.standing.step h.watched h.connected hs
  rcases hs.disk n with ⟨hstate, hwatch⟩ | ⟨sev, hnext, hwatch⟩
  · refine ⟨?_, ?_, ?_, hstanding⟩
    · show Watched q.state (noteDecode p ev q n).watch
      rw [hstate, hwatch]
      exact h.watched
    · show Connected q.state
      rw [hstate]
      exact h.connected
    · show Attended (q.state, (noteDecode p ev q n).watch)
      rw [hstate, hwatch]
      exact h.attended
  · refine ⟨?_, h.connected.step (next_moves hnext), ?_, hstanding⟩
    · show Watched q.state (noteDecode p ev q n).watch
      rw [hwatch]
      exact h.watched.step h.connected hnext
    · show Attended (q.state, (noteDecode p ev q n).watch)
      rw [hwatch]
      exact attended_step h.attended h.watched h.connected hnext fun _ hlock => h.standing.inTime hlock

theorem Kept.decodes {n : Heard B E} (h : Kept handle (p, n)) : Decodes handle (p, n) := by
  refine ⟨fun buffer hstage => ?_, fun res hstage => ?_, h.standing.calm, h.attended.at_rest⟩
  · have hstage : p.stage = .handling buffer := hstage
    cases h.standing with
    | going hgoing =>
        obtain ⟨buffer', -, -, hstage', -⟩ := hgoing.bytes
        rw [hstage] at hstage'
        cases hstage'
    | emptied _ _ hstage' | broke _ _ hstage' | ended _ hstage' =>
        rw [hstage] at hstage'
        cases hstage'
    | handling _ hstage' hcomplete =>
        rw [hstage] at hstage'
        cases hstage'
        exact hcomplete
  · have hstage : p.stage = .ended res := hstage
    cases h.standing with
    | going hgoing =>
        obtain ⟨buffer', -, -, hstage', -⟩ := hgoing.bytes
        rw [hstage] at hstage'
        cases hstage'
    | emptied _ _ hstage' | broke _ _ hstage' | handling _ hstage' =>
        rw [hstage] at hstage'
        cases hstage'
    | ended _ hstage' hresult =>
        rw [hstage] at hstage'
        cases hstage'
        exact hresult

theorem kept_run (bufferSize : Nat) (handle : Option (List B → Except F T))
    {tr : List (DecodeEvent B E × (Decoding B E F T × Heard B E))}
    (htr : IsTrace (Steps (observed (decodeNext handle) noteDecode)) (.new bufferSize handle, .start) tr) :
    StatesMeet (Kept handle) (.new bufferSize handle, .start) tr := by
  refine invariant (fun p ev q h hs => ?_) ?_ htr
  · obtain ⟨hnext, hnote⟩ := observed_inv hs
    obtain ⟨q, n⟩ := q
    obtain rfl : n = noteDecode p.1 ev q p.2 := hnote
    exact h.step (decodeNext_moves hnext)
  · exact ⟨watched_new bufferSize, connected_new bufferSize, attended_none _ false,
      standing_new bufferSize handle⟩

/-- **Decoding through the adapters**: in every run of `decode` and of the thread behind its disk, whatever the
reader answers, the handle gets all that the reader gave before its first empty answer; a result is what the
handle made of that, or the first error of the reader; no poll panics; and a `decode` that waits, with both sides
at rest, has been woken or the thread is in the reader. -/
theorem decode_exact (bufferSize : Nat) (handle : Option (List B → Except F T))
    {tr : List (DecodeEvent B E × (Decoding B E F T × Heard B E))}
    (htr : IsTrace (Steps (observed (decodeNext handle) noteDecode)) (.new bufferSize handle, .start) tr) :
    StatesMeet (Decodes handle) (.new bufferSize handle, .start) tr := by
  have hkept := kept_run bufferSize handle htr
  exact ⟨hkept.1.decodes, fun x hx => (hkept.2 x hx).decodes⟩

/-- Three bytes are decoded over a buffer of two, in two answers, and a third that is empty. -/
def threeRead : List (DecodeEvent Nat Unit × (Decoding Nat Unit Unit Nat × Heard Nat Unit)) :=
  follow (observed (decodeNext (some fun bytes => .ok bytes.length)) noteDecode)
    (.new 2 (some fun bytes => .ok bytes.length), .start)
    [.poll 32 0, .poller, .poller, .read, .bg (.read [7, 8]), .bg .silent, .bg .silent, .bg .silent,
      .poll 32 0, .poller, .read, .poll 32 0, .poller, .poller, .read, .bg (.read [9]), .bg .silent,
      .bg .silent, .bg .silent, .poll 32 0, .poller, .read, .poll 32 0, .poller, .poller, .read, .bg (.read []),
      .bg .silent, .bg .silent, .bg .silent, .poll 32 0, .poller, .read, .poll 32 0]

theorem decode_exact_three :
    (last (.new 2 (some fun bytes => .ok bytes.length), .start) threeRead).1.stage = .ended (.ok 3) ∧
      StatesMeet (Decodes (some fun bytes => .ok bytes.length))
        (.new 2 (some fun bytes => .ok bytes.length), .start) threeRead :=
  ⟨by decide, decode_exact 2 (some fun bytes => .ok bytes.length) (isTrace_follow _ _ _)⟩

end BackedData.Adapters.AsyncRead
