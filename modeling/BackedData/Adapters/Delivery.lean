/-
# BackedData.Adapters.Delivery — the bytes of the Write commands, once each and in order

The background thread keeps a position inside the command it carries out.  Short writes move it, an error
leaves it where it is, and a retry goes on from it.  So whatever the inner writer answers and whenever the
poller grants a retry, what the inner writer has accepted is a prefix of the commands' data, the success of
a command is sent only behind its last byte, and the bytes offered next are those behind the accepted ones
(`delivery_inOrder`).
-/
import BackedData.Adapters.AsyncWriteFlush

namespace BackedData.Adapters

open Logic.Trace

set_option autoImplicit false

variable {B E : Type} {s t : State B E} {ev : Event B E}

/-! ## What is handed to the thread -/

/-- The data of a Write command. -/
def AsyncWriteCommand.writes : AsyncWriteCommand B → List (List B)
  | .write data => [data]
  | .flush => []

/-- The data of the Write commands handed to the thread, in order, and the number of them whose success
has been sent. -/
structure Handed (B : Type) where
  commands : List (List B)
  acknowledged : Nat
  deriving DecidableEq, Repr

/-- What an observer of the channels writes down. -/
def noteHanded (s : State B E) (ev : Event B E) (t : State B E) (n : Handed B) : Handed B :=
  match ev with
  | .poller =>
      { n with
        commands := n.commands ++ (t.cmds.drop s.cmds.length).flatMap AsyncWriteCommand.writes }
  | .bg answer =>
      match s.bg, answer with
      | .writing _ _, .silent => { n with acknowledged := n.acknowledged + 1 }
      | _, _ => n
  | _ => n

/-- **`InOrder p`** — the accepted bytes are a prefix of the commands' data; all bytes of an acknowledged
command are among them; and what the thread offers next begins right behind them. -/
structure InOrder (p : State B E × Handed B) : Prop where
  accepted : p.1.writer <+: p.2.commands.flatten
  acknowledged : p.2.acknowledged ≤ p.2.commands.length ∧
    (p.2.commands.take p.2.acknowledged).flatten <+: p.1.writer
  offered : ∀ data pos, p.1.bg = .writing data pos →
    p.1.writer ++ data.drop pos <+: p.2.commands.flatten

/-! ## The invariant -/

/-- The data of the command in work. -/
def Bg.held : Bg B E → List (List B)
  | .writing data _ => [data]
  | .reporting data _ _ => [data]
  | .waiting data _ => [data]
  | _ => []

/-- The bytes of it that have been accepted. -/
def Bg.taken : Bg B E → List B
  | .writing data pos => data.take pos
  | .reporting data pos _ => data.take pos
  | .waiting data pos => data.take pos
  | _ => []

/-- **`Splits s n done current taken later`** — the commands handed over are those done, the current one
and later ones; accepted are the bytes of the first and some of the second.  While the thread is there,
the second is the command in its hands, the third the queue. -/
structure Splits (s : State B E) (n : Handed B) (done current : List (List B)) (taken : List B)
    (later : List (List B)) : Prop where
  acknowledged : n.acknowledged = done.length
  commands : n.commands = done ++ current ++ later
  part : taken <+: current.flatten
  writer : s.writer = done.flatten ++ taken
  working : s.bg.stopped = false →
    current = s.bg.held ∧ taken = s.bg.taken ∧ later = s.cmds.flatMap AsyncWriteCommand.writes

/-- **`Delivers s n`** — the commands split so. -/
def Delivers (s : State B E) (n : Handed B) : Prop :=
  ∃ done current taken later, Splits s n done current taken later

theorem delivers_new (bufferMinSize : Nat) : Delivers (.new bufferMinSize : State B E) ⟨[], 0⟩ :=
  ⟨[], [], [], [], rfl, rfl, List.prefix_refl [], rfl, fun _ => ⟨rfl, rfl, rfl⟩⟩

/-- What a caller sees of a state, from the invariant. -/
theorem Delivers.inOrder {n : Handed B} (h : Delivers s n) : InOrder (s, n) := by
  obtain ⟨done, current, taken, later, hack, hcommands, hpart, hwriter, hworking⟩ := h
  have hflat : n.commands.flatten = done.flatten ++ (current.flatten ++ later.flatten) := by
    rw [hcommands, List.flatten_append, List.flatten_append, List.append_assoc]
  refine ⟨?_, ⟨?_, ?_⟩, fun data pos hb => ?_⟩
  · show s.writer <+: n.commands.flatten
    rw [hwriter, hflat, List.prefix_append_right_inj]
    exact hpart.trans (List.prefix_append _ _)
  · show n.acknowledged ≤ n.commands.length
    rw [hack, hcommands, List.append_assoc, List.length_append]
    exact Nat.le_add_right _ _
  · show (n.commands.take n.acknowledged).flatten <+: s.writer
    rw [hack, hcommands, List.append_assoc, List.take_left, hwriter]
    exact List.prefix_append _ _
  · change s.bg = .writing data pos at hb
    show s.writer ++ data.drop pos <+: n.commands.flatten
    obtain ⟨rfl, rfl, -⟩ := hworking (by rw [hb]; rfl)
    have hcurrent : (s.bg.held).flatten = data := by
      rw [hb]
      exact List.append_nil data
    have htaken : s.bg.taken = data.take pos := by rw [hb]; rfl
    rw [hwriter, hflat, hcurrent, htaken, List.append_assoc, List.prefix_append_right_inj,
      List.take_append_drop]
    exact List.prefix_append _ _

/-! ## Steps of the poller -/

/-- A step of a call puts commands behind the queue, and touches neither the thread nor the writer. -/
theorem poller_queue (h : PollerMoves s t) :
    (∃ cmds, t.cmds = s.cmds ++ cmds) ∧ t.bg = s.bg ∧ t.writer = s.writer := by
  cases h with
  | @sent cmd poller hsends => exact ⟨⟨[cmd], rfl⟩, rfl, rfl⟩
  | _ => exact ⟨⟨[], (List.append_nil _).symm⟩, rfl, rfl⟩

theorem Delivers.poller {n : Handed B} (h : Delivers s n) (hs : PollerMoves s t) :
    Delivers t (noteHanded s .poller t n) := by
  obtain ⟨done, current, taken, later, hack, hcommands, hpart, hwriter, hworking⟩ := h
  obtain ⟨⟨cmds, hcmds⟩, hbg, hw⟩ := poller_queue hs
  have hnote : noteHanded s .poller t n =
      { n with commands := n.commands ++ cmds.flatMap AsyncWriteCommand.writes } := by
    simp only [noteHanded, hcmds, List.drop_left]
  rw [hnote]
  refine ⟨done, current, taken, later ++ cmds.flatMap AsyncWriteCommand.writes, hack, ?_, hpart, ?_,
    fun halive => ?_⟩
  · show n.commands ++ _ = _
    rw [hcommands, List.append_assoc]
  · rw [hw]
    exact hwriter
  · rw [hbg] at halive
    obtain ⟨hcurrent, htaken, hlater⟩ := hworking halive
    rw [hbg, hcmds, List.flatMap_append, hlater]
    exact ⟨hcurrent, htaken, rfl⟩

/-! ## Steps of the thread -/

/-- A step of the thread that leaves the command in its hands, the queue and the writer as they are. -/
theorem Delivers.move {n : Handed B} (h : Delivers s n) (halive : s.bg.stopped = false)
    (hwriter : t.writer = s.writer) (hcmds : t.cmds = s.cmds)
    (hbg : t.bg.stopped = true ∨ t.bg.held = s.bg.held ∧ t.bg.taken = s.bg.taken) : Delivers t n := by
  obtain ⟨done, current, taken, later, hack, hcommands, hpart, hwriter', hworking⟩ := h
  refine ⟨done, current, taken, later, hack, hcommands, hpart, hwriter.trans hwriter', fun hgoes => ?_⟩
  obtain ⟨hcurrent, htaken, hlater⟩ := hworking halive
  rcases hbg with hstopped | ⟨hheld, htaken'⟩
  · rw [hstopped] at hgoes
    cases hgoes
  · rw [hheld, htaken', hcmds]
    exact ⟨hcurrent, htaken, hlater⟩

/-- The thread takes a command into its hands. -/
theorem Delivers.received {n : Handed B} {cmd : AsyncWriteCommand B}
    {cmds : List (AsyncWriteCommand B)} (h : Delivers s n) (hb : s.bg = .recv)
    (hc : s.cmds = cmd :: cmds) : Delivers { s with cmds, bg := cmd.work } n := by
  obtain ⟨done, current, taken, later, hack, hcommands, hpart, hwriter, hworking⟩ := h
  obtain ⟨hcurrent, htaken, hlater⟩ := hworking (by rw [hb]; rfl)
  rw [hb] at hcurrent htaken
  rw [hc, List.flatMap_cons] at hlater
  have hheld : (cmd.work : Bg B E).held = cmd.writes := by
    cases cmd with
    | write data => rfl
    | flush => rfl
  have hnone : (cmd.work : Bg B E).taken = [] := by
    cases cmd with
    | write data => rfl
    | flush => rfl
  refine ⟨done, cmd.writes, [], cmds.flatMap AsyncWriteCommand.writes, hack, ?_, List.nil_prefix, ?_,
    fun _ => ⟨hheld.symm, hnone.symm, rfl⟩⟩
  · rw [hcommands, hcurrent, hlater]
    simp only [Bg.held, List.append_nil, List.append_assoc]
  · show s.writer = _
    rw [hwriter, htaken]
    rfl

/-- The inner writer accepts some of the bytes behind the position. -/
theorem Delivers.wrote {n : Handed B} {data : List B} {pos advance : Nat} (h : Delivers s n)
    (hb : s.bg = .writing data pos) :
    Delivers
      { s with
        writer := s.writer ++ (data.drop pos).take advance
        bg := .writing data (pos + advance) } n := by
  obtain ⟨done, current, taken, later, hack, hcommands, hpart, hwriter, hworking⟩ := h
  obtain ⟨rfl, rfl, hlater⟩ := hworking (by rw [hb]; rfl)
  have hheld : s.bg.held = [data] := by rw [hb]; rfl
  have htaken : s.bg.taken = data.take pos := by rw [hb]; rfl
  rw [htaken] at hwriter
  refine ⟨done, [data], data.take (pos + advance), later, hack, ?_, ?_, ?_, fun _ => ⟨rfl, rfl, hlater⟩⟩
  · rw [hcommands, hheld]
  · show data.take (pos + advance) <+: data ++ []
    rw [List.append_nil]
    exact List.take_prefix _ _
  · show s.writer ++ (data.drop pos).take advance = _
    rw [hwriter, List.append_assoc, ← List.take_add]

/-- The loop over the data is done, and its success is sent. -/
theorem Delivers.written {n : Handed B} {data : List B} {pos : Nat} (h : Delivers s n)
    (hb : s.bg = .writing data pos) (hlen : data.length ≤ pos) :
    Delivers (s.sendStatus (.ok ()) .recv) { n with acknowledged := n.acknowledged + 1 } := by
  rw [State.sendStatus_eq]
  obtain ⟨done, current, taken, later, hack, hcommands, hpart, hwriter, hworking⟩ := h
  obtain ⟨rfl, rfl, hlater⟩ := hworking (by rw [hb]; rfl)
  have hheld : s.bg.held = [data] := by rw [hb]; rfl
  have htaken : s.bg.taken = data := by
    rw [hb]
    exact List.take_of_length_le hlen
  refine ⟨done ++ [data], [], [], later, ?_, ?_, List.prefix_refl [], ?_, fun _ => ?_⟩
  · show n.acknowledged + 1 = _
    rw [hack, List.length_append, List.length_singleton]
  · show n.commands = _
    rw [hcommands, hheld, List.append_nil]
  · show s.writer = _
    rw [hwriter, htaken]
    simp only [List.flatten_append, List.flatten_cons, List.flatten_nil, List.append_nil]
  · exact ⟨rfl, rfl, hlater⟩

/-- **Every step of the thread** keeps the commands split. -/
theorem Delivers.bg {n : Handed B} {answer : InnerAnswer E} (h : Delivers s n)
    (hs : bgNext s answer = some t) : Delivers t (noteHanded s (.bg answer) t n) := by
  cases bgNext_moves hs with
  | received hb hc =>
      simp only [noteHanded, hb]
      exact h.received hb hc
  | disconnected hb =>
      simp only [noteHanded, hb]
      exact h.move (by rw [hb]; rfl) rfl rfl (Or.inl rfl)
  | wrote hb =>
      simp only [noteHanded, hb]
      exact h.wrote hb
  | interrupted =>
      have hnote : noteHanded s (.bg .interrupted) s n = n := by
        simp only [noteHanded]
        split
        next hsilent => cases hsilent
        next => rfl
      rw [hnote]
      exact h
  | writeFailed hb =>
      simp only [noteHanded, hb]
      exact h.move (by rw [hb]; rfl) rfl rfl (Or.inr (by rw [hb]; exact ⟨rfl, rfl⟩))
  | written hb hlen =>
      simp only [noteHanded, hb]
      exact h.written hb hlen
  | reported hb =>
      simp only [noteHanded, hb, State.sendStatus_eq]
      exact h.move (by rw [hb]; rfl) rfl rfl (Or.inr (by rw [hb]; exact ⟨rfl, rfl⟩))
  | unheard hb | abandoned hb =>
      simp only [noteHanded, hb]
      exact h.move (by rw [hb]; rfl) rfl rfl (Or.inl rfl)
  | resumed hb =>
      -- the retry goes on where the error was
      simp only [noteHanded, hb]
      exact h.move (by rw [hb]; rfl) rfl rfl (Or.inr (by rw [hb]; exact ⟨rfl, rfl⟩))
  | wokenUp hb =>
      simp only [noteHanded, hb]
      exact h
  | flushed hb | flushFailed hb | waking hb =>
      simp only [noteHanded, hb]
      exact h.move (by rw [hb]; rfl) rfl rfl (Or.inr (by rw [hb]; exact ⟨rfl, rfl⟩))
  | answered hb =>
      simp only [noteHanded, hb, State.sendStatus_eq]
      exact h.move (by rw [hb]; rfl) rfl rfl (Or.inr (by rw [hb]; exact ⟨rfl, rfl⟩))

/-- **The step lemma.** -/
theorem Delivers.step {p q : State B E × Handed B} (h : Delivers p.1 p.2)
    (hs : observed next noteHanded p ev = some q) : Delivers q.1 q.2 := by
  obtain ⟨s, n⟩ := p
  obtain ⟨t, n'⟩ := q
  obtain ⟨hnext, hnote⟩ := observed_inv hs
  change next s ev = some t at hnext
  change n' = noteHanded s ev t n at hnote
  subst hnote
  -- a call that starts touches neither the thread nor the queue
  have hstart : t.writer = s.writer → t.cmds = s.cmds → t.bg = s.bg → Delivers t n := by
    intro hw hc hb
    obtain ⟨done, current, taken, later, hack, hcommands, hpart, hwriter, hworking⟩ := h
    refine ⟨done, current, taken, later, hack, hcommands, hpart, hw.trans hwriter, ?_⟩
    rw [hb, hc]
    exact hworking
  cases ev with
  | bg answer => exact h.bg hnext
  | poller => exact h.poller (pollerNext_moves hnext)
  | pollWrite buf =>
      obtain ⟨-, rfl | rfl⟩ := pollWrite_inv hnext
      · exact hstart rfl rfl rfl
      · exact hstart rfl rfl rfl
  | pollFlush cx =>
      obtain ⟨-, rfl⟩ := pollFlush_inv hnext
      exact hstart rfl rfl rfl
  | drop =>
      obtain ⟨-, rfl⟩ := drop_inv hnext
      exact hstart rfl rfl rfl

/-- Two commands; the first is accepted in two pieces with an error and a granted retry between. -/
def resumedWrite : List (Event Nat Unit × (State Nat Unit × Handed Nat)) :=
  follow (observed next noteHanded) (.new 2, ⟨[], 0⟩)
    [.pollWrite [7, 8], .poller, .poller, .bg .silent, .bg (.wrote 1), .bg (.failed ()), .bg .silent,
      .bg .silent, .pollWrite [9, 9], .poller, .pollWrite [9, 9], .poller, .poller, .poller,
      .bg .silent, .bg .interrupted, .bg (.wrote 1), .bg .silent, .bg .silent]

example : (last (.new 2, ⟨[], 0⟩) resumedWrite).1.writer = [7, 8] ∧
    (last (.new 2, ⟨[], 0⟩) resumedWrite).2 = ⟨[[7, 8], [9, 9]], 1⟩ := by decide

end BackedData.Adapters
