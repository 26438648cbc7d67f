/-
# BackedData.Adapters.ReadExchange — one Read at a time, and no byte lost between the threads

A Read command and its response are counted by an observer: sent when the two sides meet, taken when a poll
takes the response out of the slot.  At most one is on its way, so the slot is never overwritten and a
buffer is never replaced before it is used up: what the reader has produced is what was consumed, what is
buffered, and the response on its way, in order (`exchange_whole`).

`pending` is to say that a response is on its way.  It is set with every command and cleared with every
response but an error.  `pendingFlag_exact`: over any run the flag is right in every state exactly when no poll
takes an error.  Behind one, the flag stays set and every later poll waits for a response that nobody sends.
-/
import BackedData.Adapters.AsyncRead

namespace BackedData.Adapters.AsyncRead

open Logic.Trace

set_option autoImplicit false

variable {B E : Type} {s t : State B E} {ev : Event B E}

/-! ## Commands and responses -/

/-- The Read commands that the thread has received, and the responses that polls have taken. -/
structure Exchange where
  sent : Nat
  taken : Nat
  deriving DecidableEq, Repr

/-- What an observer of the channel and of the slot counts. -/
def noteExchange (s : State B E) (ev : Event B E) (_ : State B E) (n : Exchange) : Exchange :=
  match ev with
  | .poller =>
      match s.poller, s.bg, s.read with
      | .sending, .recv, _ => { n with sent := n.sent + 1 }
      | .taking _ _, _, some _ => { n with taken := n.taken + 1 }
      | _, _, _ => n
  | _ => n

/-- The bytes of a result. -/
def bytesOf : Except E (List B) → List B
  | .ok bytes => bytes
  | .error _ => []

/-- The bytes of the response in the thread's hands. -/
def ReadBg.held : ReadBg B E → List B
  | .holding res => bytesOf res
  | _ => []

/-- The response on its way: in the slot, or in the thread's hands. -/
def State.response (s : State B E) : List B := (s.read.map bytesOf).getD [] ++ s.bg.held

/-- **`Whole p`** — the bytes consumed, those buffered and those of the response on its way are the bytes
produced; and at most one Read command has no response taken. -/
structure Whole (p : State B E × Exchange) : Prop where
  bytes : p.1.consumed ++ p.1.buffered ++ p.1.response = p.1.produced
  single : p.2.sent ≤ p.2.taken + 1

/-! ## The invariant -/

/-- The thread has a command whose response is not in the slot yet. -/
def ReadBg.busy : ReadBg B E → Nat
  | .reading => 1
  | .holding _ => 1
  | _ => 0

/-- The call has set `pending`, and sends the command next. -/
def ReadPoller.requesting : ReadPoller B E → Bool
  | .storingWaker _ => true
  | .sending => true
  | _ => false

/-- The call takes from the slot next. -/
def ReadPoller.isTaking : ReadPoller B E → Bool
  | .taking _ _ => true
  | _ => false

/-- **`Flows s n`** — the bytes are all there; every command sent and not answered is with the thread or in
the slot; where `pending` is clear, or a command is still to be sent, there is none; and while it is set
the buffer is empty. -/
structure Flows (s : State B E) (n : Exchange) : Prop where
  bytes : s.consumed ++ s.buffered ++ s.response = s.produced
  underway : n.sent = n.taken + s.bg.busy + (if s.read.isSome then 1 else 0)
  single : n.sent ≤ n.taken + 1
  clear : s.pending = false ∨ s.poller.requesting = true → n.sent = n.taken
  empty : s.pending = true → s.buffered = []
  asking : s.poller.requesting = true ∨ s.poller.isTaking = true → s.pending = true

theorem flows_new (bufferSize : Nat) : Flows (.new bufferSize : State B E) ⟨0, 0⟩ where
  bytes := rfl
  underway := rfl
  single := Nat.zero_le 1
  clear _ := rfl
  empty := nofun
  asking := by rintro (h | h) <;> cases h

/-- A step that moves the poller's program counter, and touches the waker at most. -/
theorem Flows.move {n : Exchange} {poller : ReadPoller B E} {waker : Option Nat} {cmdTx : Bool}
    (h : Flows s n) (hrequesting : poller.requesting = true → s.poller.requesting = true)
    (htaking : poller.isTaking = true → s.pending = true) :
    Flows { s with poller, waker, cmdTx } n := by
  refine ⟨h.bytes, h.underway, h.single, ?_, h.empty, ?_⟩
  · rintro (hclear | hreq)
    · exact h.clear (Or.inl hclear)
    · exact h.clear (Or.inr (hrequesting hreq))
  · rintro (hreq | htake)
    · exact h.asking (Or.inl (hrequesting hreq))
    · exact htaking htake

/-- Taking from the front of the buffer. -/
theorem Flows.drain {n : Exchange} (h : Flows s n) (amt : Nat) {poller : ReadPoller B E}
    (hrequesting : poller.requesting = false) (htaking : poller.isTaking = false) :
    Flows { s.drain amt with poller } n := by
  refine ⟨?_, h.underway, h.single, ?_, fun hp => ?_, ?_⟩
  · show s.consumed ++ s.buffered.take amt ++ s.buffered.drop amt ++ s.response = s.produced
    rw [List.append_assoc s.consumed, List.take_append_drop]
    exact h.bytes
  · rintro (hclear | hreq)
    · exact h.clear (Or.inl hclear)
    · rw [show poller.requesting = true from hreq] at hrequesting
      cases hrequesting
  · show s.buffered.drop amt = []
    rw [h.empty hp, List.drop_nil]
  · rintro (hreq | htake)
    · rw [show poller.requesting = true from hreq] at hrequesting
      cases hrequesting
    · rw [show poller.isTaking = true from htake] at htaking
      cases htaking

/-- The end of a call that has something buffered. -/
theorem Flows.ready {n : Exchange} (h : Flows s n) (call : ReadCall) : Flows (s.ready call) n := by
  cases call with
  | fillBuf => exact h.move nofun nofun
  | read bufLen => exact h.drain _ rfl rfl

/-- A poll takes a response out of the slot: it is the only one, and the buffer is empty. -/
theorem Flows.taken {n : Exchange} {x : List B} (h : Flows s n) (hpending : s.pending = true)
    (hread : s.read = some (.ok x)) :
    Flows { s with read := none, buffered := x, pending := false, poller := .idle none }
      { n with taken := n.taken + 1 } := by
  have hunderway := h.underway
  rw [hread] at hunderway
  simp only [Option.isSome_some, if_true] at hunderway
  have hsingle := h.single
  have hbusy : s.bg.busy = 0 := by omega
  have hheld : s.bg.held = [] := by
    cases hb : s.bg with
    | holding res =>
        rw [hb] at hbusy
        cases hbusy
    | _ => rfl
  have hbytes := h.bytes
  rw [h.empty hpending, List.append_nil] at hbytes
  refine ⟨?_, ?_, ?_, fun _ => ?_, nofun, ?_⟩
  · show s.consumed ++ x ++ ([] ++ s.bg.held) = s.produced
    rw [← hbytes]
    unfold State.response
    rw [hread, hheld]
    simp only [Option.map_some, Option.getD_some, bytesOf, List.append_nil]
  · show n.sent = n.taken + 1 + s.bg.busy + 0
    omega
  · show n.sent ≤ n.taken + 1 + 1
    omega
  · show n.sent = n.taken + 1
    omega
  · rintro (hreq | htake)
    · cases hreq
    · cases htake

/-- A poll takes an error out of the slot; `pending` stays set. -/
theorem Flows.failed {n : Exchange} {e : E} {poller : ReadPoller B E} (h : Flows s n)
    (hpending : s.pending = true) (hread : s.read = some (.error e))
    (hrequesting : poller.requesting = false) :
    Flows { s with read := none, poller } { n with taken := n.taken + 1 } := by
  have hunderway := h.underway
  rw [hread] at hunderway
  simp only [Option.isSome_some, if_true] at hunderway
  have hsingle := h.single
  refine ⟨?_, ?_, ?_, ?_, h.empty, fun _ => hpending⟩
  · have hbytes := h.bytes
    unfold State.response at hbytes
    rw [hread] at hbytes
    exact hbytes
  · show n.sent = n.taken + 1 + s.bg.busy + 0
    omega
  · show n.sent ≤ n.taken + 1 + 1
    omega
  · rintro (hclear | hreq)
    · rw [show s.pending = false from hclear] at hpending
      cases hpending
    · rw [show poller.requesting = true from hreq] at hrequesting
      cases hrequesting

/-- A step of the thread that keeps its response on its way. -/
theorem Flows.bg {n : Exchange} {bg : ReadBg B E} {read : Option (Except E (List B))}
    {waker : Option Nat} (h : Flows s n)
    (hresponse : (read.map bytesOf).getD [] ++ bg.held = s.response)
    (hunderway : bg.busy + (if read.isSome then 1 else 0) =
      s.bg.busy + (if s.read.isSome then 1 else 0)) :
    Flows { s with bg, read, waker } n := by
  refine ⟨?_, ?_, h.single, h.clear, h.empty, h.asking⟩
  · show s.consumed ++ s.buffered ++ ((read.map bytesOf).getD [] ++ bg.held) = s.produced
    rw [hresponse]
    exact h.bytes
  · have hold := h.underway
    show n.sent = n.taken + bg.busy + (if read.isSome then 1 else 0)
    omega

/-- A move of the thread that leaves what it holds. -/
theorem Flows.silent {n : Exchange} {bg : ReadBg B E} {waker : Option Nat} (h : Flows s n)
    (hheld : bg.held = s.bg.held) (hbusy : bg.busy = s.bg.busy) : Flows { s with bg, waker } n := by
  refine h.bg ?_ ?_
  · unfold State.response
    rw [hheld]
  · rw [hbusy]

/-- While the thread is busy the slot is empty: at most one response is on its way. -/
theorem Flows.slot_empty {n : Exchange} (h : Flows s n) (hbusy : s.bg.busy = 1) : s.read = none := by
  have hunderway := h.underway
  have hsingle := h.single
  cases hr : s.read with
  | none => rfl
  | some r =>
      rw [hr] at hunderway
      simp only [Option.isSome_some, if_true] at hunderway
      omega

/-- The two sides meet on the channel. -/
theorem Flows.met {n : Exchange} (h : Flows s n) (hp : s.poller = .sending) (hb : s.bg = .recv) :
    Flows { s with bg := .reading, poller := .idle (some .pending) } { n with sent := n.sent + 1 } := by
  have hclear : n.sent = n.taken := h.clear (Or.inr (by rw [hp]; rfl))
  have hpending : s.pending = true := h.asking (Or.inl (by rw [hp]; rfl))
  have hunderway := h.underway
  rw [hb] at hunderway
  change n.sent = n.taken + 0 + _ at hunderway
  refine ⟨?_, ?_, ?_, ?_, h.empty, ?_⟩
  · have hbytes := h.bytes
    unfold State.response at hbytes
    rw [hb] at hbytes
    exact hbytes
  · show n.sent + 1 = n.taken + 1 + (if s.read.isSome then 1 else 0)
    omega
  · show n.sent + 1 ≤ n.taken + 1
    omega
  · rintro (hc | hreq)
    · rw [show s.pending = false from hc] at hpending
      cases hpending
    · cases hreq
  · rintro (hreq | htake)
    · cases hreq
    · cases htake

/-- The reader produces bytes: they are the response from here on. -/
theorem Flows.produced {n : Exchange} {bytes : List B} (h : Flows s n) (hb : s.bg = .reading) :
    Flows { s with produced := s.produced ++ bytes, bg := .holding (.ok bytes) } n := by
  have hbytes := h.bytes
  unfold State.response at hbytes
  rw [hb] at hbytes
  have hunderway := h.underway
  rw [hb] at hunderway
  refine ⟨?_, hunderway, h.single, h.clear, h.empty, h.asking⟩
  show s.consumed ++ s.buffered ++ ((s.read.map bytesOf).getD [] ++ bytes) = s.produced ++ bytes
  rw [← hbytes]
  simp only [ReadBg.held, List.append_nil, List.append_assoc]

/-- A call that requests sets `pending`: the buffer is empty, and no response is on its way. -/
theorem Flows.requested {n : Exchange} {cx : Nat} (h : Flows s n) (hpending : s.pending = false)
    (hbuffered : s.buffered = []) : Flows { s with pending := true, poller := .storingWaker cx } n :=
  ⟨h.bytes, h.underway, h.single, fun _ => h.clear (Or.inl hpending), fun _ => hbuffered, fun _ => rfl⟩

/-- A step that is none of the two sides' meeting points is not counted. -/
theorem noteExchange_still {n : Exchange} (hp : s.poller ≠ .sending) (htaking : s.poller.isTaking = false) :
    noteExchange s .poller t n = n := by
  unfold noteExchange
  cases hpoller : s.poller with
  | sending => exact absurd hpoller hp
  | taking call cx =>
      rw [hpoller] at htaking
      cases htaking
  | _ => rfl

/-- A poll that finds a response in the slot takes it. -/
theorem noteExchange_taken {n : Exchange} {call : ReadCall} {cx : Nat} {res : Except E (List B)}
    (hp : s.poller = .taking call cx) (hread : s.read = some res) :
    noteExchange s .poller t n = { n with taken := n.taken + 1 } := by
  unfold noteExchange
  rw [hp, hread]

/-- A poll that finds the slot empty takes nothing. -/
theorem noteExchange_missed {n : Exchange} {call : ReadCall} {cx : Nat}
    (hp : s.poller = .taking call cx) (hread : s.read = none) : noteExchange s .poller t n = n := by
  unfold noteExchange
  rw [hp, hread]

/-- **The step lemma.** -/
theorem Flows.step {n : Exchange} (h : Flows s n) (hs : Moves s ev t) :
    Flows t (noteExchange s ev t n) := by
  have hready : ∀ (u : State B E) (call : ReadCall),
      u.ready call = ({ u with poller := .idle none } : State B E).ready call := by
    intro u call
    cases call with
    | fillBuf => rfl
    | read bufLen => rfl
  cases hs with
  | waits _ hpending => exact h.move nofun fun _ => hpending
  | requests _ hpending hbuffered => exact h.requested hpending hbuffered
  | serves => exact h.ready _
  | consumes => exact h.drain _ rfl rfl
  | overdrawn | drops => exact h.move nofun nofun
  | @takes call cx x hp hread =>
      have hpending : s.pending = true := h.asking (Or.inr (by rw [hp]; rfl))
      rw [noteExchange_taken hp hread, hready]
      exact (h.taken hpending hread).ready call
  | fails hp hread =>
      have hpending : s.pending = true := h.asking (Or.inr (by rw [hp]; rfl))
      rw [noteExchange_taken hp hread]
      exact h.failed hpending hread rfl
  | misses hp hread =>
      rw [noteExchange_missed hp hread]
      exact h.move nofun nofun
  | replaces hp =>
      rw [noteExchange_still (by rw [hp]; nofun) (by rw [hp]; rfl)]
      exact h.move nofun nofun
  | stores hp =>
      rw [noteExchange_still (by rw [hp]; nofun) (by rw [hp]; rfl)]
      exact h.move (fun _ => by rw [hp]; rfl) nofun
  | «meets» hp hb =>
      simp only [noteExchange, hp, hb]
      exact h.met hp hb
  | unheard hp hb =>
      have hnote : ∀ u, noteExchange s .poller u n = n := by
        intro u
        simp only [noteExchange, hp, hb]
      rw [hnote]
      exact h.move nofun nofun
  | disconnected hb => exact h.silent (by rw [hb]; rfl) (by rw [hb]; rfl)
  | produced hb => exact h.produced hb
  | readFailed hb => exact h.silent (by rw [hb]; rfl) (by rw [hb]; rfl)
  | @puts res hb =>
      have hbusy : s.bg.busy = 1 := by rw [hb]; rfl
      have hread := h.slot_empty hbusy
      refine h.bg ?_ ?_
      · unfold State.response
        rw [hread, hb]
        simp [ReadBg.held]
      · rw [hread, hbusy]
        rfl
  | wakes hb | releases hb => exact h.silent (by rw [hb]; rfl) (by rw [hb]; rfl)

/-- **The exchange.**  Over any run of the adapter and its thread, with any results of the reader, any
buffer size, and any calls: the bytes consumed, those buffered and those of the response on its way are
what the reader has produced, in order; and at most one Read command is outstanding. -/
theorem exchange_whole (bufferSize : Nat) {tr : List (Event B E × (State B E × Exchange))}
    (htr : IsTrace (Steps (observed next noteExchange)) (.new bufferSize, ⟨0, 0⟩) tr) :
    StatesMeet Whole (.new bufferSize, ⟨0, 0⟩) tr := by
  have hall := invariant (P := fun p : State B E × Exchange => Flows p.1 p.2)
    (fun p ev q h hs => by
      obtain ⟨hnext, hnote⟩ := observed_inv hs
      rw [hnote]
      exact h.step (next_moves hnext)) (flows_new bufferSize) htr
  exact ⟨⟨hall.1.bytes, hall.1.single⟩, fun x hx => ⟨(hall.2 x hx).bytes, (hall.2 x hx).single⟩⟩

/-- Three bytes are read in two responses, with a buffer of two; the caller looks at the first response,
consumes a byte of it and copies the other. -/
def twoResponses : List (Event Nat Unit × (State Nat Unit × Exchange)) :=
  follow (observed next noteExchange) (.new 2, ⟨0, 0⟩)
    [.poll .fillBuf 0, .poller, .poller, .poll .fillBuf 0, .poller, .bg (.read [7, 8]), .poller,
      .bg .silent, .bg .silent, .bg .silent, .poll .fillBuf 0, .poller, .consume 1,
      .poll (.read 5) 0, .poll (.read 5) 0, .poller, .poller, .bg (.read [9]), .bg .silent]

theorem exchange_whole_two : StatesMeet Whole (.new 2, ⟨0, 0⟩) twoResponses :=
  exchange_whole 2 (isTrace_follow _ _ _)

example : (last (.new 2, ⟨0, 0⟩) twoResponses).1.consumed = [7, 8] ∧
    (last (.new 2, ⟨0, 0⟩) twoResponses).1.response = [9] ∧
    (last (.new 2, ⟨0, 0⟩) twoResponses).2 = ⟨2, 1⟩ := by decide

/-! ## The flag -/

/-- **`FlagRight p`** — `pending` is set exactly when one Read command has been sent, or is about to be by
the call in progress, whose response no poll has taken; and a poll that goes to sleep on the slot has a
response to wait for. -/
structure FlagRight (p : State B E × Exchange) : Prop where
  flag : p.1.pending = true ↔ p.2.sent = p.2.taken + 1 ∨ p.1.poller.requesting = true
  awaited : ∀ cx, p.1.poller = .replacingWaker cx → p.2.sent = p.2.taken + 1

/-- The slot holds an error. -/
def State.failedRead (s : State B E) : Bool :=
  match s.read with
  | some (.error _) => true
  | _ => false

/-- The step does not take an error out of the slot. -/
def NoErrorTaken (p : State B E × Exchange) (ev : Event B E) (_ : State B E × Exchange) : Prop :=
  ev = .poller → p.1.poller.isTaking = true → p.1.failedRead = false

instance [DecidableEq B] [DecidableEq E] (p : State B E × Exchange) (ev : Event B E)
    (q : State B E × Exchange) : Decidable (NoErrorTaken p ev q) :=
  inferInstanceAs (Decidable (_ → _))

theorem flagRight_new (bufferSize : Nat) : FlagRight ((.new bufferSize, ⟨0, 0⟩) : State B E × Exchange) where
  flag := ⟨nofun, by rintro (h | h) <;> cases h⟩
  awaited := nofun

/-- A step that leaves the flag and the counts alone, outside the request. -/
theorem FlagRight.keep {n : Exchange} (h : FlagRight (s, n)) (hpending : t.pending = s.pending)
    (hrequesting : t.poller.requesting = s.poller.requesting)
    (hawaited : ∀ cx, t.poller = .replacingWaker cx →
      s.poller = .replacingWaker cx ∨ n.sent = n.taken + 1) : FlagRight (t, n) := by
  refine ⟨?_, fun cx hp => ?_⟩
  · show t.pending = true ↔ n.sent = n.taken + 1 ∨ t.poller.requesting = true
    rw [hpending, hrequesting]
    exact h.flag
  · rcases hawaited cx hp with hold | hsent
    · exact h.awaited cx hold
    · exact hsent

/-- The thread is gone only where the adapter is. -/
structure Connected (s : State B E) : Prop where
  thread : s.bg = .returned → s.cmdTx = false
  adapter : s.cmdTx = false → s.poller = .dropped

theorem connected_new (bufferSize : Nat) : Connected (.new bufferSize : State B E) := ⟨nofun, nofun⟩

theorem Connected.step (h : Connected s) (hs : Moves s ev t) : Connected t := by
  -- a step of a call is made by an adapter that is there
  have hthere : s.poller ≠ .dropped → s.cmdTx = true := fun hp =>
    Bool.not_eq_false _ ▸ fun htx => hp (h.adapter htx)
  have hidle : s.poller.isIdle = true → s.poller ≠ .dropped := by
    intro hi hp
    rw [hp] at hi
    cases hi
  have hcall : s.cmdTx = true → t.cmdTx = s.cmdTx → t.bg ≠ .returned → Connected t := by
    intro htx hsame hbg
    refine ⟨fun hb => absurd hb hbg, fun hf => ?_⟩
    rw [hsame, htx] at hf
    cases hf
  have hbg : s.cmdTx = true → s.bg ≠ .returned := by
    intro htx hb
    rw [h.thread hb] at htx
    cases htx
  cases hs with
  | waits hi | requests hi | consumes hi | overdrawn hi =>
      have htx := hthere (hidle hi)
      exact hcall htx rfl (hbg htx)
  | @serves call cx hi =>
      have htx := hthere (hidle hi)
      cases call with
      | fillBuf => exact hcall htx rfl (hbg htx)
      | read bufLen => exact hcall htx rfl (hbg htx)
  | drops => exact ⟨fun _ => rfl, fun _ => rfl⟩
  | @takes call cx x hp =>
      have htx := hthere (by rw [hp]; nofun)
      cases call with
      | fillBuf => exact hcall htx rfl (hbg htx)
      | read bufLen => exact hcall htx rfl (hbg htx)
  | fails hp | misses hp | replaces hp | stores hp | unheard hp =>
      have htx := hthere (by rw [hp]; nofun)
      exact hcall htx rfl (hbg htx)
  | «meets» hp => exact hcall (hthere (by rw [hp]; nofun)) rfl nofun
  | disconnected hb htx => exact ⟨fun _ => htx, h.adapter⟩
  | produced | readFailed | puts | wakes | releases => exact ⟨nofun, h.adapter⟩

/-- What holds of the flag as long as no error is taken. -/
structure Flagged (p : State B E × Exchange) : Prop where
  flows : Flows p.1 p.2
  connected : Connected p.1
  right : FlagRight p

/-- Behind the end of a call nothing is to be sent. -/
theorem ready_poller (s : State B E) (call : ReadCall) :
    (s.ready call).pending = s.pending ∧ (s.ready call).poller.requesting = false ∧
      ∀ cx, (s.ready call).poller ≠ .replacingWaker cx := by
  cases call with
  | fillBuf => exact ⟨rfl, rfl, nofun⟩
  | read bufLen => exact ⟨rfl, rfl, nofun⟩

/-- **One step that takes no error** keeps the flag right. -/
theorem Flagged.right_step {n : Exchange} (h : Flagged (s, n)) (hs : Moves s ev t)
    (hcond : NoErrorTaken (s, n) ev (t, noteExchange s ev t n)) :
    FlagRight (t, noteExchange s ev t n) := by
  obtain ⟨hflows, hconnected, hright⟩ := h
  have hidle : s.poller.isIdle = true → s.poller.requesting = false := by
    intro hi
    cases hp : s.poller with
    | idle answer => rfl
    | _ =>
        rw [hp] at hi
        cases hi
  cases hs with
  | waits hi hpending =>
      refine hright.keep rfl ?_ nofun
      rw [hidle hi]
      rfl
  | requests hi hpending hbuffered => exact ⟨⟨fun _ => Or.inr rfl, fun _ => rfl⟩, nofun⟩
  | @serves call cx hi =>
      obtain ⟨hpending, hrequesting, hreplacing⟩ := ready_poller s call
      refine hright.keep hpending ?_ fun cx' hp => absurd hp (hreplacing cx')
      rw [hrequesting, hidle hi]
  | consumes hi | overdrawn hi | drops hi =>
      refine hright.keep rfl ?_ nofun
      rw [hidle hi]
      rfl
  | @takes call cx x hp hread =>
      obtain ⟨hpending, hrequesting, hreplacing⟩ :=
        ready_poller { s with read := none, buffered := x, pending := false } call
      rw [noteExchange_taken hp hread]
      have hunderway : n.sent = n.taken + s.bg.busy + (if s.read.isSome then 1 else 0) :=
        hflows.underway
      have hsingle : n.sent ≤ n.taken + 1 := hflows.single
      refine ⟨?_, fun cx' hp' => absurd hp' (hreplacing cx')⟩
      show (State.ready _ call).pending = true ↔
        n.sent = n.taken + 1 + 1 ∨ (State.ready _ call).poller.requesting = true
      rw [hpending, hrequesting]
      constructor
      · nofun
      · rintro (hsent | hreq)
        · omega
        · cases hreq
  | @fails call cx e hp hread =>
      -- the flag would stay set with nothing on its way
      have hnone := hcond rfl (by rw [hp]; rfl)
      unfold State.failedRead at hnone
      rw [show s.read = some (.error e) from hread] at hnone
      cases hnone
  | misses hp hread =>
      rw [noteExchange_missed hp hread]
      have hpending : s.pending = true := hflows.asking (Or.inr (by rw [hp]; rfl))
      have hsent : n.sent = n.taken + 1 := by
        refine (hright.flag.mp hpending).resolve_right ?_
        rw [hp]
        nofun
      refine hright.keep rfl ?_ fun _ _ => Or.inr hsent
      rw [hp]
      rfl
  | replaces hp =>
      rw [noteExchange_still (by rw [hp]; nofun) (by rw [hp]; rfl)]
      refine hright.keep rfl ?_ nofun
      rw [hp]
      rfl
  | stores hp =>
      rw [noteExchange_still (by rw [hp]; nofun) (by rw [hp]; rfl)]
      refine hright.keep rfl ?_ nofun
      rw [hp]
      rfl
  | «meets» hp hb =>
      simp only [noteExchange, hp, hb]
      have hclear : n.sent = n.taken := hflows.clear (Or.inr (by rw [hp]; rfl))
      have hpending : s.pending = true := hflows.asking (Or.inl (by rw [hp]; rfl))
      refine ⟨⟨fun _ => Or.inl ?_, fun _ => hpending⟩, nofun⟩
      show n.sent + 1 = n.taken + 1
      rw [hclear]
  | unheard hp hb =>
      have hdropped := hconnected.adapter (hconnected.thread hb)
      rw [show s.poller = .sending from hp] at hdropped
      cases hdropped
  | disconnected | produced | readFailed | puts | wakes | releases =>
      exact hright.keep rfl rfl fun _ hp => Or.inl hp

/-- A step that takes an error leaves the flag set with nothing to wait for. -/
theorem Flagged.wrong_step {n : Exchange} (h : Flagged (s, n)) (hs : Moves s ev t)
    (hright : FlagRight (t, noteExchange s ev t n)) :
    NoErrorTaken (s, n) ev (t, noteExchange s ev t n) := by
  intro hev htaking
  subst hev
  obtain ⟨hflows, -, -⟩ := h
  change s.failedRead = false
  cases hs with
  | takes hp hread =>
      unfold State.failedRead
      rw [hread]
  | misses hp hread =>
      unfold State.failedRead
      rw [hread]
  | @fails call cx e hp hread =>
      exfalso
      have hpending : s.pending = true := hflows.asking (Or.inr htaking)
      rw [noteExchange_taken hp hread] at hright
      rcases hright.flag.mp hpending with hsent | hreq
      · change n.sent = n.taken + 1 + 1 at hsent
        have hsingle : n.sent ≤ n.taken + 1 := hflows.single
        omega
      · cases hreq
  | replaces hp | stores hp | «meets» hp | unheard hp =>
      change s.poller.isTaking = true at htaking
      rw [hp] at htaking
      cases htaking

/-- **The exact condition of the flag.**  Over any run of the adapter and its thread, with any results of
the reader: `pending` is right in every state exactly when no step takes an error out of the slot. -/
theorem pendingFlag_exact (bufferSize : Nat) {tr : List (Event B E × (State B E × Exchange))}
    (htr : IsTrace (Steps (observed next noteExchange)) (.new bufferSize, ⟨0, 0⟩) tr) :
    StatesMeet FlagRight (.new bufferSize, ⟨0, 0⟩) tr ↔
      StepsMeet NoErrorTaken (.new bufferSize, ⟨0, 0⟩) tr := by
  have hnew : Flagged ((.new bufferSize, ⟨0, 0⟩) : State B E × Exchange) :=
    ⟨flows_new bufferSize, connected_new bufferSize, flagRight_new bufferSize⟩
  have hiff : StepsMeet (fun _ _ q => FlagRight q) (.new bufferSize, ⟨0, 0⟩) tr ↔
      StepsMeet NoErrorTaken (.new bufferSize, ⟨0, 0⟩) tr := stepsMeet_iff (I := Flagged)
    (fun p ev q h hs hc => by
      obtain ⟨s, n⟩ := p
      obtain ⟨t, n'⟩ := q
      obtain ⟨hnext, hnote⟩ := observed_inv hs
      change n' = noteExchange s ev t n at hnote
      subst hnote
      have hmoves : Moves s ev t := next_moves hnext
      exact ⟨h.flows.step hmoves, h.connected.step hmoves, h.right_step hmoves hc⟩)
    (fun p ev q h hs => by
      obtain ⟨s, n⟩ := p
      obtain ⟨t, n'⟩ := q
      obtain ⟨hnext, hnote⟩ := observed_inv hs
      change n' = noteExchange s ev t n at hnote
      subst hnote
      have hmoves : Moves s ev t := next_moves hnext
      exact ⟨h.wrong_step hmoves, h.right_step hmoves⟩) hnew htr
  rw [stepsMeet_post] at hiff
  exact ⟨fun h => hiff.mp h.2, fun h => ⟨hnew.right, hiff.mpr h⟩⟩

/-! ### A read that fails -/

/-- The reader fails once, a poll returns the error, and the next poll is made with the thread idle. -/
def failedRead : List (Event Nat Unit × (State Nat Unit × Exchange)) :=
  follow (observed next noteExchange) (.new 2, ⟨0, 0⟩)
    [.poll .fillBuf 0, .poller, .poller, .bg (.failed ()), .bg .silent, .bg .silent, .bg .silent,
      .poll .fillBuf 0, .poller, .poll .fillBuf 0, .poller, .poller]

/-- The last poll returns `Pending` though the thread waits for a command and the slot is empty. -/
theorem failedRead_stuck :
    failedRead.length = 12 ∧
      (last (.new 2, ⟨0, 0⟩) failedRead).1.poller = .idle (some .pending) ∧
      (last (.new 2, ⟨0, 0⟩) failedRead).1.pending = true ∧
      (last (.new 2, ⟨0, 0⟩) failedRead).1.bg = .recv ∧
      (last (.new 2, ⟨0, 0⟩) failedRead).1.read = none ∧
      (last (.new 2, ⟨0, 0⟩) failedRead).2 = ⟨1, 1⟩ ∧
      ¬StatesMeet FlagRight (.new 2, ⟨0, 0⟩) failedRead := by
  refine ⟨by decide, by decide, by decide, by decide, by decide, by decide, fun h => ?_⟩
  have hflag := h.last.flag
  revert hflag
  decide

theorem pendingFlag_exact_two : StatesMeet FlagRight (.new 2, ⟨0, 0⟩) twoResponses :=
  (pendingFlag_exact 2 (isTrace_follow _ _ _)).mpr (by decide)

end BackedData.Adapters.AsyncRead
