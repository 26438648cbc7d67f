/-
# BackedData.Utils.OnceQueue — when the queue and the flag of `AsyncOnceLock` stay sound

Two things outlive a round of initialization without being renewed.  A waiter keeps its `queue_pos`
while the queue it points into is emptied (`poll_exact`: the positions are right exactly as long as no
waiter is polled in a round later than the one it registered in).  And the flag is cleared only by the
future that set it (`flag_exact`: it tells the truth exactly as long as that future is neither dropped
half-way nor stopped by a poisoned mutex).
-/
import BackedData.Utils.OnceAgreement

namespace BackedData.Utils

open Logic.Trace

set_option autoImplicit false

variable {T E : Type} {s t : State T E} {i : Nat} {fut fut' : TryInitFuture T E}
  {lock : AsyncOnceLock T} {a : Act T E} {ev : Event T E}

/-! ## The queue of wakers -/

/-- Some initialization has ended since future `i` went through `create`, where it registers. -/
def endedSince (i : Nat) (past : List (Event T E)) : Bool :=
  past.foldl
    (fun ended ev =>
      match ev with
      | .act j .create => if j = i then false else ended
      | .act _ (.pollInit (.ready _)) => true
      | _ => ended)
    false

/-- **`FreshPoll`** — no waiting future is polled, while an initialization is under way, after one has
ended since it registered. -/
def FreshPoll (p : List (Event T E) × State T E) :
    Event T E → List (Event T E) × State T E → Prop
  | .act i .pollWaiting, _ => p.2.lock.initializing = true → endedSince i p.1 = false
  | _, _ => True

instance : ∀ (p : List (Event T E) × State T E) ev q, Decidable (FreshPoll p ev q)
  | p, .act i .pollWaiting, _ =>
      inferInstanceAs (Decidable (p.2.lock.initializing = true → endedSince i p.1 = false))
  | _, .spawn, _ => isTrue trivial
  | _, .act _ .get, _ => isTrue trivial
  | _, .act _ .create, _ => isTrue trivial
  | _, .act _ (.pollInit _), _ => isTrue trivial
  | _, .act _ .drop, _ => isTrue trivial

/-- **`PollSafe`** — a waiting future polled during an initialization finds its own waker in its slot;
no future panics; a waker stays where it is until the queue is emptied. -/
structure PollSafe (p : List (Event T E) × State T E) (ev : Event T E)
    (q : List (Event T E) × State T E) : Prop where
  own_slot : ∀ (i : Nat) pos, ev = .act i .pollWaiting → p.2.lock.initializing = true →
    p.2.futs[i]? = some (.waiting pos) → p.2.lock.wakers[pos]? = some i
  no_panic : ∀ i : Nat, q.2.futs[i]? = some .panicked → p.2.futs[i]? = some .panicked
  no_overwrite : ∀ (pos w : Nat), p.2.lock.wakers[pos]? = some w →
    q.2.lock.wakers = [] ∨ q.2.lock.wakers[pos]? = some w

/-- **The queue invariant.**  A waiter of the current round is in its slot; one of an earlier round is
nowhere in the queue. -/
structure Queued (p : List (Event T E) × State T E) : Prop where
  sound : p.2.lock.poisoned = false
  slot : ∀ (i : Nat) pos, p.2.futs[i]? = some (.waiting pos) → endedSince i p.1 = false →
    p.2.lock.wakers[pos]? = some i
  gone : ∀ i : Nat, endedSince i p.1 = true → i ∉ p.2.lock.wakers

/-- An event that neither registers nor ends a round leaves `endedSince` as it was. -/
theorem endedSince_other {past : List (Event T E)} (hreg : ev ≠ .act i .create)
    (hend : ∀ j r, ev ≠ .act j (.pollInit (.ready r))) :
    endedSince i (past ++ [ev]) = endedSince i past := by
  unfold endedSince
  rw [List.foldl_append]
  rcases ev with _ | ⟨j, _ | _ | (_ | r) | _ | _⟩ <;> try rfl
  · have hne : j ≠ i := by
      rintro rfl
      exact hreg rfl
    exact if_neg hne
  · exact absurd rfl (hend j r)

/-- Registering starts afresh. -/
theorem endedSince_create (past : List (Event T E)) :
    endedSince i (past ++ [.act i .create]) = false := by
  unfold endedSince
  rw [List.foldl_append]
  exact if_pos rfl

/-- The end of a round is an end for everyone. -/
theorem endedSince_ready (past : List (Event T E)) (j : Nat) (r : Except E T) :
    endedSince i (past ++ [.act j (.pollInit (.ready r))]) = true := by
  unfold endedSince
  rw [List.foldl_append]
  rfl

theorem queued_new : Queued (([], .new) : List (Event T E) × State T E) where
  sound := rfl
  slot _ _ h := by simp [State.new, State.of] at h
  gone _ _ := List.not_mem_nil

/-- A step that leaves the queue alone, ends no round and makes nobody wait.  If it is the `create` of a
future, that future does not wait after it. -/
theorem Queued.keep {past : List (Event T E)} (h : Queued (past, s))
    (hpoisoned : t.lock.poisoned = false) (hwakers : t.lock.wakers = s.lock.wakers)
    (hwait : ∀ (j : Nat) pos, t.futs[j]? = some (.waiting pos) → s.futs[j]? = some (.waiting pos))
    (hcreate : ∀ (j : Nat) pos, ev = .act j .create → t.futs[j]? ≠ some (.waiting pos))
    (hend : ∀ j r, ev ≠ .act j (.pollInit (.ready r))) : Queued (past ++ [ev], t) := by
  refine ⟨hpoisoned, fun j pos hj hfresh => ?_, fun j hj => ?_⟩
  · have hne : ev ≠ .act j .create := fun hev => hcreate j pos hev hj
    rw [endedSince_other hne hend] at hfresh
    show t.lock.wakers[pos]? = some j
    rw [hwakers]
    exact h.slot j pos (hwait j pos hj) hfresh
  · have hne : ev ≠ .act j .create := by
      rintro rfl
      rw [endedSince_create] at hj
      cases hj
    rw [endedSince_other hne hend] at hj
    show j ∉ t.lock.wakers
    rw [hwakers]
    exact h.gone j hj

/-- A future that does not come out waiting adds no waiter. -/
theorem waiting_of_set {futs : List (TryInitFuture T E)} (hf : futs[i]? = some fut)
    (hnot : ∀ pos, fut' = .waiting pos → fut = .waiting pos) (j pos : Nat)
    (hj : (futs.set i fut')[j]? = some (.waiting pos)) : futs[j]? = some (.waiting pos) := by
  rw [getElem?_set_of_some hf] at hj
  by_cases hij : i = j
  · rw [if_pos hij] at hj
    rw [← hij, hf, hnot pos (Option.some.inj hj)]
  · rwa [if_neg hij] at hj

/-- A future registers at the back of the queue. -/
theorem Queued.enqueue {past : List (Event T E)} (h : Queued (past, s))
    (hf : s.futs[i]? = some fut) :
    Queued (past ++ [.act i .create],
      { lock := { s.lock with wakers := s.lock.wakers ++ [i] },
        futs := s.futs.set i (.waiting s.lock.wakers.length) }) := by
  have hne : ∀ j, i ≠ j → endedSince j (past ++ [.act i .create]) = endedSince j past := by
    intro j hij
    refine endedSince_other (fun hev => ?_) (fun _ _ => nofun)
    cases hev
    exact hij rfl
  refine ⟨h.sound, fun j pos hj hfresh => ?_, fun j hj => ?_⟩
  · show (s.lock.wakers ++ [i])[pos]? = some j
    have hj : (s.futs.set i (.waiting s.lock.wakers.length))[j]? = some (.waiting pos) := hj
    rw [getElem?_set_of_some hf] at hj
    by_cases hij : i = j
    · rw [if_pos hij] at hj
      cases hj
      rw [List.getElem?_append_right (Nat.le_refl _), Nat.sub_self, hij]
      rfl
    · rw [if_neg hij] at hj
      rw [hne j hij] at hfresh
      have hslot := h.slot j pos hj hfresh
      rw [List.getElem?_append_left (List.getElem?_eq_some_iff.mp hslot).1]
      exact hslot
  · show j ∉ s.lock.wakers ++ [i]
    by_cases hij : i = j
    · rw [hij, endedSince_create] at hj
      cases hj
    · rw [hne j hij] at hj
      simp only [List.mem_append, List.mem_singleton, not_or]
      exact ⟨h.gone j hj, fun h => hij h.symm⟩

/-- The end of a round empties the queue. -/
theorem queued_ready {past : List (Event T E)} {r : Except E T}
    (hp : lock.poisoned = false) (hw : lock.wakers = []) (futs : List (TryInitFuture T E)) :
    Queued (past ++ [.act i (.pollInit (.ready r))], { lock, futs }) := by
  refine ⟨hp, fun j pos _ hfresh => ?_, fun j _ => ?_⟩
  · rw [endedSince_ready] at hfresh
    cases hfresh
  · show j ∉ lock.wakers
    rw [hw]
    exact List.not_mem_nil

/-- A fresh waiter is in its own slot, so writing itself there changes nothing. -/
theorem Queued.set_own {past : List (Event T E)} (h : Queued (past, s)) {pos : Nat}
    (hf : s.futs[i]? = some (.waiting pos)) (hfresh : endedSince i past = false) :
    s.lock.wakers.set pos i = s.lock.wakers := by
  have hslot := h.slot i pos hf hfresh
  obtain ⟨hlt, hget⟩ := List.getElem?_eq_some_iff.mp hslot
  have hset := List.set_getElem_self hlt
  rwa [hget] at hset

/-- **The step lemma of the queue**: a fresh poll keeps the queue, and is safe. -/
theorem Queued.act {past : List (Event T E)} {q : List (Event T E) × State T E}
    (h : Queued (past, s)) (hf : s.futs[i]? = some fut)
    (hm : Moves i s.lock fut a lock fut')
    (hq : q = (past ++ [.act i a], { lock, futs := s.futs.set i fut' }))
    (hfresh : FreshPoll (past, s) (.act i a) q) : Queued q := by
  subst hq
  have hsound : s.lock.poisoned = false := h.sound
  have hnope : ∀ {P : Prop}, s.lock.poisoned = true → P := by
    intro P hp
    rw [hsound] at hp
    cases hp
  have hself : ∀ (j pos : Nat), (∀ p, fut' ≠ .waiting p) → (.act i .create : Event T E) = .act j .create →
      (s.futs.set i fut')[j]? ≠ some (.waiting pos) := by
    intro j pos hno hev hj
    cases hev
    rw [getElem?_set_of_some hf, if_pos rfl] at hj
    exact hno pos (Option.some.inj hj)
  cases hm with
  | gotValue _ => exact h.keep hsound rfl (waiting_of_set hf nofun) nofun nofun
  | gotNone _ => exact h.keep hsound rfl (waiting_of_set hf nofun) nofun nofun
  | enqueued _ _ => exact h.enqueue hf
  | createFound _ _ _ =>
      exact h.keep hsound rfl (waiting_of_set hf nofun) (fun j pos => hself j pos nofun) nofun
  | createClaims _ _ _ =>
      exact h.keep hsound rfl (waiting_of_set hf nofun) (fun j pos => hself j pos nofun) nofun
  | createPoisoned hp => exact hnope hp
  | initPending => exact h.keep hsound rfl (waiting_of_set hf nofun) nofun nofun
  | initOk _ =>
      refine queued_ready ?_ rfl _
      exact hsound
  | initErr _ =>
      refine queued_ready ?_ rfl _
      exact hsound
  | initPoisoned hp => exact hnope hp
  | slotUpdated _ hinit hlt =>
      have hset := h.set_own hf (hfresh hinit)
      exact h.keep hsound hset (waiting_of_set hf fun _ h => h) nofun nofun
  | slotMissing _ hinit hge =>
      have hslot := h.slot i _ hf (hfresh hinit)
      have hlt := (List.getElem?_eq_some_iff.mp hslot).1
      exact absurd hlt (Nat.not_lt.mpr hge)
  | wokenFound _ _ _ => exact h.keep hsound rfl (waiting_of_set hf nofun) nofun nofun
  | wokenClaims _ _ _ => exact h.keep hsound rfl (waiting_of_set hf nofun) nofun nofun
  | wokenPoisoned hp => exact hnope hp
  | dropped _ => exact h.keep hsound rfl (waiting_of_set hf nofun) nofun nofun

/-- A new future does not touch the queue. -/
theorem Queued.spawn {past : List (Event T E)} (h : Queued (past, s)) :
    Queued (past ++ [.spawn], { s with futs := s.futs ++ [.creating] }) := by
  refine h.keep h.sound rfl (fun j pos hj => ?_) nofun nofun
  rcases getElem?_spawn hj with hc | hj'
  · cases hc
  · exact hj'

/-- What an act does to the queue: nothing, a new entry at the back, a slot rewritten, or all gone. -/
theorem Moves.wakers_cases (hm : Moves i s.lock fut a lock fut') :
    lock.wakers = s.lock.wakers ∨ lock.wakers = s.lock.wakers ++ [i] ∨ lock.wakers = [] ∨
      ∃ pos, fut = .waiting pos ∧ a = .pollWaiting ∧ s.lock.initializing = true ∧
        lock.wakers = s.lock.wakers.set pos i := by
  cases hm with
  | enqueued _ _ => exact Or.inr (Or.inl rfl)
  | initOk _ => exact Or.inr (Or.inr (Or.inl rfl))
  | initErr _ => exact Or.inr (Or.inr (Or.inl rfl))
  | slotUpdated _ hinit _ => exact Or.inr (Or.inr (Or.inr ⟨_, rfl, rfl, hinit, rfl⟩))
  | _ => exact Or.inl rfl

/-- An act panics on a poisoned mutex, or on a slot that does not exist. -/
theorem Moves.panicked_cases (hm : Moves i s.lock fut a lock .panicked) :
    s.lock.poisoned = true ∨
      ∃ pos, fut = .waiting pos ∧ a = .pollWaiting ∧ s.lock.initializing = true ∧
        s.lock.wakers.length ≤ pos := by
  cases hm with
  | createPoisoned hp => exact Or.inl hp
  | initPoisoned hp => exact Or.inl hp
  | wokenPoisoned hp => exact Or.inl hp
  | slotMissing _ hinit hge => exact Or.inr ⟨_, rfl, rfl, hinit, hge⟩

/-- A poll while waiting is a poll of a waiting future. -/
theorem Moves.waiting_of_poll (hm : Moves i s.lock fut .pollWaiting lock fut') :
    ∃ pos, fut = .waiting pos := by
  cases hm with
  | slotUpdated _ _ _ => exact ⟨_, rfl⟩
  | slotMissing _ _ _ => exact ⟨_, rfl⟩
  | wokenFound _ _ _ => exact ⟨_, rfl⟩
  | wokenClaims _ _ _ => exact ⟨_, rfl⟩
  | wokenPoisoned _ => exact ⟨_, rfl⟩

/-- A fresh act is safe. -/
theorem Queued.safe {past : List (Event T E)} {q : List (Event T E) × State T E}
    (h : Queued (past, s)) (hf : s.futs[i]? = some fut)
    (hm : Moves i s.lock fut a lock fut')
    (hq : q = (past ++ [.act i a], { lock, futs := s.futs.set i fut' }))
    (hfresh : FreshPoll (past, s) (.act i a) q) : PollSafe (past, s) (.act i a) q := by
  subst hq
  have hown : ∀ pos, fut = .waiting pos → a = .pollWaiting → s.lock.initializing = true →
      s.lock.wakers[pos]? = some i := by
    rintro pos rfl rfl hinit
    exact h.slot i pos hf (hfresh hinit)
  refine ⟨fun j pos hev hinit hj => ?_, fun j hj => ?_, fun pos w hw => ?_⟩
  · cases hev
    have hfut : fut = .waiting pos := Option.some.inj (hf.symm.trans hj)
    exact hown pos hfut rfl hinit
  · have hj : (s.futs.set i fut')[j]? = some .panicked := hj
    rw [getElem?_set_of_some hf] at hj
    by_cases hij : i = j
    · rw [if_pos hij] at hj
      obtain rfl := Option.some.inj hj
      rcases hm.panicked_cases with hp | ⟨pos, hfut, ha, hinit, hge⟩
      · have hsound : s.lock.poisoned = false := h.sound
        rw [hsound] at hp
        cases hp
      · have hlt := (List.getElem?_eq_some_iff.mp (hown pos hfut ha hinit)).1
        exact absurd hlt (Nat.not_lt.mpr hge)
    · rwa [if_neg hij] at hj
  · show lock.wakers = [] ∨ lock.wakers[pos]? = some w
    have hw : s.lock.wakers[pos]? = some w := hw
    rcases hm.wakers_cases with hsame | hback | hgone | ⟨slot, rfl, rfl, hinit, hset⟩
    · rw [hsame]
      exact Or.inr hw
    · rw [hback, List.getElem?_append_left (List.getElem?_eq_some_iff.mp hw).1]
      exact Or.inr hw
    · exact Or.inl hgone
    · rw [hset, h.set_own hf (hfresh hinit)]
      exact Or.inr hw

/-- A safe step is fresh: a stale waiter is nowhere in the queue. -/
theorem Queued.fresh_of_safe {past : List (Event T E)} {q : List (Event T E) × State T E}
    (h : Queued (past, s)) (hs : Recorded (Steps next) (past, s) ev q)
    (hsafe : PollSafe (past, s) ev q) : FreshPoll (past, s) ev q := by
  rcases next_cases hs.1 with ⟨rfl, -⟩ | ⟨i, a, fut, lock, fut', rfl, hf, hm, -⟩
  · exact trivial
  · cases a with
    | pollWaiting =>
        intro hinit
        obtain ⟨pos, rfl⟩ := hm.waiting_of_poll
        have hslot := hsafe.own_slot i pos rfl hinit hf
        have hmem : i ∈ s.lock.wakers := List.mem_of_getElem? hslot
        by_contra hstale
        exact h.gone i (by simpa using hstale) hmem
    | _ => exact trivial

/-- **The exact condition of the queue.**  In every run of any number of futures on one new lock, every
step is safe exactly when no waiting future is polled, while an initialization is under way, after one
has ended since it registered. -/
theorem poll_exact (tr : List (Event T E × (List (Event T E) × State T E)))
    (htr : IsTrace (Recorded (Steps next)) ([], .new) tr) :
    StepsMeet PollSafe ([], .new) tr ↔ StepsMeet FreshPoll ([], .new) tr := by
  have hact : ∀ (p : List (Event T E) × State T E) ev q, Queued p →
      Recorded (Steps next) p ev q → FreshPoll p ev q → Queued q ∧ PollSafe p ev q := by
    rintro ⟨past, s⟩ ev ⟨past', t⟩ h ⟨hs, rfl⟩ hfresh
    rcases next_cases hs with ⟨rfl, rfl⟩ | ⟨i, a, fut, lock, fut', rfl, hf, hm, rfl⟩
    · refine ⟨h.spawn, nofun, fun j hj => ?_, fun _ _ hw => Or.inr hw⟩
      rcases getElem?_spawn hj with hc | hj'
      · cases hc
      · exact hj'
    · exact ⟨h.act hf hm rfl hfresh, h.safe hf hm rfl hfresh⟩
  refine stepsMeet_iff (fun p ev q h hs hc => (hact p ev q h hs hc).1) (fun p ev q h hs => ?_)
    queued_new htr
  exact ⟨fun hsafe => Queued.fresh_of_safe h hs hsafe, fun hc => (hact p ev q h hs hc).2⟩

/-- Future 1 waits for future 0, which fails; before future 1 is polled again the newcomer 2 claims the
next round; then future 1 is polled. -/
def overtaken : List (Event Nat Unit) :=
  [.spawn, .spawn, .act 0 .get, .act 1 .get, .act 0 .create, .act 0 (.pollInit .pending),
    .act 1 .create, .act 0 (.pollInit (.ready (.error ()))), .spawn, .act 2 .get, .act 2 .create,
    .act 2 (.pollInit .pending), .act 1 .pollWaiting]

/-- The overtaken waiter indexes an empty queue: the poll panics, with the mutex held. -/
theorem overtaken_panics :
    last (State.new : State Nat Unit) (follow next .new overtaken) =
        { lock := { inner := none, initializing := true, wakers := [], poisoned := true }
          futs := [.failed (), .panicked, .initializing true] } ∧
      ¬ StepsMeet PollSafe ([], .new)
        (recording [] (follow next (State.new : State Nat Unit) overtaken)) := by
  refine ⟨by decide, fun h => ?_⟩
  have hlast := h.2.2.2.2.2.2.2.2.2.2.2.2.1.no_panic 1 rfl
  cases hlast

/-- In `handover` the waiter that was passed by is the one to claim the next round. -/
theorem poll_exact_handover :
    StepsMeet PollSafe ([], .new)
      (recording [] (follow next (State.new : State Nat Unit) handover)) :=
  (poll_exact _ (isTrace_recording [] (isTrace_follow next .new handover))).mpr (by decide)

/-! ## The flag -/

/-- **`Truthful s`** — `initializing` is set exactly while some future has an unfinished init. -/
def Truthful (s : State T E) : Prop :=
  s.lock.initializing = true ↔ ∃ (i : Nat) (b : Bool), s.futs[i]? = some (.initializing b)

/-- **`Releases`** — no future with an unfinished init is dropped, and none ends on a poisoned mutex. -/
def Releases (s : State T E) : Event T E → State T E → Prop
  | .act i .drop, _ => s.futs[i]? ≠ some (.initializing true)
  | .act _ (.pollInit (.ready _)), _ => s.lock.poisoned = false
  | _, _ => True

instance [DecidableEq T] [DecidableEq E] :
    ∀ (s : State T E) ev t, Decidable (Releases s ev t)
  | s, .act i .drop, _ => inferInstanceAs (Decidable (s.futs[i]? ≠ some (.initializing true)))
  | s, .act _ (.pollInit (.ready _)), _ => inferInstanceAs (Decidable (s.lock.poisoned = false))
  | _, .spawn, _ => isTrue trivial
  | _, .act _ .get, _ => isTrue trivial
  | _, .act _ .create, _ => isTrue trivial
  | _, .act _ (.pollInit .pending), _ => isTrue trivial
  | _, .act _ .pollWaiting, _ => isTrue trivial

/-- **`Strands`** — the act takes a future with an unfinished init away without clearing the flag. -/
def Strands (lock : AsyncOnceLock T) (fut : TryInitFuture T E) (a : Act T E) : Prop :=
  (∃ r, a = .pollInit (.ready r) ∧ lock.poisoned = true) ∨ a = .drop ∧ fut = .initializing true

theorem releases_iff (hf : s.futs[i]? = some fut) :
    Releases s (.act i a) t ↔ ¬ Strands s.lock fut a := by
  unfold Strands
  rcases a with _ | _ | (_ | r) | _ | _
  · simp [Releases]
  · simp [Releases]
  · simp [Releases]
  · simp [Releases]
  · simp [Releases]
  · simp [Releases, hf]

/-- What an act does to the flag: nothing, beside a future that stays inside or outside; a claim; a
release; or it strands the flag. -/
theorem Moves.flag_cases (hm : Moves i s.lock fut a lock fut') :
    (lock.initializing = s.lock.initializing ∧ ¬ Strands s.lock fut a ∧
        ((∃ b, fut = .initializing b) ↔ ∃ b, fut' = .initializing b)) ∨
      (lock.initializing = true ∧ ¬ Strands s.lock fut a ∧ ∃ b, fut' = .initializing b) ∨
      (lock.initializing = false ∧ ¬ Strands s.lock fut a ∧ (∃ b, fut = .initializing b) ∧
        ∀ b, fut' ≠ .initializing b) ∨
      (lock.initializing = s.lock.initializing ∧ Strands s.lock fut a ∧
        (∃ b, fut = .initializing b) ∧ ∀ b, fut' ≠ .initializing b) := by
  have hout : ∀ {f g : TryInitFuture T E}, (∀ b, f ≠ .initializing b) → (∀ b, g ≠ .initializing b) →
      ((∃ b, f = .initializing b) ↔ ∃ b, g = .initializing b) := by
    intro f g hf hg
    exact ⟨fun ⟨b, h⟩ => absurd h (hf b), fun ⟨b, h⟩ => absurd h (hg b)⟩
  have hfree : a ≠ .drop → (∀ r, a ≠ .pollInit (.ready r)) → ¬ Strands s.lock fut a := by
    rintro hd hr (⟨r, rfl, -⟩ | ⟨rfl, -⟩)
    · exact hr r rfl
    · exact hd rfl
  have hclean : s.lock.poisoned = false → a ≠ .drop → ¬ Strands s.lock fut a := by
    rintro hp hd (⟨r, -, hp'⟩ | ⟨rfl, -⟩)
    · rw [hp] at hp'
      cases hp'
    · exact hd rfl
  cases hm with
  | gotValue _ => exact Or.inl ⟨rfl, hfree nofun nofun, hout nofun nofun⟩
  | gotNone _ => exact Or.inl ⟨rfl, hfree nofun nofun, hout nofun nofun⟩
  | enqueued _ _ => exact Or.inl ⟨rfl, hfree nofun nofun, hout nofun nofun⟩
  | createFound _ _ _ => exact Or.inl ⟨rfl, hfree nofun nofun, hout nofun nofun⟩
  | createClaims _ _ _ => exact Or.inr (Or.inl ⟨rfl, hfree nofun nofun, _, rfl⟩)
  | createPoisoned _ => exact Or.inl ⟨rfl, hfree nofun nofun, hout nofun nofun⟩
  | initPending =>
      exact Or.inl ⟨rfl, hfree nofun nofun, fun _ => ⟨_, rfl⟩, fun _ => ⟨_, rfl⟩⟩
  | initOk hp => exact Or.inr (Or.inr (Or.inl ⟨rfl, hclean hp nofun, ⟨_, rfl⟩, nofun⟩))
  | initErr hp => exact Or.inr (Or.inr (Or.inl ⟨rfl, hclean hp nofun, ⟨_, rfl⟩, nofun⟩))
  | initPoisoned hp =>
      exact Or.inr (Or.inr (Or.inr ⟨rfl, Or.inl ⟨_, rfl, hp⟩, ⟨_, rfl⟩, nofun⟩))
  | slotUpdated _ _ _ => exact Or.inl ⟨rfl, hfree nofun nofun, hout nofun nofun⟩
  | slotMissing _ _ _ => exact Or.inl ⟨rfl, hfree nofun nofun, hout nofun nofun⟩
  | wokenFound _ _ _ => exact Or.inl ⟨rfl, hfree nofun nofun, hout nofun nofun⟩
  | wokenClaims _ _ _ => exact Or.inr (Or.inl ⟨rfl, hfree nofun nofun, _, rfl⟩)
  | wokenPoisoned _ => exact Or.inl ⟨rfl, hfree nofun nofun, hout nofun nofun⟩
  | dropped hidle =>
      cases fut with
      | initializing b =>
          obtain rfl : b = true := hidle
          exact Or.inr (Or.inr (Or.inr ⟨rfl, Or.inr ⟨rfl, rfl⟩, ⟨_, rfl⟩, nofun⟩))
      | _ =>
          refine Or.inl ⟨rfl, ?_, hout nofun nofun⟩
          rintro (⟨r, h, -⟩ | ⟨-, h⟩)
          · cases h
          · cases h

/-- Whether some future is inside, after future `i` moved. -/
theorem inside_set {futs : List (TryInitFuture T E)} (hf : futs[i]? = some fut)
    (hsame : (∃ b, fut = .initializing b) ↔ ∃ b, fut' = .initializing b) :
    (∃ (j : Nat) (b : Bool), (futs.set i fut')[j]? = some (.initializing b)) ↔
      ∃ (j : Nat) (b : Bool), futs[j]? = some (.initializing b) := by
  constructor
  · rintro ⟨j, b, hj⟩
    rw [getElem?_set_of_some hf] at hj
    by_cases hij : i = j
    · rw [if_pos hij] at hj
      obtain ⟨c, hc⟩ := hsame.mpr ⟨b, Option.some.inj hj⟩
      exact ⟨i, c, hc ▸ hf⟩
    · rw [if_neg hij] at hj
      exact ⟨j, b, hj⟩
  · rintro ⟨j, b, hj⟩
    by_cases hij : i = j
    · subst hij
      obtain ⟨c, hc⟩ := hsame.mp ⟨b, Option.some.inj (hf.symm.trans hj)⟩
      exact ⟨i, c, by rw [getElem?_set_of_some hf, if_pos rfl, hc]⟩
    · exact ⟨j, b, by rw [getElem?_set_of_some hf, if_neg hij]; exact hj⟩

/-- When the one future inside moves out, nobody is inside. -/
theorem Exclusive.nobody_left (hx : Exclusive s) (hf : s.futs[i]? = some fut)
    (hin : ∃ b, fut = .initializing b) (hout : ∀ b, fut' ≠ .initializing b) :
    ¬ ∃ (j : Nat) (b : Bool), (s.futs.set i fut')[j]? = some (.initializing b) := by
  rintro ⟨j, b, hj⟩
  rw [getElem?_set_of_some hf] at hj
  by_cases hij : i = j
  · rw [if_pos hij] at hj
    exact hout b (Option.some.inj hj)
  · rw [if_neg hij] at hj
    obtain ⟨c, rfl⟩ := hin
    exact hij (hx.unique i j c b hf hj)

/-- **The step lemma of the flag**: a step from a truthful state leads to a truthful one exactly when
it releases what it ends. -/
theorem truthful_step (hx : Exclusive s) (h : Truthful s) (hs : next s ev = some t) :
    Truthful t ↔ Releases s ev t := by
  rcases next_cases hs with ⟨rfl, rfl⟩ | ⟨i, a, fut, lock, fut', rfl, hf, hm, rfl⟩
  · have hspawn : Truthful { s with futs := s.futs ++ [.creating] } := by
      refine h.trans ⟨?_, ?_⟩
      · rintro ⟨j, b, hj⟩
        exact ⟨j, b, by
          rw [List.getElem?_append_left (List.getElem?_eq_some_iff.mp hj).1]; exact hj⟩
      · rintro ⟨j, b, hj⟩
        rcases getElem?_spawn hj with hc | hj'
        · cases hc
        · exact ⟨j, b, hj'⟩
    exact ⟨fun _ => trivial, fun _ => hspawn⟩
  · rw [releases_iff hf]
    rcases hm.flag_cases with ⟨hflag, hfree, hsame⟩ | ⟨hflag, hfree, b, rfl⟩ |
      ⟨hflag, hfree, hin, hout⟩ | ⟨hflag, hstrands, hin, hout⟩
    · -- nobody enters, nobody leaves
      refine ⟨fun _ => hfree, fun _ => ?_⟩
      show lock.initializing = true ↔ _
      rw [hflag]
      exact h.trans (inside_set hf hsame).symm
    · -- a claim
      refine ⟨fun _ => hfree, fun _ => ⟨fun _ => ⟨i, b, ?_⟩, fun _ => hflag⟩⟩
      rw [getElem?_set_of_some hf, if_pos rfl]
    · -- a release: the one inside is gone, and the flag with it
      refine ⟨fun _ => hfree, fun _ => ⟨fun ht => ?_, fun ht => ?_⟩⟩
      · exact absurd (hflag.symm.trans ht) nofun
      · exact absurd ht (hx.nobody_left hf hin hout)
    · -- the one inside is gone, and the flag stays
      refine ⟨fun ht => ?_, fun hno => absurd hstrands hno⟩
      obtain ⟨b, rfl⟩ := hin
      have hset : lock.initializing = true := hflag.trans (hx.held i b hf).1
      exact absurd (ht.mp hset) (hx.nobody_left hf ⟨b, rfl⟩ hout)

theorem truthful_new : Truthful (State.new : State T E) := by
  refine ⟨fun h => ?_, fun ⟨i, b, h⟩ => ?_⟩
  · cases h
  · simp [State.new, State.of] at h

/-- **The exact condition of the flag.**  In every run of futures that are created, polled in any order
and dropped between polls, `initializing` tells the truth in every state exactly when no step drops a
future with an unfinished init and no init ends on a poisoned mutex. -/
theorem flag_exact (tr : List (Event T E × State T E))
    (htr : IsTrace (Steps next) (State.new : State T E) tr) :
    StatesMeet Truthful .new tr ↔ StepsMeet Releases .new tr := by
  have hexact : StepsMeet (fun _ _ t => Truthful t) (State.new : State T E) tr ↔
      StepsMeet Releases .new tr := by
    refine stepsMeet_iff (I := fun s => Exclusive s ∧ Truthful s) (fun s ev t h hs hc => ?_)
      (fun s ev t h hs => truthful_step h.1 h.2 hs) ⟨exclusive_new, truthful_new⟩ htr
    exact ⟨h.1.step hs, (truthful_step h.1 h.2 hs).mpr hc⟩
  rw [← hexact, stepsMeet_post]
  exact ⟨fun h => h.2, fun h => ⟨truthful_new, h⟩⟩

/-- A future claims the initialization, its init is pending, and it is dropped. -/
def cancelled : List (Event Nat Unit) :=
  [.spawn, .act 0 .get, .act 0 .create, .act 0 (.pollInit .pending), .act 0 .drop]

/-- The flag stays set with no future left. -/
theorem cancelled_stuck :
    last (State.new : State Nat Unit) (follow next .new cancelled) =
        { lock := { inner := none, initializing := true, wakers := [], poisoned := false }
          futs := [.dropped] } ∧
      ¬ StatesMeet Truthful (State.new : State Nat Unit) (follow next .new cancelled) := by
  have hend : last (State.new : State Nat Unit) (follow next .new cancelled) =
      { lock := { inner := none, initializing := true, wakers := [], poisoned := false }
        futs := [.dropped] } := by decide
  refine ⟨hend, fun h => ?_⟩
  have hlast := h.last
  rw [hend] at hlast
  obtain ⟨i, b, hi⟩ := hlast.mp rfl
  rcases i with _ | i
  · cases hi
  · simp at hi

/-- In `handover` a waiting future could be dropped as well; every init is run to its end. -/
theorem flag_exact_handover :
    StatesMeet Truthful (State.new : State Nat Unit) (follow next .new (handover ++ [.act 2 .drop])) :=
  (flag_exact _ (isTrace_follow next .new (handover ++ [.act 2 .drop]))).mpr (by decide)

end BackedData.Utils
