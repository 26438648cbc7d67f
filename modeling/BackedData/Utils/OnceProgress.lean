/-
# BackedData.Utils.OnceProgress — nobody waits forever for an `AsyncOnceLock`

`OnceAgreement` says what the futures of one lock return, if they return.  Here is that they do.  A future
that waits has its waker in the queue, and some future is running its init, until that init ends and wakes
everyone in the queue (`NoneForgotten`).  So an executor that polls the futures that were woken, and lets
each init run to its end, has an answer for every one of them within four polls a future (`Settles`).

Both hold in every state of every run whose steps keep the queue and the flag sound, that is under the exact
conditions of `OnceQueue`: no waiter is polled in a later round while an init is under way, and no future
with an unfinished init is dropped (`once_settles`).
-/
import BackedData.Utils.OnceQueue

namespace BackedData.Utils

open Logic.Trace

set_option autoImplicit false

variable {T E : Type} {s t : State T E} {i : Nat} {fut fut' : TryInitFuture T E}
  {lock : AsyncOnceLock T} {a : Act T E} {ev : Event T E} {outcome : Nat → Except E T}

/-! ## What a waiting future waits for -/

/-- Only the end of an init clears the flag. -/
theorem Moves.flag_kept (hm : Moves i s.lock fut a lock fut')
    (hready : ∀ r, a ≠ .pollInit (.ready r)) (hflag : s.lock.initializing = true) :
    lock.initializing = true := by
  cases hm with
  | initOk | initErr => exact absurd rfl (hready _)
  | createClaims | wokenClaims => rfl
  | _ => exact hflag

/-- A future begins to wait, or goes on waiting, only behind the flag. -/
theorem Moves.waits {pos : Nat} (hm : Moves i s.lock fut a lock (.waiting pos)) :
    lock.initializing = true := by
  cases hm with
  | enqueued _ hinit => exact hinit
  | slotUpdated _ hinit _ => exact hinit

/-- **`Kept p`** — what the sound steps keep.  A waiter that no end of an init has woken is behind the
flag. -/
structure Kept (p : List (Event T E) × State T E) : Prop where
  exclusive : Exclusive p.2
  agreement : Agreement p
  truthful : Truthful p.2
  queued : Queued p
  calm : ∀ i : Nat, p.2.futs[i]? ≠ some .panicked
  behind : ∀ (i : Nat) pos, p.2.futs[i]? = some (.waiting pos) → endedSince i p.1 = false →
    p.2.lock.initializing = true

theorem kept_new : Kept (([], .new) : List (Event T E) × State T E) where
  exclusive := exclusive_new
  agreement := agreement_new
  truthful := truthful_new
  queued := queued_new
  calm _ h := by simp [State.new, State.of] at h
  behind _ _ h := by simp [State.new, State.of] at h

/-- The step keeps the queue and the flag sound. -/
def SoundStep (p : List (Event T E) × State T E) (ev : Event T E) (q : List (Event T E) × State T E) :
    Prop :=
  FreshPoll p ev q ∧ Releases p.2 ev q.2

instance [DecidableEq T] [DecidableEq E] (p : List (Event T E) × State T E) (ev : Event T E)
    (q : List (Event T E) × State T E) : Decidable (SoundStep p ev q) :=
  inferInstanceAs (Decidable (_ ∧ _))

/-- **The step lemma.** -/
theorem Kept.step {p q : List (Event T E) × State T E} (h : Kept p) (hs : Recorded (Steps next) p ev q)
    (hsound : SoundStep p ev q) : Kept q := by
  obtain ⟨past, s⟩ := p
  obtain ⟨past', t⟩ := q
  have hnext : next s ev = some t := hs.1
  have hpast : past' = past ++ [ev] := hs.2
  subst hpast
  refine ⟨h.exclusive.step hnext, (h.agreement.step h.exclusive hs).1,
    (truthful_step h.exclusive h.truthful hnext).mpr hsound.2, ?_, ?_, ?_⟩
  · rcases next_cases hnext with ⟨rfl, rfl⟩ | ⟨i, a, fut, lock, fut', rfl, hf, hm, rfl⟩
    · exact h.queued.spawn
    · exact h.queued.act hf hm rfl hsound.1
  · rcases next_cases hnext with ⟨rfl, rfl⟩ | ⟨i, a, fut, lock, fut', rfl, hf, hm, rfl⟩
    · intro j hj
      rcases getElem?_spawn hj with hc | hj'
      · cases hc
      · exact h.calm j hj'
    · intro j hj
      exact h.calm j ((h.queued.safe hf hm rfl hsound.1).no_panic j hj)
  · rcases next_cases hnext with ⟨rfl, rfl⟩ | ⟨i, a, fut, lock, fut', rfl, hf, hm, rfl⟩
    · intro j pos hj hfresh
      change endedSince j (past ++ [.spawn]) = false at hfresh
      rw [endedSince_other (fun hev => by cases hev) (fun _ _ hev => by cases hev)] at hfresh
      rcases getElem?_spawn hj with hc | hj'
      · cases hc
      · exact h.behind j pos hj' hfresh
    · intro j pos hj hfresh
      change (s.futs.set i fut')[j]? = some (.waiting pos) at hj
      rw [getElem?_set_of_some hf] at hj
      by_cases hij : i = j
      · rw [if_pos hij] at hj
        obtain rfl := Option.some.inj hj
        exact hm.waits
      · rw [if_neg hij] at hj
        have hready : ∀ r, a ≠ .pollInit (.ready r) := by
          rintro r rfl
          rw [endedSince_ready] at hfresh
          cases hfresh
        change endedSince j (past ++ [.act i a]) = false at hfresh
        have hother : endedSince j (past ++ [.act i a]) = endedSince j past := by
          refine endedSince_other (fun hev => ?_) fun k r hev => ?_
          · cases hev
            exact hij rfl
          · cases hev
            exact hready r rfl
        rw [hother] at hfresh
        exact hm.flag_kept hready (h.behind j pos hj hfresh)

/-- **`NoneForgotten p`** — every waiting future has been woken, or its waker is in its slot and some future
is running the init that will wake it. -/
def NoneForgotten (p : List (Event T E) × State T E) : Prop :=
  ∀ (i : Nat) pos, p.2.futs[i]? = some (.waiting pos) →
    endedSince i p.1 = true ∨
      (p.2.lock.wakers[pos]? = some i ∧ ∃ (j : Nat) (b : Bool), p.2.futs[j]? = some (.initializing b))

theorem Kept.noneForgotten {p : List (Event T E) × State T E} (h : Kept p) : NoneForgotten p := by
  intro i pos hi
  cases hended : endedSince i p.1 with
  | true => exact Or.inl rfl
  | false => exact Or.inr ⟨h.queued.slot i pos hi hended, h.truthful.mp (h.behind i pos hi hended)⟩

/-! ## The executor -/

/-- What the executor does: it goes on with a future that was created, lets the one with an init run it to
its `outcome`, and polls a waiting future that was woken, unless somebody else has claimed the init. -/
def Served (outcome : Nat → Except E T) (p : List (Event T E) × State T E) : Event T E → Prop
  | .spawn => False
  | .act _ .get => True
  | .act _ .create => True
  | .act i (.pollInit answer) => answer = .ready (outcome i)
  | .act i .pollWaiting => endedSince i p.1 = true ∧ p.2.lock.initializing = false
  | .act _ .drop => False

/-- A poll of the executor. -/
def Serves (outcome : Nat → Except E T) (p : List (Event T E) × State T E) (ev : Event T E)
    (q : List (Event T E) × State T E) : Prop :=
  Recorded (Steps next) p ev q ∧ Served outcome p ev

/-- The polls that a future takes to its answer, at most. -/
def TryInitFuture.rank : TryInitFuture T E → Nat
  | .creating => 4
  | .locking => 3
  | .waiting _ => 2
  | .initializing _ => 1
  | _ => 0

/-- The polls that all futures take together. -/
def totalRank : List (TryInitFuture T E) → Nat
  | [] => 0
  | fut :: futs => fut.rank + totalRank futs

theorem totalRank_le (futs : List (TryInitFuture T E)) : totalRank futs ≤ 4 * futs.length := by
  induction futs with
  | nil => exact Nat.le_refl 0
  | cons fut futs ih =>
      have hfut : fut.rank ≤ 4 := by cases fut <;> simp [TryInitFuture.rank]
      simp only [totalRank, List.length_cons]
      omega

theorem totalRank_set {futs : List (TryInitFuture T E)} (hf : futs[i]? = some fut)
    (fut' : TryInitFuture T E) :
    totalRank (futs.set i fut') + fut.rank = totalRank futs + fut'.rank := by
  induction futs generalizing i with
  | nil => simp at hf
  | cons head futs ih =>
      cases i with
      | zero =>
          obtain rfl : head = fut := Option.some.inj hf
          simp only [List.set_cons_zero, totalRank]
          omega
      | succ i =>
          have hrest := ih hf
          simp only [List.set_cons_succ, totalRank]
          omega

/-- Every poll of the executor brings its future closer to the answer. -/
theorem Kept.act_lowers {past : List (Event T E)} (h : Kept (past, s)) (hf : s.futs[i]? = some fut)
    (hm : Moves i s.lock fut a lock fut') (hserved : Served outcome (past, s) (.act i a)) :
    fut'.rank < fut.rank := by
  have hsound : s.lock.poisoned = false := h.queued.sound
  cases hm with
  | initPending => cases hserved
  | dropped => cases hserved
  | slotUpdated _ hinit | slotMissing _ hinit =>
      have hfree : s.lock.initializing = false := hserved.2
      rw [hinit] at hfree
      cases hfree
  | createPoisoned hp | initPoisoned hp | wokenPoisoned hp =>
      rw [hp] at hsound
      cases hsound
  | _ => simp [TryInitFuture.rank]

/-- The executor's polls keep the queue and the flag sound. -/
theorem Kept.sound_of_served {p q : List (Event T E) × State T E} (h : Kept p)
    (hserved : Served outcome p ev) : SoundStep p ev q := by
  cases ev with
  | spawn => exact ⟨trivial, trivial⟩
  | act i a =>
      cases a with
      | get => exact ⟨trivial, trivial⟩
      | create => exact ⟨trivial, trivial⟩
      | pollInit answer =>
          cases answer with
          | pending => exact ⟨trivial, trivial⟩
          | ready res => exact ⟨trivial, h.queued.sound⟩
      | pollWaiting =>
          refine ⟨fun hinit => ?_, trivial⟩
          rw [hserved.2] at hinit
          cases hinit
      | drop => cases hserved

/-- What one poll of the executor does: it is one act, of a future that was there. -/
theorem Serves.inv {p q : List (Event T E) × State T E} (hs : Serves outcome p ev q) :
    ∃ i a fut lock fut', ev = .act i a ∧ p.2.futs[i]? = some fut ∧ Moves i p.2.lock fut a lock fut' ∧
      q = (p.1 ++ [ev], { lock, futs := p.2.futs.set i fut' }) ∧ Served outcome p (.act i a) := by
  obtain ⟨⟨hnext, hpast⟩, hserved⟩ := hs
  rcases next_cases hnext with ⟨rfl, -⟩ | ⟨i, a, fut, lock, fut', rfl, hf, hm, ht⟩
  · cases hserved
  · exact ⟨i, a, fut, lock, fut', rfl, hf, hm, Prod.ext hpast ht, hserved⟩

theorem Kept.serves {p q : List (Event T E) × State T E} (h : Kept p) (hs : Serves outcome p ev q) :
    Kept q := h.step hs.1 (h.sound_of_served hs.2)

theorem Kept.lowers {p q : List (Event T E) × State T E} (h : Kept p) (hs : Serves outcome p ev q) :
    totalRank q.2.futs < totalRank p.2.futs := by
  obtain ⟨i, a, fut, lock, fut', -, hf, hm, rfl, hserved⟩ := hs.inv
  obtain ⟨past, s⟩ := p
  have hlower := h.act_lowers hf hm hserved
  have hset := totalRank_set hf fut'
  show totalRank (s.futs.set i fut') < totalRank s.futs
  change totalRank (s.futs.set i fut') + _ = totalRank s.futs + _ at hset
  omega

/-- **An act that can be done** is a step of the system. -/
theorem serves_of_act {p : List (Event T E) × State T E} (hf : p.2.futs[i]? = some fut)
    (ha : act i p.2.lock fut a = some (lock, fut')) (hserved : Served outcome p (.act i a)) :
    ∃ ev q, Serves outcome p ev q := by
  refine ⟨.act i a, (p.1 ++ [.act i a], { lock, futs := p.2.futs.set i fut' }), ⟨?_, rfl⟩, hserved⟩
  show next p.2 (.act i a) = _
  simp only [next, hf, ha]

/-- Where some future is running its init, the executor can let it run to its end. -/
theorem serves_inside (outcome : Nat → Except E T) {p : List (Event T E) × State T E}
    (hin : ∃ (j : Nat) (b : Bool), p.2.futs[j]? = some (.initializing b)) :
    ∃ ev q, Serves outcome p ev q := by
  obtain ⟨j, b, hj⟩ := hin
  have hact : act j p.2.lock (.initializing b) (.pollInit (.ready (outcome j))) =
      some (p.2.lock.pollInitializing (.ready (outcome j))) := rfl
  exact serves_of_act hj hact rfl

/-- **The executor is never stuck** before every future has its answer. -/
theorem Kept.answered {p : List (Event T E) × State T E} (h : Kept p)
    (hend : ∀ ev q, ¬Serves outcome p ev q) (hf : p.2.futs[i]? = some fut) :
    (∃ v, fut = .initialized v ∧ p.2.lock.inner = some v) ∨ (∃ e, fut = .failed e) ∨ fut = .dropped := by
  have hstuck : (∃ ev q, Serves outcome p ev q) → False := fun ⟨ev, q, hq⟩ => hend ev q hq
  cases fut with
  | initialized v => exact Or.inl ⟨v, rfl, h.agreement.ok_stored i v hf⟩
  | failed e => exact Or.inr (Or.inl ⟨e, rfl⟩)
  | dropped => exact Or.inr (Or.inr rfl)
  | panicked => exact absurd hf (h.calm i)
  | creating =>
      have hact : act i p.2.lock (.creating : TryInitFuture T E) .get = some (p.2.lock, p.2.lock.createGet) :=
        rfl
      exact (hstuck (serves_of_act hf hact trivial)).elim
  | locking =>
      have hact : act i p.2.lock (.locking : TryInitFuture T E) .create = some (p.2.lock.createLocked i) :=
        rfl
      exact (hstuck (serves_of_act hf hact trivial)).elim
  | initializing b => exact (hstuck (serves_inside outcome ⟨i, b, hf⟩)).elim
  | waiting pos =>
      cases hflag : p.2.lock.initializing with
      | true => exact (hstuck (serves_inside outcome (h.truthful.mp hflag))).elim
      | false =>
          rcases h.noneForgotten i pos hf with hended | ⟨-, hin⟩
          · have hact : act i p.2.lock (.waiting pos : TryInitFuture T E) .pollWaiting =
                some (p.2.lock.pollWaiting i pos) := rfl
            exact (hstuck (serves_of_act hf hact ⟨hended, hflag⟩)).elim
          · exact (hstuck (serves_inside outcome hin)).elim

/-! ## Who fails, and who is dropped -/

/-- **`Keeps outcome p q`** — from `p` to `q` no future is dropped, and one that has failed had failed before
or has failed with its own outcome. -/
structure Keeps (outcome : Nat → Except E T) (p q : List (Event T E) × State T E) : Prop where
  length : q.2.futs.length = p.2.futs.length
  dropped : ∀ i : Nat, q.2.futs[i]? = some .dropped → p.2.futs[i]? = some .dropped
  failed : ∀ (i : Nat) e, q.2.futs[i]? = some (.failed e) →
    p.2.futs[i]? = some (.failed e) ∨ outcome i = .error e

theorem keeps_refl (p : List (Event T E) × State T E) : Keeps outcome p p :=
  ⟨rfl, fun _ h => h, fun _ _ h => Or.inl h⟩

theorem Keeps.serves {p q r : List (Event T E) × State T E} (h : Keeps outcome p q)
    (hs : Serves outcome q ev r) : Keeps outcome p r := by
  obtain ⟨i, a, fut, lock, fut', -, hf, hm, rfl, hserved⟩ := hs.inv
  refine ⟨(List.length_set).trans h.length, fun j hj => ?_, fun j e hj => ?_⟩
  · change (q.2.futs.set i fut')[j]? = some .dropped at hj
    rw [getElem?_set_of_some hf] at hj
    by_cases hij : i = j
    · rw [if_pos hij] at hj
      obtain rfl := Option.some.inj hj
      cases hm with
      | dropped => cases hserved
    · rw [if_neg hij] at hj
      exact h.dropped j hj
  · change (q.2.futs.set i fut')[j]? = some (.failed e) at hj
    rw [getElem?_set_of_some hf] at hj
    by_cases hij : i = j
    · rw [if_pos hij] at hj
      obtain rfl := Option.some.inj hj
      subst hij
      right
      cases hm with
      | initErr =>
          have houtcome : InitPoll.ready (.error e) = InitPoll.ready (outcome i) := hserved
          exact (InitPoll.ready.inj houtcome).symm
    · rw [if_neg hij] at hj
      exact h.failed j e hj

/-! ## Every future has its answer -/

/-- **`Settles outcome p`** — the executor makes at most four polls a future, and when it can make no more,
every future has returned the stored value or an error of its own, or had been dropped. -/
structure Settles (outcome : Nat → Except E T) (p : List (Event T E) × State T E) : Prop where
  bounded : ∀ rest, IsTrace (Serves outcome) p rest → rest.length ≤ 4 * p.2.futs.length
  answered : ∀ rest, IsTrace (Serves outcome) p rest →
    (∀ ev q, ¬Serves outcome (last p rest) ev q) →
    ∀ (i : Nat) fut, (last p rest).2.futs[i]? = some fut →
      (∃ v, fut = .initialized v ∧ (last p rest).2.lock.inner = some v) ∨
      (∃ e, fut = .failed e ∧ (p.2.futs[i]? = some (.failed e) ∨ outcome i = .error e)) ∨
      (fut = .dropped ∧ p.2.futs[i]? = some .dropped)

theorem Kept.settles (outcome : Nat → Except E T) {p : List (Event T E) × State T E} (h : Kept p) :
    Settles outcome p := by
  have hkept : ∀ {rest}, IsTrace (Serves outcome) p rest → StatesMeet Kept p rest :=
    fun hrest => invariant (fun _ _ _ hq hs => hq.serves hs) h hrest
  refine ⟨fun rest hrest => ?_, fun rest hrest hend i fut hf => ?_⟩
  · have hsteps := isTrace_and.mpr ⟨hrest, stepsMeet_of_invariant (I := Kept) (Q := fun q _ _ => Kept q)
      (fun _ _ _ hq hs => hq.serves hs) (fun _ _ _ hq _ => hq) h hrest⟩
    have hlength := length_le_of_lowers (μ := fun q : List (Event T E) × State T E => totalRank q.2.futs)
      (fun _ _ _ hs => hs.2.lowers hs.1) hsteps
    have hle := totalRank_le p.2.futs
    change rest.length + totalRank (last p rest).2.futs ≤ totalRank p.2.futs at hlength
    omega
  · have hkeeps : Keeps outcome p (last p rest) :=
      (invariant (P := Keeps outcome p) (fun _ _ _ hq hs => hq.serves hs) (keeps_refl p) hrest).last
    rcases (hkept hrest).last.answered hend hf with hvalue | ⟨e, rfl⟩ | rfl
    · exact Or.inl hvalue
    · exact Or.inr (Or.inl ⟨e, rfl, hkeeps.failed i e hf⟩)
    · exact Or.inr (Or.inr ⟨rfl, hkeeps.dropped i hf⟩)

/-- **Nobody waits forever.**  In every state of every run of any number of futures on one new lock whose
steps keep the queue and the flag sound: no waiting future is forgotten, and whatever the outcomes of the
inits, the executor comes to an answer for every future within four polls each. -/
theorem once_settles (tr : List (Event T E × (List (Event T E) × State T E)))
    (htr : IsTrace (Recorded (Steps next)) ([], .new) tr) (hsound : StepsMeet SoundStep ([], .new) tr) :
    StatesMeet (fun p => NoneForgotten p ∧ ∀ outcome, Settles outcome p) ([], .new) tr := by
  have hall := invariant_under (P := Kept) (fun _ _ _ h hs hc => h.step hs hc) kept_new htr hsound
  exact ⟨⟨hall.1.noneForgotten, fun outcome => hall.1.settles outcome⟩,
    fun x hx => ⟨(hall.2 x hx).noneForgotten, fun outcome => (hall.2 x hx).settles outcome⟩⟩

/-- Two futures wait for a third. -/
def twoWaiting : List (Event Nat Unit × (List (Event Nat Unit) × State Nat Unit)) :=
  recording [] (follow next .new
    [.spawn, .spawn, .spawn, .act 1 .get, .act 1 .create, .act 0 .get, .act 0 .create, .act 2 .get,
      .act 2 .create, .act 1 (.pollInit .pending)])

theorem once_settles_two : NoneForgotten (last ([], .new) twoWaiting) ∧
    Settles (fun _ => .ok 7) (last ([], .new) twoWaiting) := by
  have hall := once_settles twoWaiting (isTrace_recording [] (isTrace_follow next .new _)) (by decide)
  exact ⟨hall.last.1, hall.last.2 _⟩

end BackedData.Utils
