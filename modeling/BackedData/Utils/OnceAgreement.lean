/-
# BackedData.Utils.OnceAgreement — the futures of one `AsyncOnceLock` agree on one value

Mutual exclusion and agreement for any number of `get_or_try_init` futures, any interleaving and any
outcome of their init futures: the flag behind the mutex is held by at most one future, and only while
the cell is empty (`Exclusive`).  What the futures returned is then traced back to the init futures
through the labels of the run.  Nothing here needs the futures to run to completion, nor the queue to be
sound; dropping futures and poisoned mutexes are allowed throughout.
-/
import BackedData.Utils.AsyncOnceLock

namespace BackedData.Utils

open Logic.Trace

set_option autoImplicit false

variable {T E : Type} {s t : State T E} {i : Nat} {fut fut' : TryInitFuture T E}
  {lock : AsyncOnceLock T} {a : Act T E}

/-! ## Mutual exclusion -/

/-- **`Exclusive s`** — a future with an unfinished init holds the flag, the cell is empty, and it is
the only one. -/
structure Exclusive (s : State T E) : Prop where
  held : ∀ (i : Nat) b, s.futs[i]? = some (.initializing b) →
    s.lock.initializing = true ∧ s.lock.inner = none
  unique : ∀ (i j : Nat) b c, s.futs[i]? = some (.initializing b) → s.futs[j]? = some (.initializing c) →
    i = j

theorem exclusive_new : Exclusive (State.new : State T E) :=
  ⟨fun _ _ h => by simp [State.new, State.of] at h, fun _ _ _ _ h => by simp [State.new, State.of] at h⟩

/-- A future that leaves or stays out of `Initializing`: either it was the one inside, or it left the
flag and the cell alone. -/
theorem Exclusive.put_outside (h : Exclusive s) (hf : s.futs[i]? = some fut)
    (hout : ∀ b, fut' ≠ .initializing b)
    (hlock : (∃ b, fut = .initializing b) ∨
      lock.initializing = s.lock.initializing ∧ lock.inner = s.lock.inner) :
    Exclusive { lock, futs := s.futs.set i fut' } := by
  have hback : ∀ (j : Nat) b, (s.futs.set i fut')[j]? = some (.initializing b) →
      i ≠ j ∧ s.futs[j]? = some (.initializing b) := by
    intro j b hj
    rw [getElem?_set_of_some hf] at hj
    by_cases hij : i = j
    · rw [if_pos hij] at hj
      exact absurd (Option.some.inj hj) (hout b)
    · rw [if_neg hij] at hj
      exact ⟨hij, hj⟩
  refine ⟨fun j b hj => ?_, fun j k b c hj hk => ?_⟩
  · obtain ⟨hij, hj'⟩ := hback j b hj
    rcases hlock with ⟨c, rfl⟩ | ⟨hinit, hinner⟩
    · exact absurd (h.unique i j c b hf hj') hij
    · rw [hinit, hinner]
      exact h.held j b hj'
  · exact h.unique j k b c (hback j b hj).2 (hback k c hk).2

/-- The future inside stays inside. -/
theorem Exclusive.put_inside {b : Bool} (h : Exclusive s)
    (hf : s.futs[i]? = some (.initializing b)) :
    Exclusive { s with futs := s.futs.set i (.initializing true) } := by
  have hback : ∀ (j : Nat) c, (s.futs.set i (.initializing true))[j]? = some (.initializing c) →
      ∃ c', s.futs[j]? = some (.initializing c') := by
    intro j c hj
    rw [getElem?_set_of_some hf] at hj
    by_cases hij : i = j
    · subst hij
      exact ⟨b, hf⟩
    · rw [if_neg hij] at hj
      exact ⟨c, hj⟩
  refine ⟨fun j c hj => ?_, fun j k c d hj hk => ?_⟩
  · obtain ⟨c', hj'⟩ := hback j c hj
    exact h.held j c' hj'
  · obtain ⟨c', hj'⟩ := hback j c hj
    obtain ⟨d', hk'⟩ := hback k d hk
    exact h.unique j k c' d' hj' hk'

/-- A claim is made only while nobody is inside. -/
theorem Exclusive.put_claim (h : Exclusive s) (hf : s.futs[i]? = some fut)
    (hinit : s.lock.initializing = false) (hinner : s.lock.inner = none) :
    Exclusive { lock := { s.lock with initializing := true },
                futs := s.futs.set i (.initializing false) } := by
  have hback : ∀ (j : Nat) b, (s.futs.set i (.initializing false))[j]? = some (.initializing b) → i = j := by
    intro j b hj
    by_cases hij : i = j
    · exact hij
    · rw [getElem?_set_of_some hf, if_neg hij] at hj
      have hheld := (h.held j b hj).1
      rw [hinit] at hheld
      cases hheld
  refine ⟨fun j b hj => ⟨rfl, hinner⟩, fun j k b c hj hk => ?_⟩
  exact (hback j b hj).symm.trans (hback k c hk)

theorem Exclusive.act (h : Exclusive s) (hf : s.futs[i]? = some fut)
    (hm : Moves i s.lock fut a lock fut') : Exclusive { lock, futs := s.futs.set i fut' } := by
  cases hm with
  | gotValue _ => exact h.put_outside hf nofun (Or.inr ⟨rfl, rfl⟩)
  | gotNone _ => exact h.put_outside hf nofun (Or.inr ⟨rfl, rfl⟩)
  | enqueued _ _ => exact h.put_outside hf nofun (Or.inr ⟨rfl, rfl⟩)
  | createFound _ _ _ => exact h.put_outside hf nofun (Or.inr ⟨rfl, rfl⟩)
  | createClaims _ hinit hinner => exact h.put_claim hf hinit hinner
  | createPoisoned _ => exact h.put_outside hf nofun (Or.inr ⟨rfl, rfl⟩)
  | initPending => exact h.put_inside hf
  | initOk _ => exact h.put_outside hf nofun (Or.inl ⟨_, rfl⟩)
  | initErr _ => exact h.put_outside hf nofun (Or.inl ⟨_, rfl⟩)
  | initPoisoned _ => exact h.put_outside hf nofun (Or.inl ⟨_, rfl⟩)
  | slotUpdated _ _ _ => exact h.put_outside hf nofun (Or.inr ⟨rfl, rfl⟩)
  | slotMissing _ _ _ => exact h.put_outside hf nofun (Or.inr ⟨rfl, rfl⟩)
  | wokenFound _ _ _ => exact h.put_outside hf nofun (Or.inr ⟨rfl, rfl⟩)
  | wokenClaims _ hinit hinner => exact h.put_claim hf hinit hinner
  | wokenPoisoned _ => exact h.put_outside hf nofun (Or.inr ⟨rfl, rfl⟩)
  | dropped _ => exact h.put_outside hf nofun (Or.inr ⟨rfl, rfl⟩)

/-- A new future changes nothing for the others. -/
theorem Exclusive.spawn (h : Exclusive s) :
    Exclusive { s with futs := s.futs ++ [.creating] } := by
  have hback : ∀ (j : Nat) b, (s.futs ++ [.creating])[j]? = some (.initializing b) →
      s.futs[j]? = some (.initializing b) := by
    intro j b hj
    rcases getElem?_spawn hj with hc | hj'
    · cases hc
    · exact hj'
  exact ⟨fun j b hj => h.held j b (hback j b hj),
    fun j k b c hj hk => h.unique j k b c (hback j b hj) (hback k c hk)⟩

theorem Exclusive.step {ev : Event T E} (h : Exclusive s) (hs : next s ev = some t) :
    Exclusive t := by
  rcases next_cases hs with ⟨-, rfl⟩ | ⟨i, a, fut, lock, fut', -, hf, hm, rfl⟩
  · exact h.spawn
  · exact h.act hf hm

/-! ## Agreement -/

/-- **`Agreement`** — of a state and the events that led to it: one unfinished init at most; every `Ok`
returned is the value in the cell; that value is the `Ok` output of some future's own init; every `Err`
returned is the future's own. -/
structure Agreement (p : List (Event T E) × State T E) : Prop where
  one_init : ∀ (i j : Nat) b c, p.2.futs[i]? = some (.initializing b) →
    p.2.futs[j]? = some (.initializing c) → i = j
  ok_stored : ∀ (i : Nat) v, p.2.futs[i]? = some (.initialized v) → p.2.lock.inner = some v
  stored_own : ∀ v, p.2.lock.inner = some v → ∃ j, .act j (.pollInit (.ready (.ok v))) ∈ p.1
  err_own : ∀ (i : Nat) e, p.2.futs[i]? = some (.failed e) →
    .act i (.pollInit (.ready (.error e))) ∈ p.1

/-- **`StepAgrees`** — of a step: an init starts only on an empty cell, and a stored value stays. -/
structure StepAgrees (p : List (Event T E) × State T E) (_ : Event T E)
    (q : List (Event T E) × State T E) : Prop where
  starts_empty : ∀ (i : Nat) b, q.2.futs[i]? = some (.initializing b) →
    (∀ c, p.2.futs[i]? ≠ some (.initializing c)) → p.2.lock.inner = none
  stored_kept : ∀ v, p.2.lock.inner = some v → q.2.lock.inner = some v

/-- What an act leaves in the cell: what was there, or the output of this future's init. -/
theorem Moves.inner_cases (hm : Moves i s.lock fut a lock fut') :
    lock.inner = s.lock.inner ∨
      ∃ b v, fut = .initializing b ∧ a = .pollInit (.ready (.ok v)) ∧
        lock.inner = some (s.lock.inner.getD v) ∧ fut' = .initialized (s.lock.inner.getD v) := by
  cases hm with
  | initOk _ => exact Or.inr ⟨_, _, rfl, rfl, rfl, rfl⟩
  | _ => exact Or.inl rfl

/-- A future returns `Ok` of what was in the cell, or of what its own init put there. -/
theorem Moves.initialized_cases {v : T} (hm : Moves i s.lock fut a lock (.initialized v)) :
    s.lock.inner = some v ∧ lock.inner = some v ∨
      (∃ b, fut = .initializing b) ∧ lock.inner = some v := by
  cases hm with
  | gotValue h => exact Or.inl ⟨h, h⟩
  | createFound _ _ h => exact Or.inl ⟨h, h⟩
  | wokenFound _ _ h => exact Or.inl ⟨h, h⟩
  | initOk _ => exact Or.inr ⟨⟨_, rfl⟩, rfl⟩

/-- A future that returns `Err` returns its own. -/
theorem Moves.failed_own {e : E} (hm : Moves i s.lock fut a lock (.failed e)) :
    a = .pollInit (.ready (.error e)) := by
  cases hm with
  | initErr _ => rfl

/-- A future starts its init only on an empty cell. -/
theorem Moves.starts_empty {b : Bool} (hm : Moves i s.lock fut a lock (.initializing b))
    (hf : ∀ c, fut ≠ .initializing c) : s.lock.inner = none := by
  cases hm with
  | createClaims _ _ h => exact h
  | wokenClaims _ _ h => exact h
  | initPending => exact absurd rfl (hf _)

/-- A stored value stays: while an init is under way the cell is empty. -/
theorem Exclusive.stored_kept (hx : Exclusive s) (hf : s.futs[i]? = some fut)
    (hm : Moves i s.lock fut a lock fut') {v : T} (hv : s.lock.inner = some v) :
    lock.inner = some v := by
  rcases hm.inner_cases with hin | ⟨b, w, rfl, -, -, -⟩
  · exact hin.trans hv
  · have hnone := (hx.held i b hf).2
    exact absurd (hnone.symm.trans hv) nofun

/-- A new future has returned nothing. -/
theorem Agreement.spawn {past : List (Event T E)} (hx : Exclusive s) (h : Agreement (past, s)) :
    Agreement (past ++ [.spawn], { s with futs := s.futs ++ [.creating] }) := by
  refine ⟨hx.spawn.unique, fun j v hj => ?_, fun v hv => ?_, fun j e hj => ?_⟩
  · rcases getElem?_spawn hj with hc | hj'
    · cases hc
    · exact h.ok_stored j v hj'
  · obtain ⟨j, hj⟩ := h.stored_own v hv
    exact ⟨j, List.mem_append_left _ hj⟩
  · rcases getElem?_spawn hj with hc | hj'
    · cases hc
    · exact List.mem_append_left _ (h.err_own j e hj')

/-- A future that moves returns what is stored, stores its own, or fails with its own. -/
theorem Agreement.act {past : List (Event T E)} (hx : Exclusive s) (h : Agreement (past, s))
    (hf : s.futs[i]? = some fut) (hm : Moves i s.lock fut a lock fut') :
    Agreement (past ++ [.act i a], { lock, futs := s.futs.set i fut' }) := by
  refine ⟨(hx.act hf hm).unique, fun j v hj => ?_, fun v hv => ?_, fun j e hj => ?_⟩
  · have hj : (s.futs.set i fut')[j]? = some (.initialized v) := hj
    rw [getElem?_set_of_some hf] at hj
    by_cases hij : i = j
    · rw [if_pos hij] at hj
      obtain rfl := Option.some.inj hj
      rcases hm.initialized_cases with ⟨-, hv⟩ | ⟨-, hv⟩
      · exact hv
      · exact hv
    · rw [if_neg hij] at hj
      exact hx.stored_kept hf hm (h.ok_stored j v hj)
  · have hv : lock.inner = some v := hv
    rcases hm.inner_cases with hin | ⟨b, w, rfl, rfl, hin, -⟩
    · obtain ⟨j, hj⟩ := h.stored_own v (hin.symm.trans hv)
      exact ⟨j, List.mem_append_left _ hj⟩
    · have hnone : s.lock.inner = none := (hx.held i b hf).2
      rw [hnone, Option.getD_none] at hin
      obtain rfl : w = v := Option.some.inj (hin.symm.trans hv)
      exact ⟨i, List.mem_append_right _ List.mem_cons_self⟩
  · have hj : (s.futs.set i fut')[j]? = some (.failed e) := hj
    rw [getElem?_set_of_some hf] at hj
    by_cases hij : i = j
    · rw [if_pos hij] at hj
      obtain rfl := Option.some.inj hj
      rw [hm.failed_own, hij]
      exact List.mem_append_right _ List.mem_cons_self
    · rw [if_neg hij] at hj
      exact List.mem_append_left _ (h.err_own j e hj)

theorem Exclusive.stepAgrees {p q : List (Event T E) × State T E} {ev : Event T E}
    (hx : Exclusive p.2) (hs : next p.2 ev = some q.2) : StepAgrees p ev q := by
  obtain ⟨past, s⟩ := p
  obtain ⟨past', t⟩ := q
  rcases next_cases hs with ⟨-, rfl⟩ | ⟨i, a, fut, lock, fut', -, hf, hm, rfl⟩
  · refine ⟨fun j b hj hne => ?_, fun _ hv => hv⟩
    rcases getElem?_spawn hj with hc | hj'
    · cases hc
    · exact absurd hj' (hne b)
  · refine ⟨fun j b hj hne => ?_, fun v hv => hx.stored_kept hf hm hv⟩
    have hj : (s.futs.set i fut')[j]? = some (.initializing b) := hj
    rw [getElem?_set_of_some hf] at hj
    by_cases hij : i = j
    · subst hij
      rw [if_pos rfl] at hj
      obtain rfl := Option.some.inj hj
      apply hm.starts_empty
      intro c hc
      exact hne c (hc ▸ hf)
    · rw [if_neg hij] at hj
      exact absurd hj (hne b)

/-- **The step lemma.** -/
theorem Agreement.step {p q : List (Event T E) × State T E} {ev : Event T E} (hx : Exclusive p.2)
    (h : Agreement p) (hs : Recorded (Steps next) p ev q) : Agreement q ∧ StepAgrees p ev q := by
  refine ⟨?_, hx.stepAgrees hs.1⟩
  obtain ⟨past, s⟩ := p
  obtain ⟨past', t⟩ := q
  obtain ⟨hs, rfl⟩ := hs
  rcases next_cases hs with ⟨rfl, rfl⟩ | ⟨i, a, fut, lock, fut', rfl, hf, hm, rfl⟩
  · exact h.spawn hx
  · exact h.act hx hf hm

theorem agreement_new : Agreement (([], .new) : List (Event T E) × State T E) where
  one_init _ _ _ _ h := by simp [State.new, State.of] at h
  ok_stored _ _ h := by simp [State.new, State.of] at h
  stored_own _ h := by simp [State.new, State.of, AsyncOnceLock.new] at h
  err_own _ _ h := by simp [State.new, State.of] at h

/-- **Mutual exclusion and agreement.**  In every run of any number of `get_or_try_init` futures on one
new lock, every state agrees with the events that led to it, and every step starts an init only on an
empty cell and keeps a stored value. -/
theorem once_agreement (tr : List (Event T E × (List (Event T E) × State T E)))
    (htr : IsTrace (Recorded (Steps next)) ([], .new) tr) :
    StatesMeet Agreement ([], .new) tr ∧ StepsMeet StepAgrees ([], .new) tr := by
  have hstep : ∀ (p : List (Event T E) × State T E) ev q, Exclusive p.2 ∧ Agreement p →
      Recorded (Steps next) p ev q → Exclusive q.2 ∧ Agreement q :=
    fun p ev q h hs => ⟨h.1.step hs.1, (h.2.step h.1 hs).1⟩
  have h0 : Exclusive (State.new : State T E) ∧
      Agreement (([], .new) : List (Event T E) × State T E) := ⟨exclusive_new, agreement_new⟩
  constructor
  · have hinv := invariant hstep h0 htr
    exact ⟨hinv.1.2, fun x hx => (hinv.2 x hx).2⟩
  · exact stepsMeet_of_invariant hstep (fun p ev q h hs => (h.2.step h.1 hs).2) h0 htr

/-- Future 0 initialises and fails while future 1 waits; future 1 claims the next round and succeeds;
future 2 comes late. -/
def handover : List (Event Nat Unit) :=
  [.spawn, .spawn, .act 0 .get, .act 1 .get, .act 0 .create, .act 0 (.pollInit .pending),
    .act 1 .create, .act 0 (.pollInit (.ready (.error ()))), .act 1 .pollWaiting, .spawn,
    .act 1 (.pollInit (.ready (.ok 7))), .act 2 .get]

theorem once_agreement_handover :
    StatesMeet Agreement ([], .new) (recording [] (follow next (State.new : State Nat Unit) handover)) ∧
      StepsMeet StepAgrees ([], .new)
        (recording [] (follow next (State.new : State Nat Unit) handover)) :=
  once_agreement _ (isTrace_recording [] (isTrace_follow next .new handover))

example : (last (State.new : State Nat Unit) (follow next .new handover)).futs =
    [.failed (), .initialized 7, .initialized 7] := by
  decide

end BackedData.Utils
