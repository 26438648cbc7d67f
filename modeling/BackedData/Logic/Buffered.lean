/-
# BackedData.Logic.Buffered — a stream of futures, so many at a time, and their results in order

`buffered(n)` asks its source for futures while fewer than `n` are in its queue, runs the ones it has, and
yields their results in the order of the source; collecting the yields ends at the first error.  The
futures of the queue complete in any order, so this is a step relation.  What a future comes to when it
completes is written beside it from the start.

`settles_iff` is what a caller may count on: if `n` is not zero, every run is finite and the ones that
cannot go on have returned the first error in the order of the source, or all results; if it is zero, the
source is never asked whether it has anything, and nothing is ever returned.
-/
import BackedData.Logic.Trace
import Mathlib.Algebra.Ring.Nat

namespace Logic.Buffered

open Logic.Trace

set_option autoImplicit false

universe u v

/-- A future in the queue: whether it has completed, and what it comes to. -/
structure Job (ε : Type u) (β : Type v) where
  done : Bool
  outcome : Except ε β
  deriving DecidableEq, Repr

/-- The buffered stream, and the collection of what it yields. -/
structure Collecting (ε : Type u) (β : Type v) where
  source : List (Except ε β)
  exhausted : Bool
  queue : List (Job ε β)
  collected : List β
  result : Option (Except ε (List β))
  deriving Repr

/-- What can happen next: a future is started, the source reports its end, future `i` of the queue
completes, the front of the queue is yielded, the stream ends. -/
inductive Act where
  | start
  | exhaust
  | complete (i : Nat)
  | yield
  | finish
  deriving DecidableEq, Repr

/-- The first error in the order of the list, or everything. -/
def inOrder {ε : Type u} {β : Type v} : List (Except ε β) → Except ε (List β)
  | [] => .ok []
  | .error e :: _ => .error e
  | .ok b :: rest =>
      match inOrder rest with
      | .error e => .error e
      | .ok bs => .ok (b :: bs)

variable {ε : Type u} {β : Type v}

namespace Collecting

/-- Nothing has been asked for yet. -/
def new (jobs : List (Except ε β)) : Collecting ε β :=
  { source := jobs, exhausted := false, queue := [], collected := [], result := none }

/-- One step, at width `n`; none behind the return. -/
def next (n : Nat) (s : Collecting ε β) (act : Act) : Option (Collecting ε β) :=
  if s.result.isSome then none
  else
    match act with
    | .start =>
        match s.source with
        | [] => none
        | o :: rest =>
            if s.queue.length < n then
              some { s with source := rest, queue := s.queue ++ [{ done := false, outcome := o }] }
            else none
    | .exhaust =>
        match s.source with
        | [] => if s.queue.length < n ∧ s.exhausted = false then some { s with exhausted := true } else none
        | _ :: _ => none
    | .complete i =>
        match s.queue[i]? with
        | some { done := false, outcome } =>
            some { s with queue := s.queue.set i { done := true, outcome } }
        | _ => none
    | .yield =>
        match s.queue with
        | { done := true, outcome := .ok b } :: rest =>
            some { s with queue := rest, collected := s.collected ++ [b] }
        | { done := true, outcome := .error e } :: rest =>
            some { s with queue := rest, result := some (.error e) }
        | _ => none
    | .finish =>
        match s.queue with
        | [] => if s.exhausted then some { s with result := some (.ok s.collected) } else none
        | _ :: _ => none

/-- What one step can do. -/
inductive Stepped (n : Nat) (s : Collecting ε β) : Collecting ε β → Prop where
  | start {o : Except ε β} {rest : List (Except ε β)} (hsource : s.source = o :: rest)
      (hroom : s.queue.length < n) : Stepped n s
        { s with source := rest, queue := s.queue ++ [{ done := false, outcome := o }] }
  | exhaust (hsource : s.source = []) (hroom : s.queue.length < n) (hex : s.exhausted = false) :
      Stepped n s { s with exhausted := true }
  | complete {i : Nat} {o : Except ε β} (hi : s.queue[i]? = some { done := false, outcome := o }) :
      Stepped n s { s with queue := s.queue.set i { done := true, outcome := o } }
  | yield {b : β} {rest : List (Job ε β)} (hqueue : s.queue = { done := true, outcome := .ok b } :: rest) :
      Stepped n s { s with queue := rest, collected := s.collected ++ [b] }
  | fail {e : ε} {rest : List (Job ε β)} (hqueue : s.queue = { done := true, outcome := .error e } :: rest) :
      Stepped n s { s with queue := rest, result := some (.error e) }
  | finish (hqueue : s.queue = []) (hex : s.exhausted = true) :
      Stepped n s { s with result := some (.ok s.collected) }

theorem next_inv {n : Nat} {s t : Collecting ε β} {act : Act} (h : next n s act = some t) :
    s.result = none ∧ Stepped n s t := by
  obtain ⟨source, exhausted, queue, collected, _ | r⟩ := s
  · refine ⟨rfl, ?_⟩
    unfold next at h
    simp only [Option.isSome_none, Bool.false_eq_true, if_false] at h
    cases act with
    | start =>
        rcases source with _ | ⟨o, rest⟩
        · cases h
        · simp only [Option.ite_none_right_eq_some, Option.some.injEq] at h
          obtain ⟨hroom, rfl⟩ := h
          exact .start rfl hroom
    | exhaust =>
        rcases source with _ | ⟨o, rest⟩
        · simp only [Option.ite_none_right_eq_some, Option.some.injEq] at h
          obtain ⟨⟨hroom, hex⟩, rfl⟩ := h
          exact .exhaust rfl hroom hex
        · cases h
    | complete i =>
        rcases hi : queue[i]? with _ | ⟨_ | _, o⟩
        · simp [hi] at h
        · simp only [hi, Option.some.injEq] at h
          subst h
          exact .complete hi
        · simp [hi] at h
    | yield =>
        rcases queue with _ | ⟨⟨_ | _, e | b⟩, rest⟩
        · cases h
        · cases h
        · cases h
        · cases h
          exact .fail rfl
        · cases h
          exact .yield rfl
    | finish =>
        rcases queue with _ | ⟨job, rest⟩
        · simp only [Option.ite_none_right_eq_some, Option.some.injEq] at h
          obtain ⟨hex, rfl⟩ := h
          exact .finish rfl hex
        · cases h
  · cases h

/-! ## Every run is finite -/

/-- How much there is to do for a future of the queue: to complete it, and to yield it. -/
def leftOf (job : Job ε β) : Nat := if job.done then 1 else 2

/-- Replacing a member of a sum. -/
theorem sum_set {xs : List Nat} {i x : Nat} (y : Nat) (h : xs[i]? = some x) :
    (xs.set i y).sum + x = xs.sum + y := by
  induction xs generalizing i with
  | nil => cases h
  | cons z xs ih =>
      cases i with
      | zero =>
          obtain rfl : z = x := by simpa using h
          simp only [List.set_cons_zero, List.sum_cons]
          omega
      | succ i =>
          have := ih (i := i) (by simpa using h)
          simp only [List.set_cons_succ, List.sum_cons]
          omega

/-- How much there is to do. -/
def left (s : Collecting ε β) : Nat :=
  3 * s.source.length + (s.queue.map leftOf).sum + (if s.exhausted then 0 else 1) +
    (if s.result.isSome then 0 else 1)

/-- **Every step** leaves less to do. -/
theorem next_lowers {n : Nat} {s t : Collecting ε β} {act : Act} (h : next n s act = some t) :
    left t < left s := by
  obtain ⟨hres, hstep⟩ := next_inv h
  unfold left
  rw [hres]
  cases hstep with
  | start hsource hroom =>
      simp only [hsource, List.length_cons, List.map_append, List.sum_append, List.map_singleton,
        List.sum_singleton, hres]
      simp only [leftOf, Bool.false_eq_true, if_false]
      omega
  | exhaust hsource hroom hex =>
      simp only [hex, hres]
      simp
  | @complete i o hi =>
      have hat : (s.queue.map leftOf)[i]? = some 2 := by
        rw [List.getElem?_map, hi]
        rfl
      have hsum := sum_set 1 hat
      have hset : ((s.queue.set i { done := true, outcome := o }).map leftOf).sum =
          ((s.queue.map leftOf).set i 1).sum := by
        rw [List.map_set]
        rfl
      simp only [hset, hres]
      omega
  | yield hqueue =>
      simp only [hqueue, List.map_cons, List.sum_cons, hres]
      simp only [leftOf, if_true]
      omega
  | fail hqueue =>
      simp only [hqueue, List.map_cons, List.sum_cons, Option.isSome_some, Option.isSome_none, if_true,
        Bool.false_eq_true, if_false]
      omega
  | finish hqueue hex =>
      simp

/-! ## What a run returns -/

/-- **`Sound jobs s`** — until it returns, what has been collected, what is in the queue and what is left
of the source are the jobs, in order; and what it returned is the first error, or everything. -/
structure Sound (jobs : List (Except ε β)) (s : Collecting ε β) : Prop where
  jobs_eq : s.result = none → s.collected.map .ok ++ s.queue.map Job.outcome ++ s.source = jobs
  exhausted : s.exhausted = true → s.source = []
  result : ∀ r, s.result = some r → r = inOrder jobs

theorem sound_new (jobs : List (Except ε β)) : Sound jobs (new jobs) where
  jobs_eq _ := rfl
  exhausted := nofun
  result := nofun

/-- The first error behind what has been collected. -/
theorem inOrder_error (collected : List β) (e : ε) (rest : List (Except ε β)) :
    inOrder (collected.map .ok ++ .error e :: rest) = .error e := by
  induction collected with
  | nil => rfl
  | cons b bs ih =>
      simp only [List.map_cons, List.cons_append, inOrder, ih]

theorem inOrder_ok (collected : List β) :
    inOrder (collected.map .ok : List (Except ε β)) = .ok collected := by
  induction collected with
  | nil => rfl
  | cons b bs ih =>
      simp only [List.map_cons, inOrder, ih]

/-- A future that completes comes to what is written beside it. -/
theorem outcomes_done {queue : List (Job ε β)} {i : Nat} {job : Job ε β} (h : queue[i]? = some job) :
    (queue.set i { job with done := true }).map Job.outcome = queue.map Job.outcome := by
  obtain ⟨hlt, rfl⟩ := List.getElem?_eq_some_iff.mp h
  have hlt' : i < (queue.map Job.outcome).length := by
    rw [List.length_map]
    exact hlt
  have hsame : queue[i].outcome = (queue.map Job.outcome)[i] := (List.getElem_map _).symm
  rw [List.map_set]
  show (queue.map Job.outcome).set i queue[i].outcome = _
  rw [hsame, List.set_getElem_self hlt']

/-- **The step lemma.** -/
theorem next_sound {n : Nat} {jobs : List (Except ε β)} {s t : Collecting ε β} {act : Act}
    (h : Sound jobs s) (hnext : next n s act = some t) : Sound jobs t := by
  obtain ⟨hres, hstep⟩ := next_inv hnext
  have hjobs := h.jobs_eq hres
  have hnone : ∀ {P : Prop} {r : Except ε (List β)}, s.result = some r → P := by
    intro P r hr
    rw [hres] at hr
    cases hr
  cases hstep with
  | start hsource hroom =>
      refine ⟨fun _ => ?_, fun hex => ?_, fun r hr => hnone hr⟩
      · rw [← hjobs, hsource]
        simp
      · have hempty := h.exhausted hex
        rw [hsource] at hempty
        cases hempty
  | exhaust hsource hroom hex => exact ⟨fun _ => hjobs, fun _ => hsource, fun r hr => hnone hr⟩
  | complete hi =>
      refine ⟨fun _ => ?_, h.exhausted, fun r hr => hnone hr⟩
      rw [← hjobs, outcomes_done hi]
  | yield hqueue =>
      refine ⟨fun _ => ?_, h.exhausted, fun r hr => hnone hr⟩
      rw [← hjobs, hqueue]
      simp
  | fail hqueue =>
      refine ⟨nofun, h.exhausted, fun r hr => ?_⟩
      obtain rfl := Option.some.inj hr
      rw [← hjobs, hqueue]
      simp only [List.map_cons, List.append_assoc, List.cons_append]
      exact (inOrder_error _ _ _).symm
  | finish hqueue hex =>
      refine ⟨nofun, h.exhausted, fun r hr => ?_⟩
      obtain rfl := Option.some.inj hr
      rw [← hjobs, hqueue, h.exhausted hex]
      simp only [List.map_nil, List.append_nil]
      exact (inOrder_ok _).symm

/-- **Until it returns**, a stream that may run one future can go on. -/
theorem next_progress {n : Nat} (hn : 0 < n) {s : Collecting ε β} (hres : s.result = none) :
    ∃ act t, next n s act = some t := by
  obtain ⟨source, exhausted, queue, collected, result⟩ := s
  obtain rfl : result = none := hres
  rcases queue with _ | ⟨⟨_ | _, e | b⟩, rest⟩
  · rcases source with _ | ⟨o, rest⟩
    · cases exhausted with
      | true => exact ⟨.finish, _, rfl⟩
      | false =>
          refine ⟨.exhaust, { source := [], exhausted := true, queue := [], collected, result := none }, ?_⟩
          simp [next, hn]
    · refine ⟨.start,
        { source := rest, exhausted, queue := [{ done := false, outcome := o }], collected, result := none },
        ?_⟩
      simp [next, hn]
  · exact ⟨.complete 0, _, rfl⟩
  · exact ⟨.complete 0, _, rfl⟩
  · exact ⟨.yield, _, rfl⟩
  · exact ⟨.yield, _, rfl⟩

/-- A stream that may run none never begins. -/
theorem next_zero (jobs : List (Except ε β)) (act : Act) : next 0 (new jobs) act = none := by
  cases act with
  | start =>
      cases jobs with
      | nil => rfl
      | cons o rest => rfl
  | exhaust =>
      cases jobs with
      | nil => rfl
      | cons o rest => rfl
  | complete i => rfl
  | yield => rfl
  | finish => rfl

end Collecting

/-- **`Settles n jobs r`** — every run is finite, and one that cannot go on has returned `r`. -/
def Settles (n : Nat) (jobs : List (Except ε β)) (r : Except ε (List β)) : Prop :=
  ∀ tr, IsTrace (Steps (Collecting.next n)) (Collecting.new jobs) tr →
    tr.length ≤ 3 * jobs.length + 2 ∧
      ((∀ act, Collecting.next n (last (Collecting.new jobs) tr) act = none) →
        (last (Collecting.new jobs) tr).result = some r)

/-- **What a caller may count on.** -/
theorem settles_iff (n : Nat) (jobs : List (Except ε β)) (r : Except ε (List β)) :
    Settles n jobs r ↔ 0 < n ∧ r = inOrder jobs := by
  have hlowers : ∀ (s : Collecting ε β) act t, Steps (Collecting.next n) s act t →
      Collecting.left t < Collecting.left s := fun _ _ _ h => Collecting.next_lowers h
  have hsound : ∀ tr, IsTrace (Steps (Collecting.next n)) (Collecting.new jobs) tr →
      Collecting.Sound jobs (last (Collecting.new jobs) tr) := by
    intro tr htr
    have hinv : StatesMeet (Collecting.Sound jobs) (Collecting.new jobs) tr :=
      invariant (fun _ _ _ h hstep => Collecting.next_sound h hstep) (Collecting.sound_new jobs) htr
    exact hinv.last
  have hfirst : Collecting.left (Collecting.new jobs) = 3 * jobs.length + 2 := by
    simp [Collecting.left, Collecting.new]
  constructor
  · intro h
    have hn : 0 < n := by
      rcases Nat.eq_zero_or_pos n with rfl | hn
      · -- the empty run cannot go on, and has not returned
        have hstuck := (h [] trivial).2 (Collecting.next_zero jobs)
        cases hstuck
      · exact hn
    obtain ⟨tr, htr, hend⟩ := exists_maximal hlowers (Collecting.new jobs)
    have hr := (h tr htr).2 fun act => by
      rcases hstep : Collecting.next n (last (Collecting.new jobs) tr) act with _ | t
      · rfl
      · exact absurd hstep (hend act t)
    exact ⟨hn, (hsound tr htr).result r hr⟩
  · rintro ⟨hn, rfl⟩ tr htr
    have hlength := length_le_of_lowers hlowers htr
    refine ⟨by omega, fun hstuck => ?_⟩
    rcases hres : (last (Collecting.new jobs) tr).result with _ | r
    · obtain ⟨act, t, hstep⟩ := Collecting.next_progress hn hres
      rw [hstuck act] at hstep
      cases hstep
    · rw [(hsound tr htr).result r hres]

end Logic.Buffered
