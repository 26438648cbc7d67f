/-
# BackedData.Logic.Trace — labelled transition systems and what holds along their runs

A system is a step relation `σ → ℓ → σ → Prop`; a run is the list of its labels and the states they
lead to.  The rules a verification of such a system uses are proved once here:

* `invariant` — what holds at the start and survives every step holds in every state of every run;
* `invariant_under` — the same for the runs all of whose steps meet a side condition, when only such
  steps preserve the invariant;
* `stepsMeet_iff` — if, wherever the invariant holds, a step does what is asked of it exactly when it
  meets the condition, then a whole run does what is asked of it exactly when all its steps meet the
  condition.  The condition is exact, not merely enough.

`Recorded` adds the labels taken so far to the state, and `observed` what an observer makes of each
step, so that a condition may speak about the past of a run without the modelled program carrying any
bookkeeping for it.
-/
import Mathlib.Data.List.Basic

namespace Logic.Trace

set_option autoImplicit false

universe u v

variable {σ ω : Type u} {ℓ : Type v}

/-- **`IsTrace step s tr`** — `tr` is a run from `s`: each label with the state it leads to. -/
def IsTrace (step : σ → ℓ → σ → Prop) : σ → List (ℓ × σ) → Prop
  | _, [] => True
  | s, (l, t) :: rest => step s l t ∧ IsTrace step t rest

/-- Every step of the run meets `cond`, given the state before it, its label and the state after. -/
def StepsMeet (cond : σ → ℓ → σ → Prop) : σ → List (ℓ × σ) → Prop
  | _, [] => True
  | s, (l, t) :: rest => cond s l t ∧ StepsMeet cond t rest

instance decidableStepsMeet (cond : σ → ℓ → σ → Prop) [∀ s l t, Decidable (cond s l t)] :
    ∀ (s : σ) (tr : List (ℓ × σ)), Decidable (StepsMeet cond s tr)
  | _, [] => isTrue trivial
  | s, (l, t) :: rest =>
      have := decidableStepsMeet cond t rest
      inferInstanceAs (Decidable (cond s l t ∧ StepsMeet cond t rest))

/-- Every state of the run, the first one included, satisfies `P`. -/
def StatesMeet (P : σ → Prop) (s : σ) (tr : List (ℓ × σ)) : Prop :=
  P s ∧ ∀ x ∈ tr, P x.2

/-- The state a run ends in. -/
def last : σ → List (ℓ × σ) → σ
  | s, [] => s
  | _, (_, t) :: rest => last t rest

/-- The step relation of a partial step function. -/
def Steps (next : σ → ℓ → Option σ) : σ → ℓ → σ → Prop :=
  fun s l t => next s l = some t

/-- The run of a partial step function on a list of labels, up to the first one it refuses. -/
def follow (next : σ → ℓ → Option σ) : σ → List ℓ → List (ℓ × σ)
  | _, [] => []
  | s, l :: ls =>
      match next s l with
      | none => []
      | some t => (l, t) :: follow next t ls

/-- The step relation of a system that takes requests and answers them; a label is a request with its
answer. -/
def Reacts {ι o : Type v} (next : σ → ι → Option (o × σ)) : σ → ι × o → σ → Prop :=
  fun s l t => next s l.1 = some (l.2, t)

/-- The run such a system makes on a list of requests, up to the first one it cannot take. -/
def react {ι o : Type v} (next : σ → ι → Option (o × σ)) : σ → List ι → List ((ι × o) × σ)
  | _, [] => []
  | s, i :: rest =>
      match next s i with
      | none => []
      | some (a, t) => ((i, a), t) :: react next t rest

/-- The system that also remembers the labels it took. -/
def Recorded (step : σ → ℓ → σ → Prop) : List ℓ × σ → ℓ → List ℓ × σ → Prop :=
  fun p l q => step p.2 l q.2 ∧ q.1 = p.1 ++ [l]

/-- The system beside an observer, who notes each step with the states around it. -/
def observed (next : σ → ℓ → Option σ) (note : σ → ℓ → σ → ω → ω) (p : σ × ω) (l : ℓ) :
    Option (σ × ω) :=
  (next p.1 l).map fun t => (t, note p.1 l t p.2)

variable {step : σ → ℓ → σ → Prop} {cond Q : σ → ℓ → σ → Prop} {P I : σ → Prop}

@[simp] theorem stepsMeet_nil (s : σ) : StepsMeet cond s ([] : List (ℓ × σ)) := trivial

@[simp] theorem stepsMeet_cons (s t : σ) (l : ℓ) (rest : List (ℓ × σ)) :
    StepsMeet cond s ((l, t) :: rest) ↔ cond s l t ∧ StepsMeet cond t rest := Iff.rfl

theorem statesMeet_cons (s t : σ) (l : ℓ) (rest : List (ℓ × σ)) :
    StatesMeet P s ((l, t) :: rest) ↔ P s ∧ StatesMeet P t rest := by
  simp only [StatesMeet, List.forall_mem_cons]

/-- **Invariance.** -/
theorem invariant (hstep : ∀ s l t, P s → step s l t → P t) {s : σ} {tr : List (ℓ × σ)}
    (h0 : P s) (htr : IsTrace step s tr) : StatesMeet P s tr := by
  induction tr generalizing s with
  | nil => exact ⟨h0, fun x hx => absurd hx List.not_mem_nil⟩
  | cons a rest ih =>
      obtain ⟨l, t⟩ := a
      exact (statesMeet_cons s t l rest).mpr ⟨h0, ih (hstep s l t h0 htr.1) htr.2⟩

/-- **Invariance along the runs that meet a condition.** -/
theorem invariant_under (hstep : ∀ s l t, P s → step s l t → cond s l t → P t) {s : σ}
    {tr : List (ℓ × σ)} (h0 : P s) (htr : IsTrace step s tr) (hc : StepsMeet cond s tr) :
    StatesMeet P s tr := by
  induction tr generalizing s with
  | nil => exact ⟨h0, fun x hx => absurd hx List.not_mem_nil⟩
  | cons a rest ih =>
      obtain ⟨l, t⟩ := a
      exact (statesMeet_cons s t l rest).mpr
        ⟨h0, ih (hstep s l t h0 htr.1 hc.1) htr.2 hc.2⟩

/-- What every step taken from an invariant state does, every step of a run does. -/
theorem stepsMeet_of_invariant (hstep : ∀ s l t, I s → step s l t → I t)
    (hQ : ∀ s l t, I s → step s l t → Q s l t) {s : σ} {tr : List (ℓ × σ)} (h0 : I s)
    (htr : IsTrace step s tr) : StepsMeet Q s tr := by
  induction tr generalizing s with
  | nil => trivial
  | cons a rest ih =>
      obtain ⟨l, t⟩ := a
      exact ⟨hQ s l t h0 htr.1, ih (hstep s l t h0 htr.1) htr.2⟩

/-- **The exact condition.**  `I` survives the steps that meet `cond`, and in an `I`-state a step does
what `Q` asks exactly when it meets `cond`; so a run does what `Q` asks exactly when every step of it
meets `cond`. -/
theorem stepsMeet_iff (hstep : ∀ s l t, I s → step s l t → cond s l t → I t)
    (hiff : ∀ s l t, I s → step s l t → (Q s l t ↔ cond s l t)) {s : σ} {tr : List (ℓ × σ)}
    (h0 : I s) (htr : IsTrace step s tr) : StepsMeet Q s tr ↔ StepsMeet cond s tr := by
  induction tr generalizing s with
  | nil => exact Iff.rfl
  | cons a rest ih =>
      obtain ⟨l, t⟩ := a
      have hhead := hiff s l t h0 htr.1
      constructor
      · rintro ⟨hq, hrest⟩
        have hc := hhead.mp hq
        exact ⟨hc, (ih (hstep s l t h0 htr.1 hc) htr.2).mp hrest⟩
      · rintro ⟨hc, hrest⟩
        exact ⟨hhead.mpr hc, (ih (hstep s l t h0 htr.1 hc) htr.2).mpr hrest⟩

/-- A run of the steps that meet a condition. -/
theorem isTrace_and {s : σ} {tr : List (ℓ × σ)} :
    IsTrace (fun s l t => step s l t ∧ cond s l t) s tr ↔ IsTrace step s tr ∧ StepsMeet cond s tr := by
  induction tr generalizing s with
  | nil => exact ⟨fun _ => ⟨trivial, trivial⟩, fun _ => trivial⟩
  | cons a rest ih =>
      obtain ⟨l, t⟩ := a
      constructor
      · rintro ⟨⟨hstep, hcond⟩, hrest⟩
        obtain ⟨htr, hmeet⟩ := ih.mp hrest
        exact ⟨⟨hstep, htr⟩, hcond, hmeet⟩
      · rintro ⟨⟨hstep, htr⟩, hcond, hmeet⟩
        exact ⟨⟨hstep, hcond⟩, ih.mpr ⟨htr, hmeet⟩⟩

/-- A property of the state after each step is a property of every state after the first. -/
theorem stepsMeet_post {s : σ} {tr : List (ℓ × σ)} :
    StepsMeet (fun _ _ t => P t) s tr ↔ ∀ x ∈ tr, P x.2 := by
  induction tr generalizing s with
  | nil => simp
  | cons a rest ih =>
      obtain ⟨l, t⟩ := a
      simp only [stepsMeet_cons, List.forall_mem_cons, ih]

/-- The state a run ends in is one of its states. -/
theorem StatesMeet.last {s : σ} {tr : List (ℓ × σ)} (h : StatesMeet P s tr) :
    P (last s tr) := by
  induction tr generalizing s with
  | nil => exact h.1
  | cons a rest ih =>
      obtain ⟨l, t⟩ := a
      exact ih ((statesMeet_cons s t l rest).mp h).2

/-- What no step can bring about has held all along where it holds in the end. -/
theorem statesMeet_of_last (hback : ∀ s l t, step s l t → P t → P s) {s : σ} {tr : List (ℓ × σ)}
    (htr : IsTrace step s tr) (h : P (last s tr)) : StatesMeet P s tr := by
  induction tr generalizing s with
  | nil => exact ⟨h, fun x hx => absurd hx List.not_mem_nil⟩
  | cons a rest ih =>
      obtain ⟨l, t⟩ := a
      have hrest := ih htr.2 h
      exact (statesMeet_cons s t l rest).mpr ⟨hback s l t htr.1 hrest.1, hrest⟩

/-- A run is no longer than a number every step lowers. -/
theorem length_le_of_lowers {μ : σ → Nat} (hstep : ∀ s l t, step s l t → μ t < μ s) {s : σ}
    {tr : List (ℓ × σ)} (htr : IsTrace step s tr) : tr.length + μ (last s tr) ≤ μ s := by
  induction tr generalizing s with
  | nil => exact Nat.le_of_eq (Nat.zero_add _)
  | cons a rest ih =>
      obtain ⟨l, t⟩ := a
      have hlower := hstep s l t htr.1
      have hrest := ih htr.2
      show rest.length + 1 + μ (last t rest) ≤ μ s
      omega

/-- Where every step lowers a number, some run cannot be continued. -/
theorem exists_maximal {μ : σ → Nat} (hstep : ∀ s l t, step s l t → μ t < μ s) (s : σ) :
    ∃ tr, IsTrace step s tr ∧ ∀ l t, ¬step (last s tr) l t := by
  induction h : μ s using Nat.strongRecOn generalizing s with
  | _ m ih =>
      by_cases hmore : ∃ l t, step s l t
      · obtain ⟨l, t, hst⟩ := hmore
        obtain ⟨tr, htr, hend⟩ := ih (μ t) (h ▸ hstep s l t hst) t rfl
        exact ⟨(l, t) :: tr, ⟨hst, htr⟩, hend⟩
      · exact ⟨[], trivial, fun l t hst => hmore ⟨l, t, hst⟩⟩

/-- What a system does on a list of requests is a run of it. -/
theorem isTrace_react {ι o : Type v} (next : σ → ι → Option (o × σ)) (s : σ) (is : List ι) :
    IsTrace (Reacts next) s (react next s is) := by
  induction is generalizing s with
  | nil => trivial
  | cons i is ih =>
      unfold react
      rcases h : next s i with _ | ⟨a, t⟩
      · trivial
      · exact ⟨h, ih t⟩

/-- Following labels through a step function gives a run of it. -/
theorem isTrace_follow (next : σ → ℓ → Option σ) (s : σ) (ls : List ℓ) :
    IsTrace (Steps next) s (follow next s ls) := by
  induction ls generalizing s with
  | nil => trivial
  | cons l ls ih =>
      unfold follow
      rcases h : next s l with _ | t
      · trivial
      · exact ⟨h, ih t⟩

/-- The observer changes nothing of what the system does. -/
theorem observed_inv {next : σ → ℓ → Option σ} {note : σ → ℓ → σ → ω → ω} {p q : σ × ω} {l : ℓ}
    (h : observed next note p l = some q) : next p.1 l = some q.1 ∧ q.2 = note p.1 l q.1 p.2 := by
  unfold observed at h
  obtain ⟨t, ht, rfl⟩ := Option.map_eq_some_iff.mp h
  exact ⟨ht, rfl⟩

/-- A run with the labels taken so far written beside each state. -/
def recording : List ℓ → List (ℓ × σ) → List (ℓ × (List ℓ × σ))
  | _, [] => []
  | past, (l, t) :: rest => (l, (past ++ [l], t)) :: recording (past ++ [l]) rest

/-- A run, recorded, is a run of the system that remembers. -/
theorem isTrace_recording {s : σ} {tr : List (ℓ × σ)} (past : List ℓ) (h : IsTrace step s tr) :
    IsTrace (Recorded step) (past, s) (recording past tr) := by
  induction tr generalizing s past with
  | nil => trivial
  | cons a rest ih =>
      obtain ⟨l, t⟩ := a
      exact ⟨⟨h.1, rfl⟩, ih (past ++ [l]) h.2⟩

end Logic.Trace
