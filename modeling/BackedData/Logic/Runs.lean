/-
# BackedData.Logic.Runs — finite and infinite runs, and what holds in them sooner or later

`Logic.Trace` follows a system up to some point.  A `Run` is all of what a system does, whether it goes on
for ever or comes to an end, and is what a statement about termination or fairness is about.  Behind the end
of a finite run there are no more labels, and its last state stays.  `carried` takes a fact along the steps
that keep it, `settles` finds the point from which a number that never grows stays the same, and `iterate`
builds the run of a step function whose events are never refused.
-/
import BackedData.Logic.Trace

namespace Logic.Runs

open Logic.Trace

set_option autoImplicit false

universe u v

variable {σ : Type u} {ℓ : Type v} {step : σ → ℓ → σ → Prop}

/-- **`Run step`** — a run, infinite or finite: its states, and the label of the step behind each of them,
`none` from the end of a finite run on. -/
structure Run (step : σ → ℓ → σ → Prop) where
  state : Nat → σ
  label : Nat → Option ℓ
  steps : ∀ n l, label n = some l → step (state n) l (state (n + 1))
  rests : ∀ n, label n = none → state (n + 1) = state n
  ended : ∀ n, label n = none → label (n + 1) = none

namespace Run

variable (r : Run step)

/-- **`r.Maximal`** — the run is infinite, or ends where no step is left. -/
def Maximal : Prop := ∀ n, r.label n = none → ∀ l t, ¬ step (r.state n) l t

/-- What holds at one point, and survives every step from there up to another, holds at the other. -/
theorem carried {P : Nat → Prop} {n m : Nat} (hnm : n ≤ m) (h0 : P n)
    (hstep : ∀ k, n ≤ k → k < m → P k → P (k + 1)) : P m := by
  induction hnm with
  | refl => exact h0
  | @step m hnm ih =>
      exact hstep m hnm (Nat.lt_succ_self m) (ih fun k hk hkm => hstep k hk (Nat.lt_succ_of_lt hkm))

/-- What holds in the first state and survives every step holds in every state. -/
theorem invariant {P : σ → Prop} (hstep : ∀ s l t, P s → step s l t → P t) (h0 : P (r.state 0)) (n : Nat) :
    P (r.state n) := by
  induction n with
  | zero => exact h0
  | succ n ih =>
      cases hl : r.label n with
      | none =>
          rw [r.rests n hl]
          exact ih
      | some l => exact hstep _ _ _ ih (r.steps n l hl)

end Run

/-- A number that does not grow from some point on stays the same from a later one on. -/
theorem settles (μ : Nat → Nat) {n : Nat} (h : ∀ k, n ≤ k → μ (k + 1) ≤ μ k) :
    ∃ m, n ≤ m ∧ ∀ k, m ≤ k → μ k = μ m := by
  induction hμ : μ n using Nat.strongRecOn generalizing n with
  | _ v ih =>
      by_cases hlow : ∃ k, n ≤ k ∧ μ k < μ n
      · obtain ⟨k, hk, hlt⟩ := hlow
        obtain ⟨m, hm, hconst⟩ := ih (μ k) (hμ ▸ hlt) (fun j hj => h j (Nat.le_trans hk hj)) rfl
        exact ⟨m, Nat.le_trans hk hm, hconst⟩
      · refine ⟨n, Nat.le_refl n, fun k hk => ?_⟩
        have hle : μ k ≤ μ n :=
          Run.carried (P := fun k => μ k ≤ μ n) hk (Nat.le_refl _)
            (fun j hj _ hjle => Nat.le_trans (h j hj) hjle)
        exact Nat.le_antisymm hle (Nat.le_of_not_lt fun hlt => hlow ⟨k, hk, hlt⟩)

/-- The states of a step function under given events, where a refused event changes nothing. -/
def iterate (next : σ → ℓ → Option σ) (s : σ) (label : Nat → Option ℓ) : Nat → σ
  | 0 => s
  | n + 1 =>
      match label n with
      | none => iterate next s label n
      | some l => (next (iterate next s label n) l).getD (iterate next s label n)

/-- The run of a step function under events that are never refused. -/
def Run.ofLabels (next : σ → ℓ → Option σ) (s : σ) (label : Nat → Option ℓ)
    (h : ∀ n l, label n = some l → (next (iterate next s label n) l).isSome = true)
    (hend : ∀ n, label n = none → label (n + 1) = none) : Run (Steps next) where
  state := iterate next s label
  label := label
  steps n l hl := by
    obtain ⟨t, ht⟩ := Option.isSome_iff_exists.1 (h n l hl)
    show next _ _ = some (iterate next s label (n + 1))
    simp only [iterate, hl, ht, Option.getD_some]
  rests n hl := by
    rw [iterate, hl]
  ended := hend

/-- The run of a step function on a list of events, none of which is refused. -/
def Run.ofList (next : σ → ℓ → Option σ) (s : σ) (ls : List ℓ)
    (h : ∀ n l, ls[n]? = some l → (next (iterate next s (ls[·]?) n) l).isSome = true) : Run (Steps next) :=
  .ofLabels next s (ls[·]?) h fun n hl => by
    rw [List.getElem?_eq_none_iff] at hl ⊢
    omega

end Logic.Runs
