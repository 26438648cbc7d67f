/-
# BackedData.Logic.Simulation — a run of one system as a run of a simpler one

Two labelled transition systems over the same labels, and a relation between their states.  `Simulates`
asks that every step of the concrete system from a related state be a step of the abstract one with the
same label, to a related state; `Simulates.run` makes a whole abstract run of a concrete one, state by
state.  Where the states are tables, related member by member, a step of one member is `forall₂_set`.
-/
import BackedData.Logic.Trace
import Mathlib.Data.List.Forall2

namespace Logic.Simulation

open Logic.Trace

set_option autoImplicit false

universe u v w

variable {α : Type u} {σ : Type v} {ℓ : Type w}

/-- **`Simulates R astep cstep`** — the concrete steps are abstract ones. -/
def Simulates (R : α → σ → Prop) (astep : α → ℓ → α → Prop) (cstep : σ → ℓ → σ → Prop) : Prop :=
  ∀ a s l t, R a s → cstep s l t → ∃ b, astep a l b ∧ R b t

/-- **`SideBySide R atr tr`** — two runs with the same labels, through related states. -/
def SideBySide (R : α → σ → Prop) (atr : List (ℓ × α)) (tr : List (ℓ × σ)) : Prop :=
  List.Forall₂ (fun x y => x.1 = y.1 ∧ R x.2 y.2) atr tr

variable {R R' : α → σ → Prop} {astep : α → ℓ → α → Prop} {cstep : σ → ℓ → σ → Prop}

/-- **A run of the concrete system is one of the abstract system.** -/
theorem Simulates.run (h : Simulates R astep cstep) {a : α} {s : σ} {tr : List (ℓ × σ)} (h0 : R a s)
    (htr : IsTrace cstep s tr) : ∃ atr, IsTrace astep a atr ∧ SideBySide R atr tr := by
  induction tr generalizing a s with
  | nil => exact ⟨[], trivial, .nil⟩
  | cons x rest ih =>
      obtain ⟨l, t⟩ := x
      obtain ⟨hstep, hrest⟩ := htr
      obtain ⟨b, hb, hbt⟩ := h a s l t h0 hstep
      obtain ⟨atr, hatr, hside⟩ := ih hbt hrest
      exact ⟨(l, b) :: atr, ⟨hb, hatr⟩, .cons ⟨rfl, hbt⟩ hside⟩

theorem SideBySide.imp {atr : List (ℓ × α)} {tr : List (ℓ × σ)} (h : SideBySide R atr tr)
    (himp : ∀ a s, R a s → R' a s) : SideBySide R' atr tr := by
  unfold SideBySide at h ⊢
  exact h.imp fun _ _ hxy => ⟨hxy.1, himp _ _ hxy.2⟩

/-- Two tables related member by member stay so when one member is replaced. -/
theorem forall₂_set {β : Type v} {R : α → β → Prop} {xs : List α} {ys : List β} (h : List.Forall₂ R xs ys)
    {i : Nat} {x : α} {y : β} (hy : ys[i]? = some y) (hxy : R x y) : List.Forall₂ R (xs.set i x) ys := by
  induction h generalizing i with
  | nil => cases hy
  | cons hfirst hrest ih =>
      cases i with
      | zero =>
          cases hy
          exact .cons hxy hrest
      | succ i => exact .cons hfirst (ih hy)

end Logic.Simulation
