/-
# BackedData.Logic.Slices — the iterator of a slice

What an iterator over a sequence is measured against: the iterator of a slice, as the list of what it
has left.  `nth` skips and yields, `calls` is a run of such calls, and the run over `List.range` shows
which positions the calls select.  Past the end the iterator is `Fused`: it stays there.
-/
import Mathlib.Data.List.Basic

namespace Logic.Slices

set_option autoImplicit false

universe u v

variable {α : Type u} {β : Type v}

/-- A call on an iterator. -/
inductive Call where
  | next
  | nth (n : Nat)
  deriving DecidableEq, Repr

/-- How many elements the call passes over. -/
def Call.skip : Call → Nat
  | .next => 0
  | .nth n => n

/-- One call, on what is left of the slice. -/
def nth (rest : List α) (n : Nat) : Option α × List α := (rest[n]?, rest.drop (n + 1))

/-- The answers to a run of calls. -/
def calls : List α → List Call → List (Option α)
  | _, [] => []
  | rest, c :: cs => (nth rest c.skip).1 :: calls (nth rest c.skip).2 cs

/-- The positions a run of calls selects, in a slice of this length, from position `p` on. -/
def positions (len p : Nat) (cs : List Call) : List (Option Nat) :=
  calls ((List.range len).drop p) cs

/-- **`Fused answers`** — behind a `None` come only `None`s. -/
def Fused (answers : List (Option α)) : Prop :=
  ∀ i j, i ≤ j → j < answers.length → answers[i]? = some none → answers[j]? = some none

@[simp] theorem calls_length (rest : List α) (cs : List Call) :
    (calls rest cs).length = cs.length := by
  induction cs generalizing rest with
  | nil => rfl
  | cons c cs ih => simp only [calls, List.length_cons, ih]

/-- An iterator with nothing left yields nothing. -/
theorem calls_nil (cs : List Call) : calls ([] : List α) cs = List.replicate cs.length none := by
  induction cs with
  | nil => rfl
  | cons c cs ih =>
      simp only [calls, nth, List.drop_nil, List.getElem?_nil, List.length_cons,
        List.replicate_succ, ih]

/-- **The iterator of a slice is fused.** -/
theorem calls_fused (rest : List α) (cs : List Call) : Fused (calls rest cs) := by
  induction cs generalizing rest with
  | nil =>
      intro i j _ hj
      exact absurd hj (Nat.not_lt_zero j)
  | cons c cs ih =>
      intro i j hij hj hi
      cases i with
      | succ i =>
          obtain ⟨j, rfl⟩ : ∃ k, j = k + 1 := ⟨j - 1, by omega⟩
          exact ih _ i j (by omega) (by simpa [calls] using hj) (by simpa [calls] using hi)
      | zero =>
          have hnone : rest[c.skip]? = none := by simpa [calls, nth] using hi
          -- the call went past the end, and left nothing
          have hleft : rest.drop (c.skip + 1) = [] := by
            apply List.drop_eq_nil_of_le
            have := List.getElem?_eq_none_iff.mp hnone
            omega
          cases j with
          | zero => exact hi
          | succ j =>
              have hj' : j < cs.length := by simpa [calls] using hj
              simp only [calls, nth, hleft, calls_nil, List.getElem?_cons_succ]
              rw [List.getElem?_replicate, if_pos hj']

/-- The next position, of a slice of which `p` are gone. -/
theorem positions_cons (len p : Nat) (c : Call) (cs : List Call) :
    positions len p (c :: cs) =
      (if p + c.skip < len then some (p + c.skip) else none) ::
        positions len (p + c.skip + 1) cs := by
  have hat : ((List.range len).drop p)[c.skip]? =
      if p + c.skip < len then some (p + c.skip) else none := by
    rw [List.getElem?_drop]
    by_cases h : p + c.skip < len
    · rw [if_pos h, List.getElem?_range h]
    · rw [if_neg h, List.getElem?_eq_none (by simpa using h)]
  unfold positions
  simp only [calls, nth, hat, List.drop_drop]
  rfl

end Logic.Slices
