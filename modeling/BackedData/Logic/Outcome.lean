/-
# BackedData.Logic.Outcome — calls that return, or stop in a panic

A small vocabulary for shallow embeddings of a language whose calls either return a value or stop:
`Exec α` is the outcome of a call, `usizeAdd`/`usizeSub` are machine-word arithmetic with the
overflow made visible as a panic, `index` is the bounds-checked slice access and `unwrap` the
partial projection out of an option.  Each operation comes with the one lemma its users need: under
which side condition it returns, and what.  Nothing here knows which program is being modelled.
-/
import Mathlib.Algebra.Ring.Nat
import Mathlib.Data.List.Basic

namespace Logic.Outcome

universe u

/-- The ways a call can stop without returning. -/
inductive Panic where
  | indexOutOfBounds
  | arithmeticOverflow
  | unwrapNone
  | poisonedLock
  | explicit
  deriving DecidableEq, Repr

/-- **`Exec α`** — the outcome of a call: a panic, or a returned `α`. -/
abbrev Exec (α : Type u) := Except Panic α

/-- The number of values of a 64-bit `usize`. -/
def usizeSize : Nat := 2 ^ 64

/-- `a + b` on `usize`; a sum that does not fit stops the call. -/
def usizeAdd (a b : Nat) : Exec Nat :=
  if a + b < usizeSize then .ok (a + b) else .error .arithmeticOverflow

/-- `a - b` on `usize`; a difference below zero stops the call. -/
def usizeSub (a b : Nat) : Exec Nat :=
  if b ≤ a then .ok (a - b) else .error .arithmeticOverflow

/-- `xs[i]`. -/
def index {α : Type u} (xs : List α) (i : Nat) : Exec α :=
  match xs[i]? with
  | some x => .ok x
  | none => .error .indexOutOfBounds

/-- `xs.remove(i)`, the later elements moving down; out of range it stops the call. -/
def removeAt {α : Type u} (xs : List α) (i : Nat) : Exec (List α) :=
  if i < xs.length then .ok (xs.eraseIdx i) else .error .indexOutOfBounds

/-- `x.unwrap()`. -/
def unwrap {α : Type u} : Option α → Exec α
  | some x => .ok x
  | none => .error .unwrapNone

variable {α β : Type u}

theorem usizeAdd_ok {a b : Nat} (h : a + b < usizeSize) : usizeAdd a b = .ok (a + b) := if_pos h

/-- A sum that was returned is the sum. -/
theorem usizeAdd_inv {a b c : Nat} (h : usizeAdd a b = .ok c) : c = a + b := by
  unfold usizeAdd at h
  split at h
  · exact (Except.ok.inj h).symm
  · cases h

theorem usizeSub_ok {a b : Nat} (h : b ≤ a) : usizeSub a b = .ok (a - b) := if_pos h

@[simp] theorem usizeSub_add_left (a b : Nat) : usizeSub (a + b) a = .ok b := by
  rw [usizeSub_ok (Nat.le_add_right a b), Nat.add_sub_cancel_left]

theorem index_ok {xs : List α} {i : Nat} {x : α} (h : xs[i]? = some x) : index xs i = .ok x := by
  simp only [index, h]

/-- An index that was returned is in range. -/
theorem index_inv {xs : List α} {i : Nat} {x : α} (h : index xs i = .ok x) : xs[i]? = some x := by
  unfold index at h
  split at h
  · next y hy =>
      rw [hy, Except.ok.inj h]
  · cases h

theorem index_panics {xs : List α} {i : Nat} (h : xs.length ≤ i) :
    index xs i = .error .indexOutOfBounds := by
  simp only [index, List.getElem?_eq_none h]

theorem removeAt_ok {xs : List α} {i : Nat} (h : i < xs.length) :
    removeAt xs i = .ok (xs.eraseIdx i) := if_pos h

/-- A removal that returned. -/
theorem removeAt_inv {xs ys : List α} {i : Nat} (h : removeAt xs i = .ok ys) : ys = xs.eraseIdx i := by
  unfold removeAt at h
  split at h
  · exact (Except.ok.inj h).symm
  · cases h

theorem unwrap_inv {o : Option α} {x : α} (h : unwrap o = .ok x) : o = some x := by
  cases o with
  | none => cases h
  | some y =>
      cases h
      rfl

@[simp] theorem unwrap_some (x : α) : unwrap (some x) = .ok x := rfl

@[simp] theorem exec_bind_ok (x : α) (f : α → Exec β) : ((.ok x : Exec α) >>= f) = f x := rfl

@[simp] theorem exec_bind_error (p : Panic) (f : α → Exec β) :
    ((.error p : Exec α) >>= f) = .error p := rfl

/-- A sequence of two calls that returned. -/
theorem exec_bind_inv {x : Exec α} {f : α → Exec β} {b : β} (h : x >>= f = .ok b) :
    ∃ a, x = .ok a ∧ f a = .ok b := by
  cases x with
  | error p => cases h
  | ok a => exact ⟨a, rfl, h⟩

/-- A call that returned, seen as an option. -/
theorem toOption_inv {x : Exec α} {a : α} (h : x.toOption = some a) : x = .ok a := by
  cases x with
  | error p => cases h
  | ok b => exact congrArg Except.ok (Option.some.inj h)

@[simp] theorem exec_pure (x : α) : (pure x : Exec α) = .ok x := rfl

/-- **Mapping over a list with a step that may stop.**  When the step returns `g x` on every member
the whole traversal returns the mapped list. -/
theorem mapM_ok {f : α → Exec β} {g : α → β} {xs : List α} (h : ∀ x ∈ xs, f x = .ok (g x)) :
    xs.mapM f = .ok (xs.map g) := by
  induction xs with
  | nil => rfl
  | cons x xs ih =>
      have hx : f x = .ok (g x) := h x List.mem_cons_self
      have hxs : xs.mapM f = .ok (xs.map g) := ih fun y hy => h y (List.mem_cons_of_mem x hy)
      rw [List.mapM_cons, hx, exec_bind_ok, hxs, exec_bind_ok, exec_pure, List.map_cons]

/-- A loop that returned, whose steps return only what a function does, returned a map. -/
theorem mapM_inv {f : α → Exec β} {g : α → β} (h : ∀ x y, f x = .ok y → y = g x) {xs : List α}
    {ys : List β} (hm : xs.mapM f = .ok ys) : ys = xs.map g := by
  induction xs generalizing ys with
  | nil =>
      cases hm
      rfl
  | cons x xs ih =>
      rw [List.mapM_cons] at hm
      rcases hx : f x with p | y
      · rw [hx] at hm
        cases hm
      · rw [hx, exec_bind_ok] at hm
        rcases hxs : xs.mapM f with p | zs
        · rw [hxs] at hm
          cases hm
        · rw [hxs, exec_bind_ok, exec_pure] at hm
          cases hm
          rw [List.map_cons, h x y hx, ih hxs]

end Logic.Outcome
