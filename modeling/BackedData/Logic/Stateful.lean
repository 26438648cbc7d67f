/-
# BackedData.Logic.Stateful — calls that change a state, and keep the changes when they fail

`Method ε σ α` is a call on a state `σ` that returns an `α`, returns an error, or panics.  Unlike in
a transaction, what it did to the state before an error stays done: that is what a method on a mutable
reference does when a `?` ends it early.  With the monad come the rules to reason about such calls: `Meets`
says where a call can end (in a value, in an error, in a panic), `meets_bind` and its companions take a
sequence of calls apart, and `Meets.mono` weakens a postcondition.
-/
import BackedData.Logic.Outcome

namespace Logic.Stateful

open Logic.Outcome

set_option autoImplicit false

/-- **`Method ε σ α`** — a call on a state: a panic, or a result with the state it leaves. -/
def Method (ε σ α : Type) : Type := σ → Exec (Except ε α × σ)

namespace Method

variable {ε σ τ α β : Type}

/-- Sequencing: an error ends the sequence where it occurs. -/
protected def bind (m : Method ε σ α) (f : α → Method ε σ β) : Method ε σ β := fun s =>
  match m s with
  | .error p => .error p
  | .ok (.error e, s) => .ok (.error e, s)
  | .ok (.ok a, s) => f a s

instance : Monad (Method ε σ) where
  pure a := fun s => .ok (.ok a, s)
  bind := Method.bind

/-- Return an error. -/
def fail (e : ε) : Method ε σ α := fun s => .ok (.error e, s)

/-- Read the state. -/
def get : Method ε σ σ := fun s => .ok (.ok s, s)

/-- Change the state. -/
def modify (f : σ → σ) : Method ε σ Unit := fun s => .ok (.ok (), f s)

/-- A computation that touches no state, and may panic. -/
def ofExec (x : Exec α) : Method ε σ α := fun s =>
  match x with
  | .error p => .error p
  | .ok a => .ok (.ok a, s)

/-- A call that does not panic. -/
def ofCall (f : σ → Except ε α × σ) : Method ε σ α := fun s => .ok (f s)

/-- Run a call and look at its result; the error does not end the sequence. -/
def attempt (m : Method ε σ α) : Method ε σ (Except ε α) := fun s =>
  match m s with
  | .error p => .error p
  | .ok (r, s) => .ok (.ok r, s)

/-- A call whose error is a panic. -/
def orPanic (m : Method ε σ α) (p : Panic) : Method ε σ α := fun s =>
  match m s with
  | .error p => .error p
  | .ok (.error _, _) => .error p
  | .ok (.ok a, s) => .ok (.ok a, s)

/-- A call whose error is reported as another one. -/
def mapError {ε' : Type} (f : ε → ε') (m : Method ε σ α) : Method ε' σ α := fun s =>
  match m s with
  | .error p => .error p
  | .ok (r, s) => .ok (r.mapError f, s)

/-- A call on the second half of the state. -/
def onSnd (m : Method ε τ α) : Method ε (σ × τ) α := fun s =>
  match m s.2 with
  | .error p => .error p
  | .ok (r, t) => .ok (r, (s.1, t))

/-- One call after another on the members of a list. -/
def forEach (f : α → Method ε σ Unit) : List α → Method ε σ Unit
  | [] => pure ()
  | x :: xs => do
      f x
      forEach f xs

end Method

/-! ## Where a call can end -/

/-- A postcondition: for a value, for an error, for a panic. -/
structure Post (ε σ α : Type) where
  ok : α → σ → Prop
  error : ε → σ → Prop
  panic : Panic → Prop

/-- **`Meets m s Q`** — the call `m` from the state `s` ends as `Q` allows. -/
def Meets {ε σ α : Type} (m : Method ε σ α) (s : σ) (Q : Post ε σ α) : Prop :=
  match m s with
  | .ok (.ok a, s) => Q.ok a s
  | .ok (.error e, s) => Q.error e s
  | .error p => Q.panic p

section Rules

variable {ε σ τ α β : Type} {s : σ} {Q : Post ε σ α}

@[simp] theorem meets_pure (a : α) : Meets (pure a : Method ε σ α) s Q ↔ Q.ok a s := Iff.rfl

@[simp] theorem meets_fail (e : ε) : Meets (Method.fail e) s Q ↔ Q.error e s := Iff.rfl

@[simp] theorem meets_get {Q : Post ε σ σ} : Meets Method.get s Q ↔ Q.ok s s := Iff.rfl

@[simp] theorem meets_modify {Q : Post ε σ Unit} (f : σ → σ) :
    Meets (Method.modify f) s Q ↔ Q.ok () (f s) := Iff.rfl

/-- **Sequencing.** -/
@[simp] theorem meets_bind {Q : Post ε σ β} (m : Method ε σ α) (f : α → Method ε σ β) :
    Meets (m >>= f) s Q ↔
      Meets m s { ok := fun a s => Meets (f a) s Q, error := Q.error, panic := Q.panic } := by
  have h : (m >>= f) s = Method.bind m f s := rfl
  unfold Meets
  rw [h]
  unfold Method.bind
  rcases m s with p | ⟨e | a, t⟩
  · exact Iff.rfl
  · exact Iff.rfl
  · exact Iff.rfl

/-- A sequence that first reads the state. -/
theorem meets_get_bind {Q : Post ε σ β} (f : σ → Method ε σ β) :
    Meets (Method.get >>= f) s Q ↔ Meets (f s) s Q := Iff.rfl

/-- A sequence that first changes the state. -/
theorem meets_modify_bind {Q : Post ε σ β} (g : σ → σ) (f : Unit → Method ε σ β) :
    Meets (Method.modify g >>= f) s Q ↔ Meets (f ()) (g s) Q := Iff.rfl

@[simp] theorem meets_attempt {Q : Post ε σ (Except ε α)} (m : Method ε σ α) :
    Meets m.attempt s Q ↔
      Meets m s
        { ok := fun a s => Q.ok (.ok a) s, error := fun e s => Q.ok (.error e) s, panic := Q.panic } := by
  unfold Meets Method.attempt
  rcases m s with p | ⟨e | a, t⟩
  · exact Iff.rfl
  · exact Iff.rfl
  · exact Iff.rfl

@[simp] theorem meets_orPanic (m : Method ε σ α) (p : Panic) :
    Meets (m.orPanic p) s Q ↔
      Meets m s { ok := Q.ok, error := fun _ _ => Q.panic p, panic := Q.panic } := by
  unfold Meets Method.orPanic
  rcases m s with p | ⟨e | a, t⟩
  · exact Iff.rfl
  · exact Iff.rfl
  · exact Iff.rfl

@[simp] theorem meets_mapError {ε' : Type} {Q : Post ε' σ α} (m : Method ε σ α) (f : ε → ε') :
    Meets (m.mapError f) s Q ↔
      Meets m s { ok := Q.ok, error := fun e s => Q.error (f e) s, panic := Q.panic } := by
  unfold Meets Method.mapError
  rcases m s with p | ⟨e | a, t⟩
  · exact Iff.rfl
  · exact Iff.rfl
  · exact Iff.rfl

@[simp] theorem meets_onSnd {m : Method ε τ α} {s : σ × τ} {Q : Post ε (σ × τ) α} :
    Meets m.onSnd s Q ↔
      Meets m s.2
        { ok := fun a t => Q.ok a (s.1, t), error := fun e t => Q.error e (s.1, t),
          panic := Q.panic } := by
  unfold Meets Method.onSnd
  rcases m s.2 with p | ⟨e | a, t⟩
  · exact Iff.rfl
  · exact Iff.rfl
  · exact Iff.rfl

/-- A sequence of which it is known what its first call returns. -/
theorem meets_bind_of_eq {m : Method ε σ α} {f : α → Method ε σ β} {Q : Post ε σ β} {a : α} {t : σ}
    (h : m s = .ok (.ok a, t)) : Meets (m >>= f) s Q ↔ Meets (f a) t Q := by
  rw [meets_bind]
  unfold Meets
  rw [h]

/-- A computation that returns. -/
theorem meets_ofExec_ok {x : Exec α} {a : α} (h : x = .ok a) :
    Meets (Method.ofExec x) s Q ↔ Q.ok a s := by
  subst h
  exact Iff.rfl

/-- A sequence that begins with such a computation. -/
theorem meets_ofExec_bind {x : Exec α} {a : α} (h : x = .ok a) (f : α → Method ε σ β) {Q : Post ε σ β} :
    Meets (Method.ofExec x >>= f) s Q ↔ Meets (f a) s Q := by
  subst h
  exact Iff.rfl

/-- A computation that returns, or panics where that is allowed. -/
theorem meets_ofExec {x : Exec α} (hok : ∀ a, x = .ok a → Q.ok a s)
    (hpanic : ∀ p, x = .error p → Q.panic p) : Meets (Method.ofExec x) s Q := by
  unfold Meets Method.ofExec
  rcases x with p | a
  · exact hpanic p rfl
  · exact hok a rfl

/-- A call that does not panic. -/
theorem meets_ofCall {f : σ → Except ε α × σ} :
    Meets (Method.ofCall f) s Q ↔
      (∀ a t, f s = (.ok a, t) → Q.ok a t) ∧ ∀ e t, f s = (.error e, t) → Q.error e t := by
  unfold Meets Method.ofCall
  rcases f s with ⟨e | a, t⟩
  · exact ⟨fun h => ⟨nofun, fun _ _ heq => by cases heq; exact h⟩, fun h => h.2 e t rfl⟩
  · exact ⟨fun h => ⟨fun _ _ heq => by cases heq; exact h, nofun⟩, fun h => h.1 a t rfl⟩

/-- A call whose result is not looked at. -/
theorem meets_attempt_ofCall {f : σ → Except ε α × σ} {Q : Post ε σ (Except ε α)} :
    Meets (Method.ofCall f).attempt s Q ↔ Q.ok (f s).1 (f s).2 := by
  rw [meets_attempt, meets_ofCall]
  rcases f s with ⟨e | a, t⟩
  · exact ⟨fun h => h.2 e t rfl, fun h => ⟨nofun, fun _ _ heq => by cases heq; exact h⟩⟩
  · exact ⟨fun h => h.1 a t rfl, fun h => ⟨fun _ _ heq => by cases heq; exact h, nofun⟩⟩

/-- **Weakening.** -/
theorem Meets.mono {m : Method ε σ α} {P : Post ε σ α} (h : Meets m s P)
    (hok : ∀ a t, P.ok a t → Q.ok a t) (herror : ∀ e t, P.error e t → Q.error e t)
    (hpanic : ∀ p, P.panic p → Q.panic p) : Meets m s Q := by
  unfold Meets at h ⊢
  rcases hm : m s with p | ⟨e | a, t⟩
  · rw [hm] at h
    exact hpanic p h
  · rw [hm] at h
    exact herror e t h
  · rw [hm] at h
    exact hok a t h

/-- What a call that returned a value has established. -/
theorem Meets.ok {m : Method ε σ α} (h : Meets m s Q) {a : α} {t : σ}
    (hm : m s = .ok (.ok a, t)) : Q.ok a t := by
  unfold Meets at h
  rwa [hm] at h

/-- What a call that returned an error has established. -/
theorem Meets.error {m : Method ε σ α} (h : Meets m s Q) {e : ε} {t : σ}
    (hm : m s = .ok (.error e, t)) : Q.error e t := by
  unfold Meets at h
  rwa [hm] at h

/-! ### Calls that can only fail when something is wrong -/

/-- **`sure calm P F`** — the postcondition of a call that returns a value when `calm` holds: `P` is what
it then leaves, and `F` is what an error leaves. -/
def sure (calm : Prop) (P : α → σ → Prop) (F : σ → Prop) : Post ε σ α where
  ok := P
  error _ s := ¬calm ∧ F s
  panic _ := ¬calm

/-- The postcondition of which only the values count. -/
abbrev onSuccess (P : α → σ → Prop) : Post ε σ α := sure False P fun _ => True

variable {calm : Prop} {P : α → σ → Prop} {F : σ → Prop}

/-- A computation that touches no state. -/
theorem ofExec_onSuccess (x : Exec α) :
    Meets (Method.ofExec x : Method ε σ α) s (onSuccess fun a t => x = .ok a ∧ s = t) :=
  meets_ofExec (fun _ h => ⟨h, rfl⟩) fun _ _ => id

theorem Meets.imp {m : Method ε σ α} {P' : α → σ → Prop} {F' : σ → Prop}
    (h : Meets m s (sure calm P F)) (hP : ∀ a t, P a t → P' a t) (hF : ∀ t, F t → F' t) :
    Meets m s (sure calm P' F') :=
  h.mono hP (fun _ t he => ⟨he.1, hF t he.2⟩) fun _ hp => hp

/-- Sequencing of such calls. -/
theorem Meets.seq {m : Method ε σ α} {f : α → Method ε σ β} {R : β → σ → Prop}
    (h : Meets m s (sure calm P F)) (hf : ∀ a t, P a t → Meets (f a) t (sure calm R F)) :
    Meets (m >>= f) s (sure calm R F) :=
  (meets_bind m f).mpr (h.mono hf (fun _ _ he => he) fun _ hp => hp)

/-- A call returns when something more than it needs holds. -/
theorem Meets.assume {calm' : Prop} {m : Method ε σ α} (h : Meets m s (sure calm P F))
    (hc : calm' → calm) : Meets m s (sure calm' P F) :=
  h.mono (fun _ _ ht => ht) (fun _ _ he => ⟨fun hc' => he.1 (hc hc'), he.2⟩) fun _ hp hc' => hp (hc hc')

/-- One call more, behind a sequence. -/
theorem Meets.andThen {γ : Type} {m : Method ε σ α} {f : α → Method ε σ β} {g : β → Method ε σ γ}
    {P : β → σ → Prop} {R : γ → σ → Prop} (h : Meets (m >>= f) s (sure calm P F))
    (hg : ∀ b t, P b t → Meets (g b) t (sure calm R F)) :
    Meets (m >>= fun a => f a >>= g) s (sure calm R F) := by
  rw [meets_bind] at h ⊢
  refine h.mono (fun a t ht => ?_) (fun _ _ he => he) fun _ hp => hp
  exact Meets.seq ht hg

/-- A caller that does not look at the state after an error. -/
theorem Meets.forget {m : Method ε σ α} (h : Meets m s (sure calm P F)) :
    Meets m s (sure calm P fun _ => True) :=
  h.imp (fun _ _ ht => ht) fun _ _ => trivial

/-- Two postconditions of one call. -/
theorem Meets.both {m : Method ε σ α} {P' : α → σ → Prop} (h : Meets m s (onSuccess P))
    (h' : Meets m s (sure calm P' F)) : Meets m s (sure calm (fun a t => P a t ∧ P' a t) F) := by
  unfold Meets at h h' ⊢
  rcases hm : m s with p | ⟨e | a, t⟩
  · rw [hm] at h'
    exact h'
  · rw [hm] at h'
    exact h'
  · rw [hm] at h h'
    exact ⟨h, h'⟩

/-- A call of which nothing is asked. -/
theorem meets_any (m : Method ε σ α) (s : σ) : Meets m s (onSuccess fun _ _ => True) := by
  unfold Meets
  rcases m s with p | ⟨e | a, t⟩
  · exact id
  · exact ⟨id, trivial⟩
  · trivial

/-- What a sequence leaves when it returns is what its last call leaves. -/
theorem meets_last {m : Method ε σ α} {f : α → Method ε σ β} {R : β → σ → Prop}
    (h : ∀ a t, Meets (f a) t (onSuccess R)) : Meets (m >>= f) s (onSuccess R) :=
  (meets_any m s).seq fun a t _ => h a t

/-- A call on the second half of the state keeps the first half. -/
theorem Meets.second {m : Method ε τ α} {s : σ × τ} {P : α → τ → Prop} {F : τ → Prop}
    (h : Meets m s.2 (sure calm P F)) :
    Meets m.onSnd s (sure calm (fun a t => t.1 = s.1 ∧ P a t.2) fun t => t.1 = s.1 ∧ F t.2) :=
  meets_onSnd.mpr <| h.mono (fun _ _ ht => ⟨rfl, ht⟩) (fun _ _ he => ⟨he.1, rfl, he.2⟩)
    fun _ hp => hp

/-- An unwrapped call. -/
theorem Meets.unwrapped {m : Method ε σ α} {p : Panic} {F' : σ → Prop}
    (h : Meets m s (sure calm P F)) : Meets (m.orPanic p) s (sure calm P F') :=
  (meets_orPanic m p).mpr (h.mono (fun _ _ ht => ht) (fun _ _ he => he.1) fun _ hp => hp)

/-- A call whose errors are reported as others. -/
theorem Meets.mapError {ε' : Type} {m : Method ε σ α} (h : Meets m s (sure calm P F)) (g : ε → ε') :
    Meets (m.mapError g) s (sure calm P F) := (meets_mapError m g).mpr h

/-- The same for the first call of a sequence, where it is known how the rest is reported. -/
theorem Meets.mapError_bind {ε' : Type} {m : Method ε σ α} {f : α → Method ε σ β} {f' : α → Method ε' σ β}
    {R : β → σ → Prop} (h : Meets (m >>= f) s (sure calm R F)) (g : ε → ε')
    (hf : ∀ a t, Meets (f a) t (sure calm R F) → Meets (f' a) t (sure calm R F)) :
    Meets (m.mapError g >>= f') s (sure calm R F) := by
  rw [meets_bind] at h
  rw [meets_bind, meets_mapError]
  exact h.mono (fun a t ht => hf a t ht) (fun _ _ he => he) fun _ hp => hp

/-- **A loop**: `I` relates what is left of the list to the state. -/
theorem Meets.forEach {f : α → Method ε σ Unit} {I : List α → σ → Prop}
    (hstep : ∀ x xs s, I (x :: xs) s → Meets (f x) s (sure calm (fun _ => I xs) F)) {xs : List α}
    (h : I xs s) : Meets (Method.forEach f xs) s (sure calm (fun _ => I []) F) := by
  induction xs generalizing s with
  | nil => exact h
  | cons x xs ih => exact (hstep x xs s h).seq fun _ _ ht => ih ht

/-- A call that met `sure` returns when `calm` holds. -/
theorem Meets.returns {m : Method ε σ α} (h : Meets m s (sure calm P F)) (hcalm : calm) :
    ∃ a t, m s = .ok (.ok a, t) := by
  unfold Meets at h
  rcases hm : m s with p | ⟨e | a, t⟩
  · rw [hm] at h
    exact absurd hcalm h
  · rw [hm] at h
    exact absurd hcalm h.1
  · exact ⟨a, t, rfl⟩

end Rules

end Logic.Stateful
