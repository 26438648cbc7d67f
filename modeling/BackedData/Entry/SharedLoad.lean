/-
# BackedData.Entry.SharedLoad — `load` and `a_load` of one entry, from many tasks

`load` borrows the entry immutably, and an entry over a thread-safe cell may be shared: any number of threads
may call it, and on an `AsyncOnceLock` any number of `a_load` futures may be under way beside them.  A `load`
looks at the cell, decodes when it is empty, and hands what it decoded to `get_or_init`, which takes no part in
the queue of the futures: it may fill the cell while one of them initializes.

`shared_loads`: whatever the interleaving and wherever a load fails, all that return a value return the one in
the cell, which some task decoded and which never changes again; one task at most awaits an init; a task that
finds a value in the cell decodes nothing; and the `unwrap` of `get_or_init` never panics.
-/
import BackedData.Utils.OnceAgreement

namespace BackedData.Entry

open Logic.Outcome
open Logic.Trace
open Utils (AsyncOnceLock TryInitFuture Moves)

set_option autoImplicit false

variable {T E : Type}

/-! ## The threads and the futures -/

/-- Where a call of `load` stands: it has found the cell empty and reads the disk, it holds what it decoded,
it has offered that to the cell, or it is done. -/
inductive LoadThread (T E : Type) where
  | decoding
  | decoded (val : T)
  | offered
  | done (res : Except E T)
  | panicked
  deriving DecidableEq

/-- An entry with all calls of `load` and all futures of `a_load` ever made on it. -/
structure Shared (T E : Type) where
  once : Utils.State T E
  threads : List (LoadThread T E)
  deriving DecidableEq

/-- An entry, nothing under way. -/
def Shared.of (value : Option T) : Shared T E := { once := .of (.newWith value), threads := [] }

/-- A step of an `a_load`; a call of `load` up to its look at the cell; and what thread `k` does next: read and
decode, offer the value to the cell, take the cell's. -/
inductive SharedEvent (T E : Type) where
  | future (ev : Utils.Event T E)
  | load
  | decode (k : Nat) (res : Except E T)
  | offer (k : Nat)
  | take (k : Nat)
  deriving DecidableEq

/-- `self.value.get()` of a `load`. -/
def loadGet (lock : AsyncOnceLock T) : LoadThread T E :=
  match lock.inner with
  | some x => .done (.ok x)
  | none => .decoding

/-- `read_disk` and `decode`, whose error is returned. -/
def afterDecode : Except E T → LoadThread T E
  | .error e => .done (.error e)
  | .ok val => .decoded val

/-- `self.get().unwrap()` of a `get_or_init`. -/
def getUnwrap (lock : AsyncOnceLock T) : LoadThread T E :=
  match unwrap lock.inner with
  | .ok x => .done (.ok x)
  | .error _ => .panicked

/-- What thread `k` does next, in its stage. -/
def threadStep (lock : AsyncOnceLock T) :
    LoadThread T E → SharedEvent T E → Option (AsyncOnceLock T × LoadThread T E)
  | .decoding, .decode _ res => some (lock, afterDecode res)
  | .decoded val, .offer _ => some ((lock.getOrInit val).2, .offered)
  | .offered, .take _ => some (lock, getUnwrap lock)
  | _, _ => none

/-- The thread a step is about. -/
def SharedEvent.thread : SharedEvent T E → Option Nat
  | .decode k _ => some k
  | .offer k => some k
  | .take k => some k
  | _ => none

/-- A step of thread `k`. -/
def Shared.thread (s : Shared T E) (k : Nat) (ev : SharedEvent T E) : Option (Shared T E) := do
  let thread ← s.threads[k]?
  let (lock, thread) ← threadStep s.once.lock thread ev
  pure { once := { s.once with lock }, threads := s.threads.set k thread }

/-- One step of one task. -/
def sharedNext (s : Shared T E) : SharedEvent T E → Option (Shared T E)
  | .future ev => (Utils.next s.once ev).map fun once => { s with once }
  | .load => some { s with threads := s.threads ++ [loadGet s.once.lock] }
  | .decode k res => s.thread k (.decode k res)
  | .offer k => s.thread k (.offer k)
  | .take k => s.thread k (.take k)

/-! ## What a step can do -/

/-- **`Loads lock thread ev lock' thread'`** — what a thread does in each of its stages. -/
inductive Loads (lock : AsyncOnceLock T) (k : Nat) :
    LoadThread T E → SharedEvent T E → AsyncOnceLock T → LoadThread T E → Prop
  | fails {e : E} : Loads lock k .decoding (.decode k (.error e)) lock (.done (.error e))
  | decodes {val : T} : Loads lock k .decoding (.decode k (.ok val)) lock (.decoded val)
  | offers {val : T} : Loads lock k (.decoded val) (.offer k)
      { lock with inner := some (lock.inner.getD val) } .offered
  | takes {val : T} : lock.inner = some val → Loads lock k .offered (.take k) lock (.done (.ok val))
  | nothing : lock.inner = none → Loads lock k .offered (.take k) lock .panicked

variable {s t : Shared T E} {lock lock' : AsyncOnceLock T} {thread thread' : LoadThread T E} {k : Nat}
  {ev : SharedEvent T E}

theorem threadStep_loads (hk : ev.thread = some k)
    (h : threadStep lock thread ev = some (lock', thread')) : Loads lock k thread ev lock' thread' := by
  cases ev with
  | future | load => cases hk
  | decode k' res =>
      cases hk
      cases thread with
      | decoding =>
          rcases res with e | val
          · cases h
            exact .fails
          · cases h
            exact .decodes
      | _ => cases h
  | offer k' =>
      cases hk
      cases thread with
      | decoded val =>
          cases h
          exact .offers
      | _ => cases h
  | take k' =>
      cases hk
      cases thread with
      | offered =>
          obtain ⟨rfl, rfl⟩ := Prod.mk.inj (Option.some.inj h)
          rcases hin : lock.inner with _ | val
          · unfold getUnwrap
            rw [hin]
            exact .nothing hin
          · unfold getUnwrap
            rw [hin]
            exact .takes hin
      | _ => cases h

/-- **The inversion of `sharedNext`**: a step of a future, a new call of `load`, or a step of one. -/
theorem sharedNext_cases (h : sharedNext s ev = some t) :
    (∃ uev once, ev = .future uev ∧ Utils.next s.once uev = some once ∧ t = { s with once }) ∨
    (ev = .load ∧ t = { s with threads := s.threads ++ [loadGet s.once.lock] }) ∨
    ∃ k thread lock thread', ev.thread = some k ∧ s.threads[k]? = some thread ∧
      Loads s.once.lock k thread ev lock thread' ∧
      t = { once := { s.once with lock }, threads := s.threads.set k thread' } := by
  have hthread : ∀ k, ev.thread = some k → s.thread k ev = some t →
      ∃ k thread lock thread', ev.thread = some k ∧ s.threads[k]? = some thread ∧
        Loads s.once.lock k thread ev lock thread' ∧
        t = { once := { s.once with lock }, threads := s.threads.set k thread' } := by
    intro k hk h
    obtain ⟨thread, hthread, h⟩ := Option.bind_eq_some_iff.mp h
    obtain ⟨⟨lock, thread'⟩, hstep, h⟩ := Option.bind_eq_some_iff.mp h
    exact ⟨k, thread, lock, thread', hk, hthread, threadStep_loads hk hstep, (Option.some.inj h).symm⟩
  cases ev with
  | future uev =>
      obtain ⟨once, honce, rfl⟩ := Option.map_eq_some_iff.mp h
      exact Or.inl ⟨uev, once, rfl, honce, rfl⟩
  | load => exact Or.inr (Or.inl ⟨rfl, (Option.some.inj h).symm⟩)
  | decode k res => exact Or.inr (Or.inr (hthread k rfl h))
  | offer k => exact Or.inr (Or.inr (hthread k rfl h))
  | take k => exact Or.inr (Or.inr (hthread k rfl h))

/-! ## The cell -/

/-- A future does not overwrite a value. -/
theorem next_keeps {once once' : Utils.State T E} {uev : Utils.Event T E} {v : T}
    (h : Utils.next once uev = some once') (hv : once.lock.inner = some v) :
    once'.lock.inner = some v := by
  rcases Utils.next_cases h with ⟨-, rfl⟩ | ⟨i, a, fut, lock, fut', -, -, hm, rfl⟩
  · exact hv
  · rcases hm.inner_cases with hin | ⟨b, w, -, -, hin, -⟩
    · exact hin.trans hv
    · rw [hv] at hin
      exact hin

/-- Neither does a thread. -/
theorem Loads.keeps {v : T} (h : Loads lock k thread ev lock' thread') (hv : lock.inner = some v) :
    lock'.inner = some v := by
  cases h with
  | offers =>
      show some (lock.inner.getD _) = some v
      rw [hv]
      rfl
  | _ => exact hv

/-- Nobody overwrites a value. -/
theorem sharedNext_keeps {v : T} (h : sharedNext s ev = some t) (hv : s.once.lock.inner = some v) :
    t.once.lock.inner = some v := by
  rcases sharedNext_cases h with ⟨uev, once, -, honce, rfl⟩ | ⟨-, rfl⟩ |
    ⟨k, thread, lock, thread', -, -, hl, rfl⟩
  · exact next_keeps honce hv
  · exact hv
  · exact hl.keeps hv

/-- A value that a task decoded: its own init's, or its own `load`'s. -/
def DecodedBy (past : List (SharedEvent T E)) (v : T) : Prop :=
  (∃ j, .future (.act j (.pollInit (.ready (.ok v)))) ∈ past) ∨ ∃ k, .decode k (.ok v) ∈ past

theorem DecodedBy.later {past : List (SharedEvent T E)} {v : T} (h : DecodedBy past v)
    (ev : SharedEvent T E) : DecodedBy (past ++ [ev]) v := by
  rcases h with ⟨j, hj⟩ | ⟨k, hk⟩
  · exact Or.inl ⟨j, List.mem_append_left _ hj⟩
  · exact Or.inr ⟨k, List.mem_append_left _ hk⟩

/-! ## One init at a time -/

section Futures

variable {once once' : Utils.State T E} {i : Nat} {fut fut' : TryInitFuture T E} {a : Utils.Act T E}

/-- **`Held once`** — a future with an unfinished init holds the flag, and it is the only one.  The cell may
be filled meanwhile. -/
structure Held (once : Utils.State T E) : Prop where
  flag : ∀ (i : Nat) b, once.futs[i]? = some (.initializing b) → once.lock.initializing = true
  unique : ∀ (i j : Nat) b c, once.futs[i]? = some (.initializing b) →
    once.futs[j]? = some (.initializing c) → i = j

/-- A future is inside only if it was, or by a claim on a free flag and an empty cell. -/
theorem inside_cases {b : Bool} (hm : Moves i lock fut a lock' (.initializing b)) :
    ((∃ c, fut = .initializing c) ∧ lock' = lock) ∨
      lock.initializing = false ∧ lock'.initializing = true ∧ lock.inner = none := by
  cases hm with
  | createClaims _ hinit hinner => exact Or.inr ⟨hinit, rfl, hinner⟩
  | wokenClaims _ hinit hinner => exact Or.inr ⟨hinit, rfl, hinner⟩
  | initPending => exact Or.inl ⟨⟨_, rfl⟩, rfl⟩

/-- Only the future inside clears the flag. -/
theorem flag_cases (hm : Moves i lock fut a lock' fut') (hflag : lock.initializing = true) :
    (∃ c, fut = .initializing c) ∨ lock'.initializing = true := by
  cases hm with
  | initOk | initErr => exact Or.inl ⟨_, rfl⟩
  | createClaims | wokenClaims => exact Or.inr rfl
  | _ => exact Or.inr hflag

theorem Held.act (h : Held once) (hf : once.futs[i]? = some fut)
    (hm : Moves i once.lock fut a lock fut') : Held { lock, futs := once.futs.set i fut' } := by
  -- another future inside keeps this one out, and the flag up
  have hother : ∀ (j : Nat) b, i ≠ j → (once.futs.set i fut')[j]? = some (.initializing b) →
      once.futs[j]? = some (.initializing b) ∧ (∀ c, fut' ≠ .initializing c) ∧
        lock.initializing = true := by
    intro j b hij hj
    rw [Utils.getElem?_set_of_some hf, if_neg hij] at hj
    have hflag := h.flag j b hj
    have hout : ∀ c, fut ≠ .initializing c := by
      rintro c rfl
      exact hij (h.unique i j c b hf hj)
    refine ⟨hj, ?_, ?_⟩
    · rintro c rfl
      rcases inside_cases hm with ⟨⟨c', hc'⟩, -⟩ | ⟨hfree, -, -⟩
      · exact hout c' hc'
      · rw [hflag] at hfree
        cases hfree
    · rcases flag_cases hm hflag with ⟨c, hc⟩ | hkept
      · exact absurd hc (hout c)
      · exact hkept
  refine ⟨?_, ?_⟩
  · intro j b hj
    by_cases hij : i = j
    · have hj : (once.futs.set i fut')[j]? = some (.initializing b) := hj
      rw [Utils.getElem?_set_of_some hf, if_pos hij] at hj
      obtain rfl := Option.some.inj hj
      rcases inside_cases hm with ⟨⟨c, rfl⟩, rfl⟩ | ⟨-, hflag, -⟩
      · exact h.flag i c hf
      · exact hflag
    · exact (hother j b hij hj).2.2
  · intro j k b c hj hk
    by_cases hij : i = j
    · by_cases hik : i = k
      · exact hij.symm.trans hik
      · have hj : (once.futs.set i fut')[j]? = some (.initializing b) := hj
        rw [Utils.getElem?_set_of_some hf, if_pos hij] at hj
        exact absurd (Option.some.inj hj) ((hother k c hik hk).2.1 b)
    · by_cases hik : i = k
      · have hk : (once.futs.set i fut')[k]? = some (.initializing c) := hk
        rw [Utils.getElem?_set_of_some hf, if_pos hik] at hk
        exact absurd (Option.some.inj hk) ((hother j b hij hj).2.1 c)
      · exact h.unique j k b c (hother j b hij hj).1 (hother k c hik hk).1

theorem Held.spawn (h : Held once) : Held { once with futs := once.futs ++ [.creating] } := by
  have hback : ∀ (j : Nat) b, (once.futs ++ [.creating])[j]? = some (.initializing b) →
      once.futs[j]? = some (.initializing b) := by
    intro j b hj
    rcases Utils.getElem?_spawn hj with hc | hj
    · cases hc
    · exact hj
  exact ⟨fun j b hj => h.flag j b (hback j b hj),
    fun j k b c hj hk => h.unique j k b c (hback j b hj) (hback k c hk)⟩

theorem Held.next {uev : Utils.Event T E} (h : Held once) (hs : Utils.next once uev = some once') :
    Held once' := by
  rcases Utils.next_cases hs with ⟨-, rfl⟩ | ⟨i, a, fut, lock, fut', -, hf, hm, rfl⟩
  · exact h.spawn
  · exact h.act hf hm

end Futures

/-- What a thread does to the cell is nothing to the futures' flag. -/
theorem Loads.held (h : Loads s.once.lock k thread ev lock' thread') (hx : Held s.once) :
    Held { s.once with lock := lock' } := by
  have hflag : lock'.initializing = s.once.lock.initializing := by
    cases h <;> rfl
  refine ⟨?_, hx.unique⟩
  intro i b hi
  exact hflag.trans (hx.flag i b hi)

/-! ## Agreement -/

/-- **`LoadsAgree`** — of a state and the steps that led to it: every value returned is the one in the cell;
a value in the cell that was not there at first was decoded by a task; an error returned is the task's own;
one init at most is unfinished; no call of `load` has panicked. -/
structure LoadsAgree (value : Option T) (p : List (SharedEvent T E) × Shared T E) : Prop where
  future_ok : ∀ (i : Nat) v, p.2.once.futs[i]? = some (.initialized v) → p.2.once.lock.inner = some v
  thread_ok : ∀ (k : Nat) v, p.2.threads[k]? = some (.done (.ok v)) → p.2.once.lock.inner = some v
  decoded_by : ∀ v, p.2.once.lock.inner = some v → value = some v ∨ DecodedBy p.1 v
  future_error : ∀ (i : Nat) e, p.2.once.futs[i]? = some (.failed e) →
    .future (.act i (.pollInit (.ready (.error e)))) ∈ p.1
  thread_error : ∀ (k : Nat) e, p.2.threads[k]? = some (.done (.error e)) → .decode k (.error e) ∈ p.1
  one_init : ∀ (i j : Nat) b c, p.2.once.futs[i]? = some (.initializing b) →
    p.2.once.futs[j]? = some (.initializing c) → i = j
  no_panic : ∀ k : Nat, p.2.threads[k]? ≠ some .panicked

/-- What is kept beside it: who holds the flag, what the threads carry, and that an offer has been taken. -/
structure Underway (p : List (SharedEvent T E) × Shared T E) : Prop where
  held : Held p.2.once
  carried : ∀ (k : Nat) v, p.2.threads[k]? = some (.decoded v) → .decode k (.ok v) ∈ p.1
  offered : ∀ k : Nat, p.2.threads[k]? = some .offered → ∃ v, p.2.once.lock.inner = some v

/-- **`LoadStep`** — of a step: a value in the cell stays, and whoever begins to decode has found none. -/
structure LoadStep (p : List (SharedEvent T E) × Shared T E) (ev : SharedEvent T E)
    (q : List (SharedEvent T E) × Shared T E) : Prop where
  kept : ∀ v, p.2.once.lock.inner = some v → q.2.once.lock.inner = some v
  future_starts : ∀ (i : Nat) b, q.2.once.futs[i]? = some (.initializing b) →
    (∀ c, p.2.once.futs[i]? ≠ some (.initializing c)) → p.2.once.lock.inner = none
  thread_starts : ev = .load → ∀ k : Nat, q.2.threads[k]? = some .decoding →
    p.2.threads[k]? = none → p.2.once.lock.inner = none

variable {value : Option T} {past : List (SharedEvent T E)}

/-- A step of a future. -/
theorem LoadsAgree.future {uev : Utils.Event T E} {once : Utils.State T E}
    (h : LoadsAgree value (past, s)) (hu : Underway (past, s)) (hs : Utils.next s.once uev = some once) :
    LoadsAgree value (past ++ [.future uev], { s with once }) := by
  have hheld := hu.held.next hs
  have hthread : ∀ (k : Nat) v, s.threads[k]? = some (.done (.ok v)) → once.lock.inner = some v :=
    fun k v hk => next_keeps hs (h.thread_ok k v hk)
  have herror : ∀ (k : Nat) e, s.threads[k]? = some (.done (.error e)) →
      .decode k (.error e) ∈ past ++ [.future uev] :=
    fun k e hk => List.mem_append_left _ (h.thread_error k e hk)
  rcases Utils.next_cases hs with ⟨rfl, rfl⟩ | ⟨i, a, fut, lock, fut', rfl, hf, hm, rfl⟩
  · refine ⟨?_, hthread, ?_, ?_, herror, hheld.unique, h.no_panic⟩
    · intro j v hj
      rcases Utils.getElem?_spawn hj with hc | hj
      · cases hc
      · exact h.future_ok j v hj
    · intro v hv
      exact (h.decoded_by v hv).imp_right fun hd => hd.later _
    · intro j e hj
      rcases Utils.getElem?_spawn hj with hc | hj
      · cases hc
      · exact List.mem_append_left _ (h.future_error j e hj)
  · refine ⟨?_, hthread, ?_, ?_, herror, hheld.unique, h.no_panic⟩
    · intro j v hj
      have hj : (s.once.futs.set i fut')[j]? = some (.initialized v) := hj
      rw [Utils.getElem?_set_of_some hf] at hj
      by_cases hij : i = j
      · rw [if_pos hij] at hj
        obtain rfl := Option.some.inj hj
        rcases hm.initialized_cases with ⟨-, hv⟩ | ⟨-, hv⟩
        · exact hv
        · exact hv
      · rw [if_neg hij] at hj
        exact next_keeps hs (h.future_ok j v hj)
    · intro v hv
      have hv : lock.inner = some v := hv
      rcases hm.inner_cases with hin | ⟨b, w, -, rfl, hin, -⟩
      · exact (h.decoded_by v (hin.symm.trans hv)).imp_right fun hd => hd.later _
      · rcases hold : s.once.lock.inner with _ | x
        · -- the cell was empty: this init has filled it
          rw [hold] at hin
          obtain rfl : w = v := Option.some.inj (hin.symm.trans hv)
          exact Or.inr (Or.inl ⟨i, List.mem_append_right _ List.mem_cons_self⟩)
        · rw [hold] at hin
          obtain rfl : x = v := Option.some.inj (hin.symm.trans hv)
          exact (h.decoded_by x hold).imp_right fun hd => hd.later _
    · intro j e hj
      have hj : (s.once.futs.set i fut')[j]? = some (.failed e) := hj
      rw [Utils.getElem?_set_of_some hf] at hj
      by_cases hij : i = j
      · rw [if_pos hij] at hj
        obtain rfl := Option.some.inj hj
        rw [hm.failed_own, hij]
        exact List.mem_append_right _ List.mem_cons_self
      · rw [if_neg hij] at hj
        exact List.mem_append_left _ (h.future_error j e hj)

/-- A thread other than the new one was there before. -/
theorem getElem?_load {threads : List (LoadThread T E)} {new p : LoadThread T E} {j : Nat}
    (h : (threads ++ [new])[j]? = some p) :
    threads[j]? = some p ∨ threads[j]? = none ∧ p = new := by
  by_cases hj : j < threads.length
  · rw [List.getElem?_append_left hj] at h
    exact Or.inl h
  · have hle := Nat.le_of_not_lt hj
    rw [List.getElem?_append_right hle] at h
    have hmem := List.mem_of_getElem? h
    exact Or.inr ⟨List.getElem?_eq_none hle, by simpa using hmem⟩

/-- A thread after a step of thread `k`. -/
theorem getElem?_thread {threads : List (LoadThread T E)} (h : threads[k]? = some thread) {j : Nat} :
    (threads.set k thread')[j]? = if k = j then some thread' else threads[j]? := by
  rw [List.getElem?_set]
  have hlt : k < threads.length := (List.getElem?_eq_some_iff.mp h).1
  by_cases hkj : k = j
  · subst hkj
    rw [if_pos rfl, if_pos rfl, if_pos hlt]
  · rw [if_neg hkj, if_neg hkj]

/-- A new call of `load` returns what it finds in the cell, or begins to decode. -/
theorem loadGet_cases (h : thread = loadGet lock) :
    (∃ v, lock.inner = some v ∧ thread = .done (.ok v)) ∨ lock.inner = none ∧ thread = .decoding := by
  unfold loadGet at h
  rcases hin : lock.inner with _ | v
  · rw [hin] at h
    exact Or.inr ⟨rfl, h⟩
  · rw [hin] at h
    exact Or.inl ⟨v, rfl, h⟩

/-- A new call of `load`. -/
theorem LoadsAgree.load (h : LoadsAgree value (past, s)) :
    LoadsAgree value (past ++ [.load], { s with threads := s.threads ++ [loadGet s.once.lock] }) := by
  refine ⟨h.future_ok, ?_, ?_, ?_, ?_, h.one_init, ?_⟩
  · intro k v hk
    rcases getElem?_load hk with hk | ⟨-, hnew⟩
    · exact h.thread_ok k v hk
    · rcases loadGet_cases hnew with ⟨w, hw, hget⟩ | ⟨-, hget⟩
      · cases hget
        exact hw
      · cases hget
  · intro v hv
    exact (h.decoded_by v hv).imp_right fun hd => hd.later _
  · intro i e hi
    exact List.mem_append_left _ (h.future_error i e hi)
  · intro k e hk
    rcases getElem?_load hk with hk | ⟨-, hnew⟩
    · exact List.mem_append_left _ (h.thread_error k e hk)
    · rcases loadGet_cases hnew with ⟨w, -, hget⟩ | ⟨-, hget⟩ <;> cases hget
  · intro k hk
    rcases getElem?_load hk with hk | ⟨-, hnew⟩
    · exact h.no_panic k hk
    · rcases loadGet_cases hnew with ⟨w, -, hget⟩ | ⟨-, hget⟩ <;> cases hget

/-- A step of a thread. -/
theorem LoadsAgree.loads (h : LoadsAgree value (past, s)) (hu : Underway (past, s))
    (hk : s.threads[k]? = some thread) (hl : Loads s.once.lock k thread ev lock' thread') :
    LoadsAgree value (past ++ [ev],
      { once := { s.once with lock := lock' }, threads := s.threads.set k thread' }) := by
  have hlater : ∀ v, s.once.lock.inner = some v → value = some v ∨ DecodedBy (past ++ [ev]) v :=
    fun v hv => (h.decoded_by v hv).imp_right fun hd => hd.later _
  refine ⟨fun i v hi => hl.keeps (h.future_ok i v hi), ?_, ?_,
    fun i e hi => List.mem_append_left _ (h.future_error i e hi), ?_, h.one_init, ?_⟩
  · intro j v hj
    have hj : (s.threads.set k thread')[j]? = some (.done (.ok v)) := hj
    rw [getElem?_thread hk] at hj
    by_cases hkj : k = j
    · rw [if_pos hkj] at hj
      cases hj
      cases hl with
      | takes hv => exact hv
    · rw [if_neg hkj] at hj
      exact hl.keeps (h.thread_ok j v hj)
  · intro v hv
    cases hl with
    | @offers val =>
        have hv : some (s.once.lock.inner.getD val) = some v := hv
        rcases hold : s.once.lock.inner with _ | x
        · -- the cell was empty: this thread has filled it
          rw [hold] at hv
          obtain rfl : val = v := Option.some.inj hv
          exact Or.inr (Or.inr ⟨k, List.mem_append_left _ (hu.carried k val hk)⟩)
        · rw [hold] at hv
          obtain rfl : x = v := Option.some.inj hv
          exact hlater x hold
    | _ => exact hlater v hv
  · intro j e hj
    have hj : (s.threads.set k thread')[j]? = some (.done (.error e)) := hj
    rw [getElem?_thread hk] at hj
    by_cases hkj : k = j
    · rw [if_pos hkj] at hj
      cases hj
      cases hl with
      | fails =>
          rw [hkj]
          exact List.mem_append_right _ List.mem_cons_self
    · rw [if_neg hkj] at hj
      exact List.mem_append_left _ (h.thread_error j e hj)
  · intro j hj
    have hj : (s.threads.set k thread')[j]? = some .panicked := hj
    rw [getElem?_thread hk] at hj
    by_cases hkj : k = j
    · rw [if_pos hkj] at hj
      cases hj
      cases hl with
      | nothing hnone =>
          obtain ⟨v, hv⟩ := hu.offered k hk
          exact absurd (hnone.symm.trans hv) (by simp)
    · rw [if_neg hkj] at hj
      exact h.no_panic j hj

/-- **What is underway stays in order.** -/
theorem Underway.step {p q : List (SharedEvent T E) × Shared T E} (h : Underway p)
    (hs : Recorded (Steps sharedNext) p ev q) : Underway q := by
  obtain ⟨past, s⟩ := p
  obtain ⟨past', t⟩ := q
  obtain ⟨hs, rfl⟩ := hs
  have hs : sharedNext s ev = some t := hs
  have hearlier : ∀ k v, s.threads[k]? = some (.decoded v) → .decode k (.ok v) ∈ past ++ [ev] :=
    fun k v hk => List.mem_append_left _ (h.carried k v hk)
  have hfilled : ∀ k : Nat, s.threads[k]? = some .offered → ∃ v, t.once.lock.inner = some v := by
    intro k hk
    obtain ⟨v, hv⟩ := h.offered k hk
    exact ⟨v, sharedNext_keeps hs hv⟩
  rcases sharedNext_cases hs with ⟨uev, once, rfl, honce, rfl⟩ | ⟨rfl, rfl⟩ |
    ⟨k, thread, lock', thread', hkev, hk, hl, rfl⟩
  · exact ⟨h.held.next honce, hearlier, hfilled⟩
  · refine ⟨h.held, ?_, ?_⟩
    · intro k v hk
      rcases getElem?_load hk with hk | ⟨-, hnew⟩
      · exact hearlier k v hk
      · rcases loadGet_cases hnew with ⟨w, -, hget⟩ | ⟨-, hget⟩ <;> cases hget
    · intro k hk
      rcases getElem?_load hk with hk | ⟨-, hnew⟩
      · exact hfilled k hk
      · rcases loadGet_cases hnew with ⟨w, -, hget⟩ | ⟨-, hget⟩ <;> cases hget
  · refine ⟨hl.held h.held, ?_, ?_⟩
    · intro j v hj
      have hj : (s.threads.set k thread')[j]? = some (.decoded v) := hj
      rw [getElem?_thread hk] at hj
      by_cases hkj : k = j
      · rw [if_pos hkj] at hj
        cases hj
        cases hl with
        | decodes =>
            rw [hkj]
            exact List.mem_append_right _ List.mem_cons_self
      · rw [if_neg hkj] at hj
        exact hearlier j v hj
    · intro j hj
      have hj : (s.threads.set k thread')[j]? = some .offered := hj
      rw [getElem?_thread hk] at hj
      by_cases hkj : k = j
      · rw [if_pos hkj] at hj
        cases hj
        cases hl with
        | offers => exact ⟨_, rfl⟩
      · rw [if_neg hkj] at hj
        exact hfilled j hj

/-- **What a step may do.**  An init starts, and a `load` decodes, only on an empty cell. -/
theorem sharedNext_step {p q : List (SharedEvent T E) × Shared T E}
    (hs : Recorded (Steps sharedNext) p ev q) : LoadStep p ev q := by
  obtain ⟨past, s⟩ := p
  obtain ⟨past', t⟩ := q
  obtain ⟨hs, rfl⟩ := hs
  have hs : sharedNext s ev = some t := hs
  refine ⟨fun v hv => sharedNext_keeps hs hv, ?_, ?_⟩
  · intro i b hi hout
    rcases sharedNext_cases hs with ⟨uev, once, rfl, honce, rfl⟩ | ⟨rfl, rfl⟩ |
      ⟨k, thread, lock', thread', -, -, -, rfl⟩
    · rcases Utils.next_cases honce with ⟨-, rfl⟩ | ⟨j, a, fut, lock, fut', -, hf, hm, rfl⟩
      · rcases Utils.getElem?_spawn hi with hc | hi
        · cases hc
        · exact absurd hi (hout b)
      · have hi : (s.once.futs.set j fut')[i]? = some (.initializing b) := hi
        rw [Utils.getElem?_set_of_some hf] at hi
        by_cases hji : j = i
        · subst hji
          rw [if_pos rfl] at hi
          obtain rfl := Option.some.inj hi
          rcases inside_cases hm with ⟨⟨c, hc⟩, -⟩ | ⟨-, -, hnone⟩
          · rw [hc] at hf
            exact absurd hf (hout c)
          · exact hnone
        · rw [if_neg hji] at hi
          exact absurd hi (hout b)
    · exact absurd hi (hout b)
    · exact absurd hi (hout b)
  · rintro rfl k hk hnew
    obtain rfl : { s with threads := s.threads ++ [loadGet s.once.lock] } = t := Option.some.inj hs
    rcases getElem?_load hk with hk | ⟨-, hget⟩
    · exact absurd (hnew.symm.trans hk) (by simp)
    · rcases loadGet_cases hget with ⟨w, -, hfound⟩ | ⟨hnone, -⟩
      · cases hfound
      · exact hnone

/-- **The step lemma.** -/
theorem LoadsAgree.step {p q : List (SharedEvent T E) × Shared T E} (h : LoadsAgree value p)
    (hu : Underway p) (hs : Recorded (Steps sharedNext) p ev q) : LoadsAgree value q := by
  obtain ⟨past, s⟩ := p
  obtain ⟨past', t⟩ := q
  obtain ⟨hs, rfl⟩ := hs
  rcases sharedNext_cases hs with ⟨uev, once, rfl, honce, rfl⟩ | ⟨rfl, rfl⟩ |
    ⟨k, thread, lock', thread', -, hk, hl, rfl⟩
  · exact h.future hu honce
  · exact h.load
  · exact h.loads hu hk hl

/-! ## Every run -/

theorem loadsAgree_of (value : Option T) :
    LoadsAgree value (([], .of value) : List (SharedEvent T E) × Shared T E) where
  future_ok _ _ h := by simp [Shared.of, Utils.State.of] at h
  thread_ok _ _ h := by simp [Shared.of] at h
  decoded_by _ h := Or.inl h
  future_error _ _ h := by simp [Shared.of, Utils.State.of] at h
  thread_error _ _ h := by simp [Shared.of] at h
  one_init _ _ _ _ h := by simp [Shared.of, Utils.State.of] at h
  no_panic _ h := by simp [Shared.of] at h

theorem underway_of (value : Option T) :
    Underway (([], .of value) : List (SharedEvent T E) × Shared T E) where
  held := ⟨fun _ _ h => by simp [Shared.of, Utils.State.of] at h,
    fun _ _ _ _ h => by simp [Shared.of, Utils.State.of] at h⟩
  carried _ _ h := by simp [Shared.of] at h
  offered _ h := by simp [Shared.of] at h

/-- **Every `load` and `a_load` of an entry agree.**  In every run of any number of threads in `load` and of
futures of `a_load` on one entry, loaded or not, with any of the decodings failing and any future dropped:
every value returned is the one in the cell, which once there is never replaced; it was there at first or
some task decoded it; errors are returned by those whose own decoding failed; one init at most is unfinished;
whoever begins to decode has found the cell empty; and no `load` panics. -/
theorem shared_loads (value : Option T)
    (tr : List (SharedEvent T E × (List (SharedEvent T E) × Shared T E)))
    (htr : IsTrace (Recorded (Steps sharedNext)) ([], .of value) tr) :
    StatesMeet (LoadsAgree value) ([], .of value) tr ∧ StepsMeet LoadStep ([], .of value) tr := by
  have hstep : ∀ (p : List (SharedEvent T E) × Shared T E) ev q, Underway p ∧ LoadsAgree value p →
      Recorded (Steps sharedNext) p ev q → Underway q ∧ LoadsAgree value q :=
    fun p ev q h hs => ⟨h.1.step hs, h.2.step h.1 hs⟩
  have h0 : Underway (([], .of value) : List (SharedEvent T E) × Shared T E) ∧
      LoadsAgree value (([], .of value) : List (SharedEvent T E) × Shared T E) :=
    ⟨underway_of value, loadsAgree_of value⟩
  constructor
  · have hinv := invariant hstep h0 htr
    exact ⟨hinv.1.2, fun x hx => (hinv.2 x hx).2⟩
  · exact stepsMeet_of_invariant hstep (fun p ev q _ hs => sharedNext_step hs) h0 htr

/-- Thread 0 decodes `7` while future 0 initializes, and offers it first; the init ends with `8`, and both
return `7`; thread 1 fails, and thread 2 comes late. -/
def overtaken : List (SharedEvent Nat Unit) :=
  [.load, .future .spawn, .future (.act 0 .get), .future (.act 0 .create), .load, .decode 0 (.ok 7),
    .future (.act 0 (.pollInit .pending)), .offer 0, .future (.act 0 (.pollInit (.ready (.ok 8)))),
    .decode 1 (.error ()), .take 0, .load]

theorem shared_loads_overtaken :
    StatesMeet (LoadsAgree none) ([], .of none)
        (recording [] (follow sharedNext (.of none : Shared Nat Unit) overtaken)) ∧
      StepsMeet LoadStep ([], .of none)
        (recording [] (follow sharedNext (.of none : Shared Nat Unit) overtaken)) :=
  shared_loads none _ (isTrace_recording [] (isTrace_follow sharedNext _ overtaken))

example : last (.of none : Shared Nat Unit) (follow sharedNext (.of none) overtaken) =
    { once :=
        { lock := { inner := some 7, initializing := false, wakers := [], poisoned := false }
          futs := [.initialized 7] }
      threads := [.done (.ok 7), .done (.error ()), .done (.ok 7)] } := by
  decide

end BackedData.Entry
