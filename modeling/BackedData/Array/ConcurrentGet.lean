/-
# BackedData.Array.ConcurrentGet — any number of `a_get` futures on one array

`a_get` and `a_generic_get` borrow the array immutably, so that any number of their futures may be under way
at a time, and they meet in the `AsyncOnceLock`s of the chunks.  The model puts one lock system of
`Utils.AsyncOnceLock` beside another, one a chunk.  A getter computes its location when it is first polled,
goes through the lock of that chunk with a future of its own, and indexes the chunk it is given.

`concurrent_gets`: whatever the interleaving, and wherever loads fail, are cancelled, or a mutex is poisoned,
a getter that returns an element returns the one at its index of the concatenation, and no chunk is decoded
twice, or at all if it was in memory.  The only wrong answers left are those of `Array.Lookup`, behind an empty
chunk.
-/
import BackedData.Array.Residency
import BackedData.Logic.Simulation
import BackedData.Utils.OnceAgreement

namespace BackedData.Array

open Logic.Outcome
open Logic.Ranges
open Logic.Simulation
open Logic.Trace
open BackedData.Entry

set_option autoImplicit false

variable {T D C E : Type}

/-! ## The getters -/

/-- The family of the lookup: `a_get`, or `a_generic_get`, whose accesses are `c_get`. -/
inductive Family where
  | slice
  | generic
  deriving DecidableEq, Repr

/-- Where a getter stands: it awaits future number `fut` of the lock of its chunk, has returned, or has
panicked. -/
inductive GetterStage (T E : Type) where
  | loading (loc : ArrayLoc) (fut : Nat)
  | done (res : Except (BackedArrayError E) T)
  | panicked
  deriving DecidableEq

/-- A future of `a_get` or `a_generic_get`. -/
structure Getter (T E : Type) where
  family : Family
  idx : Nat
  stage : GetterStage T E
  deriving DecidableEq

/-- The locks of the chunks, with their futures, and all getters ever polled. -/
structure Getters (T E : Type) where
  locks : List (Utils.State (List T) E)
  gets : List (Getter T E)
  deriving DecidableEq

/-- The first poll of a getter up to the load, with the answer of its binary search; one act of its future
in the lock; or the rest of it, behind the load. -/
inductive GetEvent (T E : Type) where
  | call (family : Family) (idx : Nat) (found : Except Nat Nat)
  | act (g : Nat) (a : Utils.Act (List T) E)
  | finish (g : Nat)
  deriving DecidableEq

/-- The array as its getters find it. -/
def Getters.of (arr : BackedArray (Chunk T D C)) : Getters T E where
  locks := arr.entries.map fun entry => .of (.newWith entry.value)
  gets := []

/-- An access that misses: `a_get` panics, `a_generic_get` reports the index as out of bounds. -/
def Family.miss (family : Family) (idx : Nat) : GetterStage T E :=
  match family with
  | .slice => .panicked
  | .generic => .done (.error (.outsideEntryBounds idx))

/-- The first poll, up to the load. -/
def Getters.call (s : Getters T E) (arr : BackedArray (Chunk T D C)) (family : Family) (idx : Nat)
    (found : Except Nat Nat) : Getters T E :=
  match internalIdx arr.keyStarts arr.keyEnds found idx with
  | .error _ => { s with gets := s.gets ++ [{ family, idx, stage := .panicked }] }
  | .ok none =>
      { s with
        gets := s.gets ++ [{ family, idx, stage := .done (.error (.outsideEntryBounds idx)) }] }
  | .ok (some loc) =>
      match s.locks[loc.entryIdx]? with
      | none => { s with gets := s.gets ++ [{ family, idx, stage := family.miss idx }] }
      | some lock =>
          { locks := s.locks.set loc.entryIdx { lock with futs := lock.futs ++ [.creating] }
            gets := s.gets ++ [{ family, idx, stage := .loading loc lock.futs.length }] }

/-- What a getter makes of the end of its load. -/
def Getter.finish (getter : Getter T E) (loc : ArrayLoc) :
    Utils.TryInitFuture (List T) E → Option (GetterStage T E)
  | .initialized entry =>
      match entry[loc.insideEntryIdx]? with
      | some x => some (.done (.ok x))
      | none => some (getter.family.miss getter.idx)
  | .failed e => some (.done (.error (.coder e)))
  | .panicked => some .panicked
  | _ => none

/-- An act of the future of getter `g`. -/
def Getters.act (s : Getters T E) (g : Nat) (a : Utils.Act (List T) E) : Option (Getters T E) := do
  let getter ← s.gets[g]?
  match getter.stage with
  | .loading loc fut => do
      let lock ← s.locks[loc.entryIdx]?
      let lock ← Utils.next lock (.act fut a)
      pure { s with locks := s.locks.set loc.entryIdx lock }
  | _ => none

/-- The rest of getter `g` behind its load. -/
def Getters.finish (s : Getters T E) (g : Nat) : Option (Getters T E) := do
  let getter ← s.gets[g]?
  match getter.stage with
  | .loading loc fut => do
      let lock ← s.locks[loc.entryIdx]?
      let future ← lock.futs[fut]?
      let stage ← getter.finish loc future
      pure { s with gets := s.gets.set g { getter with stage } }
  | _ => none

/-- One step of the getters. -/
def getNext (arr : BackedArray (Chunk T D C)) (s : Getters T E) : GetEvent T E → Option (Getters T E)
  | .call family idx found => some (s.call arr family idx found)
  | .act g a => s.act g a
  | .finish g => s.finish g

/-! ## What a step can do -/

/-- **`GetMoves arr s ev t`** — the steps of the getters: a getter that needs no load, one that begins to
load, an act in a lock, and the end of a getter. -/
inductive GetMoves (arr : BackedArray (Chunk T D C)) (s : Getters T E) :
    GetEvent T E → Getters T E → Prop
  | broken {family : Family} {idx : Nat} {found : Except Nat Nat} {panic : Panic} :
      internalIdx arr.keyStarts arr.keyEnds found idx = .error panic →
      GetMoves arr s (.call family idx found)
        { s with gets := s.gets ++ [{ family, idx, stage := .panicked }] }
  | outside {family : Family} {idx : Nat} {found : Except Nat Nat} :
      internalIdx arr.keyStarts arr.keyEnds found idx = .ok none →
      GetMoves arr s (.call family idx found)
        { s with
          gets := s.gets ++ [{ family, idx, stage := .done (.error (.outsideEntryBounds idx)) }] }
  | missing {family : Family} {idx : Nat} {found : Except Nat Nat} {loc : ArrayLoc} :
      internalIdx arr.keyStarts arr.keyEnds found idx = .ok (some loc) →
      s.locks[loc.entryIdx]? = none →
      GetMoves arr s (.call family idx found)
        { s with gets := s.gets ++ [{ family, idx, stage := family.miss idx }] }
  | begins {family : Family} {idx : Nat} {found : Except Nat Nat} {loc : ArrayLoc}
      {lock lock' : Utils.State (List T) E} :
      internalIdx arr.keyStarts arr.keyEnds found idx = .ok (some loc) →
      s.locks[loc.entryIdx]? = some lock → Utils.next lock .spawn = some lock' →
      GetMoves arr s (.call family idx found)
        { locks := s.locks.set loc.entryIdx lock'
          gets := s.gets ++ [{ family, idx, stage := .loading loc lock.futs.length }] }
  | acts {g fut : Nat} {getter : Getter T E} {loc : ArrayLoc} {a : Utils.Act (List T) E}
      {lock lock' : Utils.State (List T) E} :
      s.gets[g]? = some getter → getter.stage = .loading loc fut →
      s.locks[loc.entryIdx]? = some lock → Utils.next lock (.act fut a) = some lock' →
      GetMoves arr s (.act g a) { s with locks := s.locks.set loc.entryIdx lock' }
  | finishes {g fut : Nat} {getter : Getter T E} {loc : ArrayLoc} {lock : Utils.State (List T) E}
      {future : Utils.TryInitFuture (List T) E} {stage : GetterStage T E} :
      s.gets[g]? = some getter → getter.stage = .loading loc fut →
      s.locks[loc.entryIdx]? = some lock → lock.futs[fut]? = some future →
      getter.finish loc future = some stage →
      GetMoves arr s (.finish g) { s with gets := s.gets.set g { getter with stage } }

variable {arr : BackedArray (Chunk T D C)} {s t : Getters T E} {ev : GetEvent T E}

theorem call_moves (arr : BackedArray (Chunk T D C)) (s : Getters T E) (family : Family) (idx : Nat)
    (found : Except Nat Nat) : GetMoves arr s (.call family idx found) (s.call arr family idx found) := by
  unfold Getters.call
  split
  next h => exact .broken h
  next h => exact .outside h
  next loc h =>
    split
    next hlock => exact .missing h hlock
    next lock hlock => exact .begins h hlock rfl

/-- **The steps of the getters** are those and no others. -/
theorem getNext_moves (hs : getNext arr s ev = some t) : GetMoves arr s ev t := by
  cases ev with
  | call family idx found =>
      obtain rfl : s.call arr family idx found = t := Option.some.inj hs
      exact call_moves arr s family idx found
  | act g a =>
      obtain ⟨getter, hg, hs⟩ := Option.bind_eq_some_iff.mp (show s.act g a = some t from hs)
      cases hstage : getter.stage with
      | loading loc fut =>
          rw [hstage] at hs
          obtain ⟨lock, hlock, hs⟩ := Option.bind_eq_some_iff.mp hs
          obtain ⟨lock', hnext, hs⟩ := Option.bind_eq_some_iff.mp hs
          obtain rfl := Option.some.inj hs
          exact .acts hg hstage hlock hnext
      | _ =>
          rw [hstage] at hs
          cases hs
  | finish g =>
      obtain ⟨getter, hg, hs⟩ := Option.bind_eq_some_iff.mp (show s.finish g = some t from hs)
      cases hstage : getter.stage with
      | loading loc fut =>
          rw [hstage] at hs
          obtain ⟨lock, hlock, hs⟩ := Option.bind_eq_some_iff.mp hs
          obtain ⟨future, hfuture, hs⟩ := Option.bind_eq_some_iff.mp hs
          obtain ⟨stage, hfinish, hs⟩ := Option.bind_eq_some_iff.mp hs
          obtain rfl := Option.some.inj hs
          exact .finishes hg hstage hlock hfuture hfinish
      | _ =>
          rw [hstage] at hs
          cases hs

/-! ## One lock -/

section Lock

variable {l l' : Utils.State (List T) E} {chunk : List T} {lev : Utils.Event (List T) E}

/-- **`Tended chunk l`** — the lock of a chunk: it keeps and gives out nothing but the chunk, and none of
its futures panics on a sound mutex. -/
structure Tended (chunk : List T) (l : Utils.State (List T) E) : Prop where
  exclusive : Utils.Exclusive l
  stored : ∀ v, l.lock.inner = some v → v = chunk
  given : ∀ (i : Nat) v, l.futs[i]? = some (.initialized v) → v = chunk
  sound : ∀ i : Nat, l.futs[i]? = some .panicked → l.lock.poisoned = true

theorem tended_of {value : Option (List T)} (h : ∀ v, value = some v → v = chunk) :
    Tended chunk (.of (.newWith value) : Utils.State (List T) E) where
  exclusive := ⟨fun _ _ h => by simp [Utils.State.of] at h, fun _ _ _ _ h => by simp [Utils.State.of] at h⟩
  stored := h
  given _ _ h := by simp [Utils.State.of] at h
  sound _ h := by simp [Utils.State.of] at h

/-- A poisoned mutex stays poisoned. -/
theorem poisoned_step (h : l.lock.poisoned = true) (hs : Utils.next l lev = some l') :
    l'.lock.poisoned = true := by
  rcases Utils.next_cases hs with ⟨-, rfl⟩ | ⟨i, a, fut, lock, fut', -, -, hm, rfl⟩
  · exact h
  · cases hm with
    | slotMissing => rfl
    | _ => exact h

/-- A future panics only on a mutex that is poisoned, or that it poisons. -/
theorem poisoned_of_panic {i : Nat} {fut : Utils.TryInitFuture (List T) E} {a : Utils.Act (List T) E}
    {lock : Utils.AsyncOnceLock (List T)} (hm : Utils.Moves i l.lock fut a lock .panicked) :
    lock.poisoned = true := by
  cases hm with
  | slotMissing => rfl
  | createPoisoned hp | initPoisoned hp | wokenPoisoned hp => exact hp

/-- **One step of one lock**, if an init that ends well ends with the chunk. -/
theorem Tended.step (h : Tended chunk l) (hs : Utils.next l lev = some l')
    (hgenuine : ∀ i v, lev = .act i (.pollInit (.ready (.ok v))) → v = chunk) : Tended chunk l' := by
  have hexclusive := h.exclusive.step hs
  rcases Utils.next_cases hs with ⟨rfl, rfl⟩ | ⟨i, a, fut, lock, fut', rfl, hf, hm, rfl⟩
  · refine ⟨hexclusive, h.stored, fun j v hj => ?_, fun j hj => ?_⟩
    · rcases Utils.getElem?_spawn hj with hc | hj'
      · cases hc
      · exact h.given j v hj'
    · rcases Utils.getElem?_spawn hj with hc | hj'
      · cases hc
      · exact h.sound j hj'
  · have hstored : ∀ v, lock.inner = some v → v = chunk := by
      intro v hv
      rcases hm.inner_cases with hin | ⟨b, w, rfl, rfl, hin, -⟩
      · exact h.stored v (hin.symm.trans hv)
      · rw [(h.exclusive.held i b hf).2, Option.getD_none] at hin
        obtain rfl : w = v := Option.some.inj (hin.symm.trans hv)
        exact hgenuine i w rfl
    refine ⟨hexclusive, hstored, fun j v hj => ?_, fun j hj => ?_⟩
    · change (l.futs.set i fut')[j]? = some (.initialized v) at hj
      rw [Utils.getElem?_set_of_some hf] at hj
      by_cases hij : i = j
      · rw [if_pos hij] at hj
        obtain rfl := Option.some.inj hj
        rcases hm.initialized_cases with ⟨-, hv⟩ | ⟨-, hv⟩
        · exact hstored v hv
        · exact hstored v hv
      · rw [if_neg hij] at hj
        exact h.given j v hj
    · change (l.futs.set i fut')[j]? = some .panicked at hj
      rw [Utils.getElem?_set_of_some hf] at hj
      by_cases hij : i = j
      · rw [if_pos hij] at hj
        obtain rfl := Option.some.inj hj
        exact poisoned_of_panic hm
      · rw [if_neg hij] at hj
        exact poisoned_step (h.sound j hj) hs

/-- **`Spent l`** — the lock will never run an init to its end again: it has its value, or its mutex is
poisoned with no init under way. -/
def Spent (l : Utils.State (List T) E) : Prop :=
  l.lock.inner.isSome = true ∨
    l.lock.poisoned = true ∧ ∀ (i : Nat) b, l.futs[i]? ≠ some (.initializing b)

theorem Spent.step (h : Spent l) (hx : Utils.Exclusive l) (hs : Utils.next l lev = some l') :
    Spent l' := by
  rcases Utils.next_cases hs with ⟨-, rfl⟩ | ⟨i, a, fut, lock, fut', -, hf, hm, rfl⟩
  · refine h.imp id fun ⟨hp, hnone⟩ => ⟨hp, fun j b hj => ?_⟩
    rcases Utils.getElem?_spawn hj with hc | hj'
    · cases hc
    · exact hnone j b hj'
  · rcases h with hsome | ⟨hp, hnone⟩
    · left
      obtain ⟨v, hv⟩ := Option.isSome_iff_exists.mp hsome
      exact Option.isSome_iff_exists.mpr ⟨v, hx.stored_kept hf hm hv⟩
    · right
      refine ⟨poisoned_step hp hs, fun j b hj => ?_⟩
      change (l.futs.set i fut')[j]? = some (.initializing b) at hj
      rw [Utils.getElem?_set_of_some hf] at hj
      by_cases hij : i = j
      · rw [if_pos hij] at hj
        obtain rfl := Option.some.inj hj
        cases hm with
        | createClaims hsound | wokenClaims hsound =>
            rw [hp] at hsound
            cases hsound
        | initPending => exact hnone i _ hf
      · rw [if_neg hij] at hj
        exact hnone j b hj

/-- **An init that ends well** is the first that does, and the last. -/
theorem spent_of_ok {i : Nat} {v : List T} (hx : Utils.Exclusive l)
    (hs : Utils.next l (.act i (.pollInit (.ready (.ok v)))) = some l') : ¬Spent l ∧ Spent l' := by
  rcases Utils.next_cases hs with ⟨hev, -⟩ | ⟨j, a, fut, lock, fut', hev, hf, hm, rfl⟩
  · cases hev
  · cases hev
    have hinside : ∃ b, fut = .initializing b := by
      cases hm with
      | initOk | initPoisoned => exact ⟨_, rfl⟩
    obtain ⟨b, rfl⟩ := hinside
    refine ⟨?_, ?_⟩
    · rintro (hsome | ⟨-, hnone⟩)
      · rw [(hx.held i b hf).2] at hsome
        cases hsome
      · exact hnone i b hf
    · cases hm with
      | initOk => exact Or.inl rfl
      | initPoisoned hp =>
          refine Or.inr ⟨hp, fun j c hj => ?_⟩
          change (l.futs.set i .panicked)[j]? = some (.initializing c) at hj
          rw [Utils.getElem?_set_of_some hf] at hj
          by_cases hij : i = j
          · rw [if_pos hij] at hj
            cases hj
          · rw [if_neg hij] at hj
            exact hij (hx.unique i j b c hf hj)

end Lock

/-! ## Where a getter looks -/

/-- **`Points arr chunks idx loc`** — the location is the place of `idx`, or lies in an empty chunk that
begins at `idx`. -/
def Points (arr : BackedArray (Chunk T D C)) (chunks : List (List T)) (idx : Nat) (loc : ArrayLoc) : Prop :=
  ∃ chunk, chunks[loc.entryIdx]? = some chunk ∧
    (Locates chunks idx loc chunk ∨ chunk = [] ∧ EmptyBehind arr chunks idx)

/-- What `internal_idx` finds, whatever permitted position the search answers with. -/
theorem internalIdx_points {loads : Chunk T D C → List T → Prop} {chunks : List (List T)} {idx : Nat}
    {found : Except Nat Nat} (hwf : WellFormed loads arr chunks)
    (hfound : BinarySearch arr.keyEnds idx found) :
    (internalIdx arr.keyStarts arr.keyEnds found idx = .ok none ∧ arr.len ≤ idx) ∨
      ∃ loc, internalIdx arr.keyStarts arr.keyEnds found idx = .ok (some loc) ∧
        Points arr chunks idx loc := by
  have hlen : arr.keyEnds.length = chunks.length := by
    rw [hwf.keyEnds_eq, endsFrom_length, List.length_map]
  cases found with
  | ok i =>
      have hi : i < chunks.length := by
        cases hfound with
        | found hget =>
            rw [← hlen]
            exact (List.getElem?_eq_some_iff.mp hget).1
      rcases Nat.lt_or_eq_of_le (Nat.succ_le_of_lt hi) with hnext | hlast
      · obtain ⟨hloc, hsum⟩ := internalIdx_hit hwf hfound hnext
        have hchunk : chunks[i + 1]? = some chunks[i + 1] := List.getElem?_eq_getElem hnext
        refine Or.inr ⟨_, hloc, chunks[i + 1], hchunk, ?_⟩
        by_cases hnil : chunks[i + 1] = []
        · refine Or.inr ⟨hnil, i, ?_, by rw [hchunk, hnil]⟩
          rw [hwf.keyStarts_eq, startsFrom_getElem? 0 _ (by simpa using hnext), Nat.zero_add, hsum]
        · exact Or.inl ⟨hchunk, List.length_pos_iff.mpr hnil, hsum⟩
      · obtain ⟨hloc, hidx⟩ := internalIdx_hit_last hwf hfound hlast
        exact Or.inl ⟨hloc, Nat.le_of_eq hidx⟩
  | error i =>
      rcases Nat.lt_or_ge i chunks.length with hi | hi
      · obtain ⟨loc, chunk, hloc, hlocates⟩ := internalIdx_miss hwf hfound hi
        exact Or.inr ⟨loc, hloc, chunk, hlocates.chunk_eq, Or.inl hlocates⟩
      · have hend : i = chunks.length := by
          cases hfound with
          | absent _ hle _ _ => omega
        subst hend
        exact Or.inl (internalIdx_miss_end hwf hfound)

/-! ## What the getters return -/

/-- What an entry has in memory, if anything, is its chunk. -/
def Cached (entry : Chunk T D C) (chunk : List T) : Prop := ∀ v, entry.value = some v → v = chunk

/-- Some lock's mutex is poisoned. -/
def Poisoned (locks : List (Utils.State (List T) E)) : Prop :=
  ∃ (c : Nat) (l : Utils.State (List T) E), locks[c]? = some l ∧ l.lock.poisoned = true

/-- **`Right`** — what a getter has to show for itself.  It looks in the right place; an element it returned
is the one at its index; an index it called out of bounds is, unless `c_get` missed in an empty chunk; and it
panicked only in an empty chunk, or on a poisoned mutex. -/
def Getter.Right (arr : BackedArray (Chunk T D C)) (chunks : List (List T))
    (locks : List (Utils.State (List T) E)) (getter : Getter T E) : Prop :=
  match getter.stage with
  | .loading loc _ => Points arr chunks getter.idx loc
  | .done (.ok x) => chunks.flatten[getter.idx]? = some x
  | .done (.error (.outsideEntryBounds i)) =>
      i = getter.idx ∧
        (arr.len ≤ getter.idx ∨ getter.family = .generic ∧ EmptyBehind arr chunks getter.idx)
  | .done (.error (.coder _)) => True
  | .panicked => getter.family = .slice ∧ EmptyBehind arr chunks getter.idx ∨ Poisoned locks

/-- The chunks decoded so far, as an observer of the decoder lists them. -/
def noteDecoded (s : Getters T E) (ev : GetEvent T E) (_ : Getters T E) (decoded : List Nat) : List Nat :=
  match ev with
  | .act g (.pollInit (.ready (.ok _))) =>
      match s.gets[g]? with
      | some { stage := .loading loc _, .. } => decoded ++ [loc.entryIdx]
      | _ => decoded
  | _ => decoded

/-- **`Genuine`** — the binary search answers as documented, and a decode that ends well yields the chunk. -/
def Genuine (arr : BackedArray (Chunk T D C)) (chunks : List (List T)) (p : Getters T E × List Nat)
    (ev : GetEvent T E) (_ : Getters T E × List Nat) : Prop :=
  match ev with
  | .call _ idx found => BinarySearch arr.keyEnds idx found
  | .act g (.pollInit (.ready (.ok v))) =>
      ∀ getter loc fut, p.1.gets[g]? = some getter → getter.stage = .loading loc fut →
        chunks[loc.entryIdx]? = some v
  | _ => True

/-- **`Served arr chunks p`** — every getter is right, no chunk was decoded twice, and none that was in
memory. -/
structure Served (arr : BackedArray (Chunk T D C)) (chunks : List (List T))
    (p : Getters T E × List Nat) : Prop where
  right : ∀ getter ∈ p.1.gets, getter.Right arr chunks p.1.locks
  once : p.2.Nodup
  needed : ∀ c ∈ p.2, ¬InMemory arr c

/-- **The invariant**: beside it, every lock is tended, and those of the chunks decoded or in memory are
spent. -/
structure Tending (arr : BackedArray (Chunk T D C)) (chunks : List (List T))
    (p : Getters T E × List Nat) : Prop where
  served : Served arr chunks p
  locks : List.Forall₂ (fun l chunk => Tended chunk l) p.1.locks chunks
  spent : ∀ (c : Nat) (l : Utils.State (List T) E), p.1.locks[c]? = some l →
    c ∈ p.2 ∨ InMemory arr c → Spent l

variable {chunks : List (List T)}

theorem tending_of (hwf : WellFormed Cached arr chunks) :
    Tending arr chunks ((.of arr, []) : Getters T E × List Nat) where
  served := ⟨fun _ h => (List.not_mem_nil h).elim, List.nodup_nil, fun _ h => (List.not_mem_nil h).elim⟩
  locks := by
    show List.Forall₂ _ (arr.entries.map _) chunks
    rw [List.forall₂_map_left_iff]
    exact hwf.entries.imp fun _ _ h => tended_of h
  spent := by
    rintro c l hl (hc | ⟨entry, he, hloaded⟩)
    · exact (List.not_mem_nil hc).elim
    · change (arr.entries.map _)[c]? = some l at hl
      rw [List.getElem?_map, he] at hl
      obtain rfl := Option.some.inj hl
      exact Or.inl hloaded

/-- What is right stays right, whatever becomes of the locks, if a poisoned mutex stays poisoned. -/
theorem Getter.Right.mono {getter : Getter T E} {locks locks' : List (Utils.State (List T) E)}
    (h : getter.Right arr chunks locks) (hmono : Poisoned locks → Poisoned locks') :
    getter.Right arr chunks locks' := by
  unfold Getter.Right at h ⊢
  split
  next hstage =>
    rw [hstage] at h
    exact h
  next hstage =>
    rw [hstage] at h
    exact h
  next hstage =>
    rw [hstage] at h
    exact h
  next => trivial
  next hstage =>
    rw [hstage] at h
    exact h.imp id hmono

/-- An empty chunk has no element. -/
theorem Points.misses {idx : Nat} {loc : ArrayLoc} {chunk : List T} (h : Points arr chunks idx loc)
    (hchunk : chunks[loc.entryIdx]? = some chunk) (hnone : chunk[loc.insideEntryIdx]? = none) :
    EmptyBehind arr chunks idx := by
  obtain ⟨chunk', hchunk', hcase⟩ := h
  obtain rfl : chunk = chunk' := Option.some.inj (hchunk.symm.trans hchunk')
  rcases hcase with hlocates | ⟨-, hempty⟩
  · obtain ⟨x, hx, -⟩ := hlocates.element
    rw [hnone] at hx
    cases hx
  · exact hempty

/-- An element found is the one at the index. -/
theorem Points.element {idx : Nat} {loc : ArrayLoc} {chunk : List T} {x : T} (h : Points arr chunks idx loc)
    (hchunk : chunks[loc.entryIdx]? = some chunk) (hx : chunk[loc.insideEntryIdx]? = some x) :
    chunks.flatten[idx]? = some x := by
  obtain ⟨chunk', hchunk', hcase⟩ := h
  obtain rfl : chunk = chunk' := Option.some.inj (hchunk.symm.trans hchunk')
  rcases hcase with hlocates | ⟨rfl, -⟩
  · obtain ⟨y, hy, hflat⟩ := hlocates.element
    rw [hx] at hy
    exact hflat.trans (Option.some.inj hy ▸ rfl)
  · cases hx

/-- **The end of a getter** is right, if its lock was tended. -/
theorem Getter.Right.finish {getter : Getter T E} {locks : List (Utils.State (List T) E)} {loc : ArrayLoc}
    {fut : Nat} {l : Utils.State (List T) E} {future : Utils.TryInitFuture (List T) E}
    {stage : GetterStage T E} {chunk : List T} (hpoints : Points arr chunks getter.idx loc)
    (hchunk : chunks[loc.entryIdx]? = some chunk) (hl : locks[loc.entryIdx]? = some l)
    (htended : Tended chunk l) (hfuture : l.futs[fut]? = some future)
    (hfinish : getter.finish loc future = some stage) :
    ({ getter with stage } : Getter T E).Right arr chunks locks := by
  cases future with
  | initialized entry =>
      obtain rfl := htended.given fut entry hfuture
      unfold Getter.finish at hfinish
      simp only at hfinish
      split at hfinish
      next x hx =>
        obtain rfl := Option.some.inj hfinish
        exact hpoints.element hchunk hx
      next hnone =>
        obtain rfl := Option.some.inj hfinish
        have hempty := hpoints.misses hchunk hnone
        obtain ⟨family, idx, old⟩ := getter
        cases family with
        | slice => exact Or.inl ⟨rfl, hempty⟩
        | generic => exact ⟨rfl, Or.inr ⟨rfl, hempty⟩⟩
  | failed e =>
      obtain rfl := Option.some.inj hfinish
      trivial
  | panicked =>
      obtain rfl := Option.some.inj hfinish
      exact Or.inr ⟨_, l, hl, htended.sound fut hfuture⟩
  | _ => cases hfinish

/-- A step of one lock leaves a poisoned mutex poisoned. -/
theorem poisoned_set {locks : List (Utils.State (List T) E)} {c : Nat} {l l' : Utils.State (List T) E}
    (hl : locks[c]? = some l) (hkeep : l.lock.poisoned = true → l'.lock.poisoned = true)
    (h : Poisoned locks) : Poisoned (locks.set c l') := by
  obtain ⟨d, l₁, hl₁, hp⟩ := h
  have hlt : c < locks.length := (List.getElem?_eq_some_iff.mp hl).1
  by_cases hcd : c = d
  · subst hcd
    obtain rfl : l = l₁ := Option.some.inj (hl.symm.trans hl₁)
    exact ⟨c, l', by rw [List.getElem?_set_self hlt], hkeep hp⟩
  · exact ⟨d, l₁, by rw [List.getElem?_set_ne hcd, hl₁], hp⟩

/-- A lock at its chunk. -/
theorem Tending.tended {p : Getters T E × List Nat} (h : Tending arr chunks p) {c : Nat}
    {l : Utils.State (List T) E} (hl : p.1.locks[c]? = some l) :
    ∃ chunk, chunks[c]? = some chunk ∧ Tended chunk l := by
  have hlt : c < p.1.locks.length := (List.getElem?_eq_some_iff.mp hl).1
  have hlt' : c < chunks.length := by
    rw [← h.locks.length_eq]
    exact hlt
  refine ⟨chunks[c], List.getElem?_eq_getElem hlt', ?_⟩
  have htended := h.locks.get hlt hlt'
  obtain rfl : p.1.locks[c] = l := Option.some.inj ((List.getElem?_eq_getElem hlt).symm.trans hl)
  exact htended

/-- One step of one lock, with the getters as they are or with a new one, and at most its own chunk decoded
by it. -/
theorem Tending.lock {p : Getters T E × List Nat} {c : Nat} {l l' : Utils.State (List T) E}
    {lev : Utils.Event (List T) E} {gets : List (Getter T E)} {decoded : List Nat}
    (h : Tending arr chunks p) (hl : p.1.locks[c]? = some l) (hs : Utils.next l lev = some l')
    (hgenuine : ∀ i v, lev = .act i (.pollInit (.ready (.ok v))) → chunks[c]? = some v)
    (hdecoded : decoded = p.2 ∨
      decoded = p.2 ++ [c] ∧ ∃ i v, lev = .act i (.pollInit (.ready (.ok v))))
    (hgets : ∀ getter ∈ gets, getter ∈ p.1.gets ∨
      getter.Right arr chunks (p.1.locks.set c l')) :
    Tending arr chunks ({ locks := p.1.locks.set c l', gets }, decoded) := by
  obtain ⟨chunk, hchunk, htended⟩ := h.tended hl
  have hstep : Tended chunk l' := htended.step hs fun i v hev =>
    Option.some.inj ((hgenuine i v hev).symm.trans hchunk)
  have hlt : c < p.1.locks.length := (List.getElem?_eq_some_iff.mp hl).1
  refine ⟨⟨fun getter hmem => ?_, ?_, ?_⟩, forall₂_set h.locks hchunk hstep, ?_⟩
  · rcases hgets getter hmem with hold | hright
    · exact (h.served.right getter hold).mono (poisoned_set hl fun hp => poisoned_step hp hs)
    · exact hright
  · rcases hdecoded with rfl | ⟨rfl, i, v, rfl⟩
    · exact h.served.once
    · refine List.nodup_append.mpr ⟨h.served.once, List.pairwise_singleton _ c, fun a ha b hb => ?_⟩
      obtain rfl := List.mem_singleton.mp hb
      rintro rfl
      exact (spent_of_ok htended.exclusive hs).1 (h.spent a l hl (Or.inl ha))
  · rcases hdecoded with rfl | ⟨rfl, i, v, rfl⟩
    · exact h.served.needed
    · intro d hd hmemory
      rcases List.mem_append.mp hd with hd | hd
      · exact h.served.needed d hd hmemory
      · obtain rfl := List.mem_singleton.mp hd
        exact (spent_of_ok htended.exclusive hs).1 (h.spent d l hl (Or.inr hmemory))
  · intro d l₁ hl₁ hcase
    change (p.1.locks.set c l')[d]? = some l₁ at hl₁
    by_cases hcd : c = d
    · subst hcd
      rw [List.getElem?_set_self hlt] at hl₁
      obtain rfl := Option.some.inj hl₁
      rcases hdecoded with rfl | ⟨rfl, i, v, rfl⟩
      · exact (h.spent c l hl hcase).step htended.exclusive hs
      · exact (spent_of_ok htended.exclusive hs).2
    · rw [List.getElem?_set_ne hcd] at hl₁
      refine h.spent d l₁ hl₁ (hcase.imp (fun hd => ?_) id)
      rcases hdecoded with rfl | ⟨rfl, -⟩
      · exact hd
      · rcases List.mem_append.mp hd with hd | hd
        · exact hd
        · exact absurd (List.mem_singleton.mp hd).symm hcd

/-- A step that touches no lock: a new getter, or one that ends. -/
theorem Tending.getters {p : Getters T E × List Nat} {gets : List (Getter T E)} (h : Tending arr chunks p)
    (hgets : ∀ getter ∈ gets, getter ∈ p.1.gets ∨ getter.Right arr chunks p.1.locks) :
    Tending arr chunks ({ p.1 with gets }, p.2) := by
  refine ⟨⟨fun getter hmem => ?_, h.served.once, h.served.needed⟩, h.locks, h.spent⟩
  rcases hgets getter hmem with hold | hright
  · exact h.served.right getter hold
  · exact hright

/-- **The step lemma.** -/
theorem Tending.step (hwf : WellFormed Cached arr chunks) {p q : Getters T E × List Nat}
    (h : Tending arr chunks p) (hs : observed (getNext arr) noteDecoded p ev = some q)
    (hgenuine : Genuine arr chunks p ev q) : Tending arr chunks q := by
  obtain ⟨t, decoded⟩ := q
  obtain ⟨hnext, hnote⟩ := observed_inv hs
  change getNext arr p.1 ev = some t at hnext
  change decoded = noteDecoded p.1 ev t p.2 at hnote
  subst hnote
  -- a new getter stands behind the others
  have hnew : ∀ {getter : Getter T E} {locks : List (Utils.State (List T) E)},
      getter.Right arr chunks locks →
      ∀ x ∈ p.1.gets ++ [getter], x ∈ p.1.gets ∨ x.Right arr chunks locks := by
    intro getter locks hright x hx
    rcases List.mem_append.mp hx with hx | hx
    · exact Or.inl hx
    · exact Or.inr (List.mem_singleton.mp hx ▸ hright)
  cases getNext_moves hnext with
  | broken hloc =>
      rcases internalIdx_points hwf hgenuine with ⟨hnone, -⟩ | ⟨loc, hsome, -⟩
      · rw [hnone] at hloc
        cases hloc
      · rw [hsome] at hloc
        cases hloc
  | outside hloc =>
      rcases internalIdx_points hwf hgenuine with ⟨-, hge⟩ | ⟨loc, hsome, -⟩
      · exact h.getters (hnew ⟨rfl, Or.inl hge⟩)
      · rw [hsome] at hloc
        cases hloc
  | @missing family idx found loc hloc hlock =>
      rcases internalIdx_points hwf hgenuine with ⟨hnone, -⟩ | ⟨loc', hsome, chunk, hchunk, -⟩
      · rw [hnone] at hloc
        cases hloc
      · rw [hsome] at hloc
        cases hloc
        have hlt : loc.entryIdx < chunks.length := (List.getElem?_eq_some_iff.mp hchunk).1
        rw [← h.locks.length_eq] at hlt
        rw [List.getElem?_eq_getElem hlt] at hlock
        cases hlock
  | @begins family idx found loc lock lock' hloc hlock hspawn =>
      rcases internalIdx_points hwf hgenuine with ⟨hnone, -⟩ | ⟨loc', hsome, hpoints⟩
      · rw [hnone] at hloc
        cases hloc
      · rw [hsome] at hloc
        cases hloc
        exact h.lock hlock hspawn (fun i v hev => by cases hev) (Or.inl rfl) (hnew hpoints)
  | @acts g fut getter loc a lock lock' hg hstage hlock hact =>
      refine h.lock hlock hact ?_ ?_ fun x hx => Or.inl hx
      · intro i v hev
        cases hev
        exact hgenuine getter loc fut hg hstage
      · unfold noteDecoded
        split
        next g' v hev =>
          cases hev
          right
          obtain ⟨family, idx, stage⟩ := getter
          change stage = .loading loc fut at hstage
          subst hstage
          rw [hg]
          exact ⟨rfl, fut, v, rfl⟩
        next => exact Or.inl rfl
  | @finishes g fut getter loc lock future stage hg hstage hlock hfuture hfinish =>
      have hright := h.served.right getter (List.mem_of_getElem? hg)
      unfold Getter.Right at hright
      rw [hstage] at hright
      obtain ⟨chunk, hchunk, htended⟩ := h.tended hlock
      have hend := Getter.Right.finish hright hchunk hlock htended hfuture hfinish
      refine h.getters fun x hx => ?_
      rcases List.mem_or_eq_of_mem_set hx with hx | rfl
      · exact Or.inl hx
      · exact Or.inr hend

/-- **Any number of getters at a time.**  Over any interleaving of any number of `a_get` and `a_generic_get`
futures on one well-formed array, with loads that fail, are pending or are dropped at any point: in every
state every getter is right, no chunk has been decoded twice, and none that was in memory. -/
theorem concurrent_gets (arr : BackedArray (Chunk T D C)) (chunks : List (List T))
    (hwf : WellFormed Cached arr chunks) {tr : List (GetEvent T E × (Getters T E × List Nat))}
    (htr : IsTrace (Steps (observed (getNext arr) noteDecoded)) (.of arr, []) tr)
    (hgenuine : StepsMeet (Genuine arr chunks) (.of arr, []) tr) :
    StatesMeet (Served arr chunks) (.of arr, []) tr := by
  have hall := invariant_under (P := Tending arr chunks) (fun _ _ _ h hs hc => h.step hwf hs hc)
    (tending_of hwf) htr hgenuine
  exact ⟨hall.1.served, fun x hx => (hall.2 x hx).served⟩

/-- Chunk `[7, 8]` on disk, chunk `[9]` in memory. -/
def halfLoaded : BackedArray (Chunk Nat (Option (List Nat)) Unit) where
  keyStarts := [0, 2]
  keyEnds := [2, 3]
  entries := [.new (some [7, 8]) (), { value := some [9], disk := some [9], coder := () }]

theorem halfLoaded_wellFormed : WellFormed Cached halfLoaded [[7, 8], [9]] where
  keys := consecutive_iff.mpr ⟨rfl, rfl⟩
  entries := by
    refine .cons (fun v hv => ?_) (.cons (fun v hv => ?_) .nil)
    · cases hv
    · exact (Option.some.inj hv).symm

/-- Two getters meet in the first chunk, of which one waits for the other; a third finds its chunk. -/
def threeGetters : List (GetEvent Nat Unit × (Getters Nat Unit × List Nat)) :=
  follow (observed (getNext halfLoaded) noteDecoded) (.of halfLoaded, [])
    [.call .slice 0 (.error 0), .call .generic 1 (.error 0), .act 0 .get, .act 1 .get, .act 0 .create,
      .act 1 .create, .act 0 (.pollInit (.ready (.ok [7, 8]))), .act 1 .pollWaiting, .finish 0,
      .finish 1, .call .slice 2 (.ok 0), .act 2 .get, .finish 2]

example : (last (.of halfLoaded, []) threeGetters).1.gets =
      [⟨.slice, 0, .done (.ok 7)⟩, ⟨.generic, 1, .done (.ok 8)⟩, ⟨.slice, 2, .done (.ok 9)⟩] ∧
    (last (.of halfLoaded, []) threeGetters).2 = [0] := by decide

theorem concurrent_gets_three :
    StatesMeet (Served halfLoaded [[7, 8], [9]]) (.of halfLoaded, []) threeGetters := by
  refine concurrent_gets halfLoaded _ halfLoaded_wellFormed (isTrace_follow _ _ _) ?_
  have hsearch : ∀ idx, idx < 2 → BinarySearch halfLoaded.keyEnds idx (.error 0) := by
    intro idx hidx
    have hend : ∀ x ∈ halfLoaded.keyEnds, idx < x := by
      intro x hx
      simp [halfLoaded] at hx
      omega
    exact .absent (fun hx => Nat.lt_irrefl idx (hend idx hx)) (Nat.zero_le _)
      (fun x hx => absurd hx List.not_mem_nil) hend
  refine ⟨hsearch 0 (by omega), hsearch 1 (by omega), trivial, trivial, trivial, trivial, ?_, trivial,
    trivial, trivial, .found rfl, trivial, trivial, trivial⟩
  rintro getter loc fut hg hstage
  cases hg
  cases hstage
  rfl

end BackedData.Array
