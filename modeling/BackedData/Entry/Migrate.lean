/-
# BackedData.Entry.Migrate — an entry that moves from disk to disk, and from coder to coder

`change_backing`, `a_change_backing`, `to_sync` and `from_sync` write the value of an entry to another
disk with another coder; `encoder_into` and `encoder_try_into` exchange the coder and leave the disk.  Each
consumes the entry, and a failed one leaves nothing but the disk it came from.

A `Travel` is an entry wherever it is just now, with the ledger its owner keeps of it.  Its types change
along the way, so the disk and the coder of the moment, with what they promise, are a `Backing` carried in
the state.  `travel_coherent` continues what is known of the life on one disk: over any number of moves, with
any of them failing, cell and disk never disagree with the ledger, but for a `from_sync` whose blocking
function did not load the value.

Two backings never share a file.
-/
import BackedData.Entry.Session

namespace BackedData.Entry

open Logic.Outcome
open Logic.Trace

set_option autoImplicit false

/-! ## Moving an entry -/

namespace BackedEntry

variable {T D C S E D' C' E' : Type} (io : Medium T D C S E) (io' : Medium T D' C' S E')

/-- `change_backing`.  The disk the entry was on is left behind in any case. -/
def changeBacking (self : BackedEntry T D C) (disk : D') (coder : C') (s : S) :
    Except (E ⊕ E') (BackedEntry T D' C') × D × S :=
  match self.load io s with
  | (.error e, self, s) => (.error (.inl e), self.disk, s)
  | (.ok _, self, s) =>
      let other : BackedEntry T D' C' := { value := self.value, disk, coder }
      match other.update io' s with
      | (.error e, _, s) => (.error (.inr e), self.disk, s)
      | (.ok (), other, s) => (.ok other, self.disk, s)

/-- `a_change_backing`, awaited to its end. -/
def aChangeBacking (self : BackedEntry T D C) (disk : D') (coder : C') (s : S) :
    Except (E ⊕ E') (BackedEntry T D' C') × D × S :=
  match self.aLoad io s with
  | (.error e, self, s) => (.error (.inl e), self.disk, s)
  | (.ok _, self, s) =>
      let other : BackedEntry T D' C' := { value := self.value, disk, coder }
      match other.update io' s with
      | (.error e, _, s) => (.error (.inr e), self.disk, s)
      | (.ok (), other, s) => (.ok other, self.disk, s)

/-- `encoder_into`. -/
def encoderInto (self : BackedEntry T D C) (into : C → C') : BackedEntry T D C' :=
  { value := self.value, disk := self.disk, coder := into self.coder }

/-- `encoder_try_into`.  A conversion that fails takes the entry with it. -/
def encoderTryInto {F : Type} (self : BackedEntry T D C) (tryInto : C → Except F C') :
    Except F (BackedEntry T D C') :=
  match tryInto self.coder with
  | .error e => .error e
  | .ok coder => .ok { value := self.value, disk := self.disk, coder }

end BackedEntry

/-- `UpdateBlocking`: the entry a blocking function is to update. -/
structure UpdateBlocking (T D C : Type) where
  entry : BackedEntry T D C

/-- `LoadBlocking`: a share of the entry a blocking function is to load. -/
structure LoadBlocking (T D C : Type) where
  entry : BackedEntry T D C

section Blocking

variable {T D C S E D' C' E' : Type} (io : Medium T D C S E) (io' : Medium T D' C' S E')

/-- `BlockingFn::call` of `UpdateBlocking`. -/
def UpdateBlocking.call (self : UpdateBlocking T D C) (s : S) : Except E (BackedEntry T D C) × S :=
  match self.entry.update io s with
  | (.error e, _, s) => (.error e, s)
  | (.ok (), entry, s) => (.ok entry, s)

/-- `BlockingFn::call` of `LoadBlocking`.  The entry is shared, and so the caller sees what was loaded. -/
def LoadBlocking.call (self : LoadBlocking T D C) (s : S) : Except E Unit × LoadBlocking T D C × S :=
  match self.entry.load io s with
  | (r, entry, s) => (r.map fun _ => (), { entry }, s)

/-- `cur_thread` of an update. -/
def curThread (arg : UpdateBlocking T D C) (s : S) : Except E (BackedEntry T D C) × S := arg.call io s

/-- `to_sync`. -/
def BackedEntry.toSync (self : BackedEntry T D C) (disk : D') (coder : C')
    (blockingFn : UpdateBlocking T D' C' → S → Except E' (BackedEntry T D' C') × S) (s : S) :
    Exec (Except (E ⊕ E') (BackedEntry T D' C')) × D × S :=
  match self.aLoad io s with
  | (.error e, self, s) => (.ok (.error (.inl e)), self.disk, s)
  | (.ok _, self, s) =>
      match unwrap self.value with
      | .error p => (.error p, self.disk, s)
      | .ok value =>
          match blockingFn { entry := { value := some value, disk, coder } } s with
          | (.error e, s) => (.ok (.error (.inr e)), self.disk, s)
          | (.ok other, s) => (.ok (.ok other), self.disk, s)

/-- **`Handling`** — what the blocking function of `from_sync` does with the `LoadBlocking` it is given.
It has to answer with an entry, which `call` does not give it: the entry is one of its own making, and is
thrown away.  So it may `call` and pass the error on or not, `ignore` what it was given, or `keep` it
somewhere beyond its own end. -/
inductive Handling (E : Type) where
  | call (answer : Except E Unit → Except E Unit)
  | ignore (answer : Except E Unit)
  | keep (answer : Except E Unit)

/-- The blocking function runs: its answer, the shared entry after it, and whether a share of it is still
held. -/
def Handling.run (handling : Handling E) (shared : LoadBlocking T D C) (s : S) :
    Except E Unit × LoadBlocking T D C × Bool × S :=
  match handling with
  | .call answer =>
      match shared.call io s with
      | (r, shared, s) => (answer r, shared, false, s)
  | .ignore answer => (answer, shared, false, s)
  | .keep answer => (answer, shared, true, s)

/-- `from_sync`. -/
def BackedEntry.fromSync (other : BackedEntry T D C) (disk : D') (coder : C') (blockingFn : Handling E)
    (s : S) : Exec (Except (E ⊕ E') (BackedEntry T D' C')) × BackedEntry T D C × S :=
  match blockingFn.run io { entry := other } s with
  | (.error e, other, _, s) => (.ok (.error (.inl e)), other.entry, s)
  -- `Arc::into_inner` gives nothing while another share is held
  | (.ok (), other, true, s) => (.error .unwrapNone, other.entry, s)
  | (.ok (), other, false, s) =>
      let this : BackedEntry T D' C' := { value := other.entry.value, disk, coder }
      match this.update io' s with
      | (.error e, _, s) => (.ok (.error (.inr e)), other.entry, s)
      | (.ok (), this, s) => (.ok (.ok this), other.entry, s)

end Blocking

/-! ## What a move does -/

/-- The entry at the end of a move, if it got there. -/
def arrived {T D C F : Type} : Exec (Except F (BackedEntry T D C)) → Option (BackedEntry T D C)
  | .ok (.ok e) => some e
  | _ => none

section Moves

variable {T D C S E D' C' E' : Type} {io : Medium T D C S E} {io' : Medium T D' C' S E'}
  {stored : C → D → Option T} {stored' : C' → D' → Option T} {e e' : BackedEntry T D C} {s s' : S}

/-- The value of an entry: the cached one, or else the stored one. -/
def BackedEntry.Holds (stored : C → D → Option T) (e : BackedEntry T D C) (v : T) : Prop :=
  e.value = some v ∨ e.value = none ∧ e.storedValue stored = some v

/-- **`Moved`** — a move leaves the old disk as it was, and an entry that arrives has the value of the old
one, in the cell and on the new disk. -/
structure Moved (stored : C → D → Option T) (stored' : C' → D' → Option T) (e : BackedEntry T D C)
    (r : Option (BackedEntry T D' C')) (d : D) : Prop where
  behind : stored e.coder d = e.storedValue stored
  carried : ∀ other, r = some other →
    ∃ v, e.Holds stored v ∧ other.value = some v ∧ other.storedValue stored' = some v

/-- A load leaves the disk and the coder alone. -/
theorem Lawful.load_behind (hio : Lawful io stored) {r : Except E T} (h : e.load io s = (r, e', s')) :
    stored e.coder e'.disk = e.storedValue stored := by
  unfold BackedEntry.load at h
  rcases hv : e.value with _ | x
  · rw [hv] at h
    rcases hd : e.decodeFromDisk io s with ⟨r₁ | v, e₁, s₁⟩
    · obtain ⟨-, hcoder, hst, -⟩ := hio.decodeFromDisk_spec hd
      simp only [hd, Prod.mk.injEq] at h
      obtain ⟨-, rfl, -⟩ := h
      rw [← hst, ← hcoder]
      rfl
    · obtain ⟨-, hcoder, hst, -⟩ := hio.decodeFromDisk_spec hd
      simp only [hd, Prod.mk.injEq] at h
      obtain ⟨-, rfl, -⟩ := h
      rw [← hst, ← hcoder]
      rfl
  · rw [hv] at h
    simp only [Prod.mk.injEq] at h
    obtain ⟨-, rfl, -⟩ := h
    rfl

/-- What was loaded was held. -/
theorem Lawful.load_holds (hio : Lawful io stored) {v : T} (h : e.load io s = (.ok v, e', s')) :
    e.Holds stored v ∧ e'.value = some v := by
  obtain ⟨hval, -, hheld⟩ := hio.load_ok h
  exact ⟨hheld, hval⟩

/-- `change_backing`. -/
theorem changeBacking_moved (hio : Lawful io stored) (hio' : Lawful io' stored') {disk : D'} {coder : C'}
    {r : Except (E ⊕ E') (BackedEntry T D' C')} {d : D}
    (h : e.changeBacking io io' disk coder s = (r, d, s')) :
    Moved stored stored' e (arrived (.ok r)) d := by
  unfold BackedEntry.changeBacking at h
  rcases hl : e.load io s with ⟨err | v, e₁, s₁⟩
  · simp only [hl, Prod.mk.injEq] at h
    obtain ⟨rfl, rfl, -⟩ := h
    refine ⟨hio.load_behind hl, ?_⟩
    intro other hother
    cases hother
  · obtain ⟨hheld, hval⟩ := hio.load_holds hl
    simp only [hl, hval] at h
    rcases hu : (({ value := some v, disk, coder } : BackedEntry T D' C').update io' s₁) with
      ⟨err | u, e₂, s₂⟩
    · simp only [hu, Prod.mk.injEq] at h
      obtain ⟨rfl, rfl, -⟩ := h
      refine ⟨hio.load_behind hl, ?_⟩
      intro other hother
      cases hother
    · simp only [hu, Prod.mk.injEq] at h
      obtain ⟨rfl, rfl, -⟩ := h
      refine ⟨hio.load_behind hl, ?_⟩
      intro other hother
      cases hother
      exact ⟨v, hheld, hio'.update_ok rfl hu⟩

/-- The async move is the sync one. -/
theorem aChangeBacking_eq (disk : D') (coder : C') (s : S) :
    e.aChangeBacking io io' disk coder s = e.changeBacking io io' disk coder s := rfl

/-- `UpdateBlocking::call`. -/
theorem updateBlocking_ok (hio : Lawful io stored) {v : T} {f : UpdateBlocking T D C}
    (hv : f.entry.value = some v) (h : f.call io s = (.ok e', s')) :
    e'.value = some v ∧ e'.storedValue stored = some v := by
  unfold UpdateBlocking.call at h
  rcases hu : f.entry.update io s with ⟨err | u, e₁, s₁⟩
  · simp [hu] at h
  · simp only [hu, Prod.mk.injEq, Except.ok.injEq] at h
    obtain ⟨rfl, -⟩ := h
    exact hio.update_ok hv hu

/-- `to_sync`, with a blocking function that calls what it is given.  It does not panic. -/
theorem toSync_moved (hio : Lawful io stored) (hio' : Lawful io' stored') {disk : D'} {coder : C'}
    {blockingFn : UpdateBlocking T D' C' → S → Except E' (BackedEntry T D' C') × S}
    (hcalls : ∀ f s, blockingFn f s = curThread io' f s)
    {r : Exec (Except (E ⊕ E') (BackedEntry T D' C'))} {d : D}
    (h : e.toSync io disk coder blockingFn s = (r, d, s')) :
    Moved stored stored' e (arrived r) d ∧ ∃ x, r = .ok x := by
  unfold BackedEntry.toSync at h
  rw [BackedEntry.aLoad_eq_load] at h
  rcases hl : e.load io s with ⟨err | v, e₁, s₁⟩
  · simp only [hl, Prod.mk.injEq] at h
    obtain ⟨rfl, rfl, -⟩ := h
    refine ⟨⟨hio.load_behind hl, ?_⟩, _, rfl⟩
    intro other hother
    cases hother
  · obtain ⟨hheld, hval⟩ := hio.load_holds hl
    simp only [hl, hval, unwrap_some, hcalls, curThread] at h
    rcases hu : (UpdateBlocking.call io' { entry := { value := some v, disk, coder } } s₁) with
      ⟨err | e₂, s₂⟩
    · simp only [hu, Prod.mk.injEq] at h
      obtain ⟨rfl, rfl, -⟩ := h
      refine ⟨⟨hio.load_behind hl, ?_⟩, _, rfl⟩
      intro other hother
      cases hother
    · simp only [hu, Prod.mk.injEq] at h
      obtain ⟨rfl, rfl, -⟩ := h
      refine ⟨⟨hio.load_behind hl, ?_⟩, _, rfl⟩
      intro other hother
      cases hother
      exact ⟨v, hheld, updateBlocking_ok hio' rfl hu⟩

/-- The blocking function of `from_sync` leaves the disk alone, and in the cell nothing but the value. -/
theorem handling_run (hio : Lawful io stored) {handling : Handling E} {r : Except E Unit}
    {shared : LoadBlocking T D C} {kept : Bool}
    (h : handling.run io { entry := e } s = (r, shared, kept, s')) :
    stored e.coder shared.entry.disk = e.storedValue stored ∧
      ∀ v, shared.entry.value = some v → e.Holds stored v := by
  cases handling with
  | call answer =>
      unfold Handling.run LoadBlocking.call at h
      rcases hl : e.load io s with ⟨err | v, e₁, s₁⟩
      · simp only [hl, Prod.mk.injEq] at h
        obtain ⟨-, rfl, -, -⟩ := h
        refine ⟨hio.load_behind hl, ?_⟩
        intro w hw
        -- a load that failed has cached nothing
        have hnone : e₁.value = none := (hio.load_error hl).2.1
        exact absurd (hnone.symm.trans hw) (by simp)
      · obtain ⟨hheld, hval⟩ := hio.load_holds hl
        simp only [hl, Prod.mk.injEq] at h
        obtain ⟨-, rfl, -, -⟩ := h
        refine ⟨hio.load_behind hl, ?_⟩
        intro w hw
        cases hval.symm.trans hw
        exact hheld
  | ignore answer =>
      simp only [Handling.run, Prod.mk.injEq] at h
      obtain ⟨-, rfl, -, -⟩ := h
      exact ⟨rfl, fun v hv => Or.inl hv⟩
  | keep answer =>
      simp only [Handling.run, Prod.mk.injEq] at h
      obtain ⟨-, rfl, -, -⟩ := h
      exact ⟨rfl, fun v hv => Or.inl hv⟩

/-- `from_sync`.  An entry that arrives without a value is on the disk as it was found. -/
theorem fromSync_moved (hio : Lawful io stored) (hio' : Lawful io' stored') {disk : D'} {coder : C'}
    {handling : Handling E} {r : Exec (Except (E ⊕ E') (BackedEntry T D' C'))} {left : BackedEntry T D C}
    (h : e.fromSync io io' disk coder handling s = (r, left, s')) :
    stored e.coder left.disk = e.storedValue stored ∧
      ∀ other, arrived r = some other →
        (∃ v, e.Holds stored v ∧ left.value = some v ∧ other.value = some v ∧
          other.storedValue stored' = some v) ∨
        left.value = none ∧ other = { value := none, disk, coder } := by
  unfold BackedEntry.fromSync at h
  rcases hr : handling.run io { entry := e } s with ⟨err | u, shared, kept, s₁⟩
  · obtain ⟨hbehind, -⟩ := handling_run hio hr
    simp only [hr, Prod.mk.injEq] at h
    obtain ⟨rfl, rfl, -⟩ := h
    refine ⟨hbehind, ?_⟩
    intro other hother
    cases hother
  · obtain ⟨hbehind, hheld⟩ := handling_run hio hr
    cases kept with
    | true =>
        simp only [hr, Prod.mk.injEq] at h
        obtain ⟨rfl, rfl, -⟩ := h
        refine ⟨hbehind, ?_⟩
        intro other hother
        cases hother
    | false =>
        rcases hval : shared.entry.value with _ | v
        · simp only [hr, hval, BackedEntry.update, Prod.mk.injEq] at h
          obtain ⟨rfl, rfl, -⟩ := h
          refine ⟨hbehind, ?_⟩
          intro other hother
          cases hother
          exact Or.inr ⟨hval, rfl⟩
        · simp only [hr, hval] at h
          rcases hu : (({ value := some v, disk, coder } : BackedEntry T D' C').update io' s₁) with
            ⟨err | u, e₂, s₂⟩
          · simp only [hu, Prod.mk.injEq] at h
            obtain ⟨rfl, rfl, -⟩ := h
            refine ⟨hbehind, ?_⟩
            intro other hother
            cases hother
          · simp only [hu, Prod.mk.injEq] at h
            obtain ⟨rfl, rfl, -⟩ := h
            refine ⟨hbehind, ?_⟩
            intro other hother
            cases hother
            obtain ⟨hcell, hst⟩ := hio'.update_ok rfl hu
            exact Or.inl ⟨v, hheld v hval, hval, hcell, hst⟩

end Moves

/-! ## The life of a travelling entry -/

/-- **`Backing`** — a type of disks and a type of coders, with the calls they make and what these promise.
-/
structure Backing (T S : Type) where
  Disk : Type
  Coder : Type
  Error : Type
  io : Medium T Disk Coder S Error
  stored : Coder → Disk → Option T
  lawful : Lawful io stored

/-- **`Travel`** — an entry on the backing of the moment, and what its owner knows of it. -/
structure Travel (T S : Type) where
  backing : Backing T S
  session : Session T backing.Disk backing.Coder S

/-- A new entry on a disk that may already hold something. -/
def Travel.start {T S : Type} (backing : Backing T S) (disk : backing.Disk) (coder : backing.Coder)
    (world : S) : Travel T S where
  backing := backing
  session := .start backing.stored disk coder world

/-- How a move ended. -/
inductive Verdict where
  | arrived
  | failed
  | panicked
  deriving DecidableEq, Repr

def verdict {F α : Type} : Exec (Except F α) → Verdict
  | .ok (.ok _) => .arrived
  | .ok (.error _) => .failed
  | .error _ => .panicked

/-- What a step was, and what was seen of it: how it ended, what the old disk decodes to after it, and for a
`from_sync` whether its blocking function left a value in the cell, and what the new disk decoded to
before. -/
inductive Event (T : Type) where
  | called (call : Call T)
  | recoded
  | moved (verdict : Verdict) (behind : Option T)
  | fromSync (verdict : Verdict) (behind : Option T) (loaded : Bool) (found : Option T)

section Life

variable {T S : Type}

/-- The state after a move.  One that did not arrive has consumed the entry all the same. -/
def arrive (source target : Backing T S) (r : Option (BackedEntry T target.Disk target.Coder))
    (disk : source.Disk) (coder : source.Coder) (world : S) (led : Ledger T) : Travel T S :=
  match r with
  | some other =>
      { backing := target
        session := { hold := .owned other, world, ledger := { led with landed := true } } }
  | none => { backing := source, session := { hold := .taken disk coder, world, ledger := led } }

/-- **The steps**: a call on the entry where it is, or a move of it.  The backing to move to, and the disk
and the coder there, are the caller's; a coder to be exchanged is compatible with the one there was, as the
documentation of `encoder_into` has it. -/
inductive Goes : Travel T S → Event T → Travel T S → Prop where
  | call {b : Backing T S} {st st' : Session T b.Disk b.Coder S} {call : Call T}
      {answer : Answer T b.Error} (h : st.call b.io call = some (answer, st')) :
      Goes ⟨b, st⟩ (.called call) ⟨b, st'⟩
  | changeBacking {b b' : Backing T S} {e : BackedEntry T b.Disk b.Coder} {s s' : S} {led : Ledger T}
      {disk : b'.Disk} {coder : b'.Coder}
      {r : Except (b.Error ⊕ b'.Error) (BackedEntry T b'.Disk b'.Coder)} {d : b.Disk}
      (h : e.changeBacking b.io b'.io disk coder s = (r, d, s')) :
      Goes ⟨b, { hold := .owned e, world := s, ledger := led }⟩
        (.moved (verdict (.ok r)) (b.stored e.coder d))
        (arrive b b' (arrived (.ok r)) d e.coder s' led)
  | aChangeBacking {b b' : Backing T S} {e : BackedEntry T b.Disk b.Coder} {s s' : S} {led : Ledger T}
      {disk : b'.Disk} {coder : b'.Coder}
      {r : Except (b.Error ⊕ b'.Error) (BackedEntry T b'.Disk b'.Coder)} {d : b.Disk}
      (h : e.aChangeBacking b.io b'.io disk coder s = (r, d, s')) :
      Goes ⟨b, { hold := .owned e, world := s, ledger := led }⟩
        (.moved (verdict (.ok r)) (b.stored e.coder d))
        (arrive b b' (arrived (.ok r)) d e.coder s' led)
  | encoderInto {b : Backing T S} {e : BackedEntry T b.Disk b.Coder} {s : S} {led : Ledger T}
      {C' E' : Type} {io' : Medium T b.Disk C' S E'} {stored' : C' → b.Disk → Option T}
      (lawful' : Lawful io' stored') (into : b.Coder → C')
      (hsame : ∀ c d, stored' (into c) d = b.stored c d) :
      Goes ⟨b, { hold := .owned e, world := s, ledger := led }⟩ .recoded
        ⟨⟨b.Disk, C', E', io', stored', lawful'⟩,
          { hold := .owned (e.encoderInto into), world := s, ledger := led }⟩
  | encoderTryInto {b : Backing T S} {e : BackedEntry T b.Disk b.Coder} {s : S} {led : Ledger T}
      {C' E' F : Type} {io' : Medium T b.Disk C' S E'} {stored' : C' → b.Disk → Option T}
      {e' : BackedEntry T b.Disk C'} (lawful' : Lawful io' stored') (tryInto : b.Coder → Except F C')
      (hsame : ∀ c c' d, tryInto c = .ok c' → stored' c' d = b.stored c d)
      (h : e.encoderTryInto tryInto = .ok e') :
      Goes ⟨b, { hold := .owned e, world := s, ledger := led }⟩ .recoded
        ⟨⟨b.Disk, C', E', io', stored', lawful'⟩, { hold := .owned e', world := s, ledger := led }⟩
  | encoderTryIntoFails {b : Backing T S} {e : BackedEntry T b.Disk b.Coder} {s : S} {led : Ledger T}
      {C' F : Type} {err : F} (tryInto : b.Coder → Except F C')
      (h : e.encoderTryInto tryInto = .error err) :
      Goes ⟨b, { hold := .owned e, world := s, ledger := led }⟩
        (.moved .failed (e.storedValue b.stored))
        ⟨b, { hold := .taken e.disk e.coder, world := s, ledger := led }⟩
  | toSync {b b' : Backing T S} {e : BackedEntry T b.Disk b.Coder} {s s' : S} {led : Ledger T}
      {disk : b'.Disk} {coder : b'.Coder}
      {blockingFn : UpdateBlocking T b'.Disk b'.Coder → S →
        Except b'.Error (BackedEntry T b'.Disk b'.Coder) × S}
      (hcalls : ∀ f s, blockingFn f s = curThread b'.io f s)
      {r : Exec (Except (b.Error ⊕ b'.Error) (BackedEntry T b'.Disk b'.Coder))} {d : b.Disk}
      (h : e.toSync b.io disk coder blockingFn s = (r, d, s')) :
      Goes ⟨b, { hold := .owned e, world := s, ledger := led }⟩
        (.moved (verdict r) (b.stored e.coder d)) (arrive b b' (arrived r) d e.coder s' led)
  | fromSync {b b' : Backing T S} {e : BackedEntry T b.Disk b.Coder} {s s' : S} {led : Ledger T}
      {disk : b'.Disk} {coder : b'.Coder} {handling : Handling b.Error}
      {r : Exec (Except (b.Error ⊕ b'.Error) (BackedEntry T b'.Disk b'.Coder))}
      {left : BackedEntry T b.Disk b.Coder}
      (h : e.fromSync b.io b'.io disk coder handling s = (r, left, s')) :
      Goes ⟨b, { hold := .owned e, world := s, ledger := led }⟩
        (.fromSync (verdict r) (b.stored e.coder left.disk) left.value.isSome
          (b'.stored coder disk))
        (arrive b b' (arrived r) left.disk e.coder s' led)

/-- **`Carried`** — the condition: a `from_sync` that arrives has loaded the value, unless the new disk held
it already. -/
def Carried (t : Travel T S) (ev : Event T) (_ : Travel T S) : Prop :=
  match ev with
  | .fromSync .arrived _ false found => found = t.session.ledger.logical
  | _ => True

/-- **`Keeps`** — what is promised of a step: cell and disk agree with the ledger after it; the disk an entry
has left still holds the value, if it did; and nothing but a `from_sync` panics. -/
structure Keeps (t : Travel T S) (ev : Event T) (t' : Travel T S) : Prop where
  coherent : Coherent t'.backing.stored t'.session
  behind : ∀ v x, ev = .moved v x ∨ (∃ l f, ev = .fromSync v x l f) → t.session.ledger.landed = true →
    x = t.session.ledger.logical
  no_panic : ∀ x, ev ≠ .moved .panicked x

/-- The invariant of a travel is that of the life on one disk. -/
def Travel.Tracks (t : Travel T S) : Prop := Entry.Tracks t.backing.stored t.session

/-! ## The step lemmas -/

section Steps

variable {b b' : Backing T S} {e : BackedEntry T b.Disk b.Coder} {s : S} {led : Ledger T}

/-- What an entry holds is what was written last. -/
theorem holds_written
    (h : Tracks b.stored ({ hold := .owned e, world := s, ledger := led } : Session T b.Disk b.Coder S))
    {v : T} (hv : e.Holds b.stored v) : led.written = some v := by
  obtain ⟨hdisk, -, hval⟩ := h
  rcases hv with hcell | ⟨-, hst⟩
  · exact hval v hcell
  · have hdisk : DiskTracks led (e.storedValue b.stored) := hdisk
    rw [hst] at hdisk
    exact hdisk.value

/-- A disk whose last write landed has the logical value. -/
theorem landed_logical
    (h : Tracks b.stored ({ hold := .owned e, world := s, ledger := led } : Session T b.Disk b.Coder S))
    (hlanded : led.landed = true) : e.storedValue b.stored = led.logical :=
  h.coherent.disk_eq hlanded rfl

/-- The end of a move: the entry on the new disk with the value of the old, or nothing but the old disk. -/
theorem arrive_tracks (s' : S)
    (h : Tracks b.stored ({ hold := .owned e, world := s, ledger := led } : Session T b.Disk b.Coder S))
    {r : Option (BackedEntry T b'.Disk b'.Coder)} {d : b.Disk}
    (hbehind : b.stored e.coder d = e.storedValue b.stored)
    (hcarried : ∀ other, r = some other →
      ∃ v, e.Holds b.stored v ∧ other.value = some v ∧ other.storedValue b'.stored = some v) :
    (arrive b b' r d e.coder s' led).Tracks := by
  rcases r with _ | other
  · obtain ⟨hdisk, hed, -⟩ := h
    refine ⟨?_, hed⟩
    show DiskTracks led (b.stored e.coder d)
    rw [hbehind]
    exact hdisk
  · obtain ⟨v, hheld, hcell, hst⟩ := hcarried other rfl
    have hwritten := holds_written h hheld
    obtain ⟨-, hed, -⟩ := h
    refine ⟨Or.inl (hst.trans hwritten.symm), hed, ?_⟩
    intro w hw
    exact hwritten.trans (hcell.symm.trans hw)

/-- A move that keeps the value. -/
theorem moved_keeps (s' : S)
    (h : Tracks b.stored ({ hold := .owned e, world := s, ledger := led } : Session T b.Disk b.Coder S))
    {r : Exec (Except (b.Error ⊕ b'.Error) (BackedEntry T b'.Disk b'.Coder))} {d : b.Disk}
    (hmoved : Moved b.stored b'.stored e (arrived r) d) (hret : ∃ x, r = .ok x) :
    (arrive b b' (arrived r) d e.coder s' led).Tracks ∧
      Keeps ⟨b, { hold := .owned e, world := s, ledger := led }⟩
        (.moved (verdict r) (b.stored e.coder d)) (arrive b b' (arrived r) d e.coder s' led) := by
  have htracks := arrive_tracks s' h hmoved.behind hmoved.carried
  refine ⟨htracks, htracks.coherent, ?_, ?_⟩
  · rintro v x (hev | ⟨l, f, hev⟩) hlanded
    · cases hev
      rw [hmoved.behind]
      exact landed_logical h hlanded
    · cases hev
  · intro x hev
    obtain ⟨y, rfl⟩ := hret
    rcases y with err | other <;> cases hev

/-- An exchange of the coder. -/
theorem recoded_keeps {C' : Type} (E' : Type) {io' : Medium T b.Disk C' S E'}
    {stored' : C' → b.Disk → Option T} (lawful' : Lawful io' stored') {e' : BackedEntry T b.Disk C'}
    (hvalue : e'.value = e.value)
    (hst : e'.storedValue stored' = e.storedValue b.stored)
    (h : Tracks b.stored ({ hold := .owned e, world := s, ledger := led } : Session T b.Disk b.Coder S)) :
    Tracks stored' ({ hold := .owned e', world := s, ledger := led } : Session T b.Disk C' S) ∧
      Keeps ⟨b, { hold := .owned e, world := s, ledger := led }⟩ .recoded
        ⟨⟨b.Disk, C', E', io', stored', lawful'⟩, { hold := .owned e', world := s, ledger := led }⟩ := by
  have htracks : Tracks stored'
      ({ hold := .owned e', world := s, ledger := led } : Session T b.Disk C' S) := by
    obtain ⟨hdisk, hed, hval⟩ := h
    refine ⟨?_, hed, ?_⟩
    · show DiskTracks led (e'.storedValue stored')
      rw [hst]
      exact hdisk
    · intro v hv
      exact hval v (hvalue.symm.trans hv)
  refine ⟨htracks, htracks.coherent, ?_, ?_⟩
  · rintro v x (hev | ⟨l, f, hev⟩) <;> cases hev
  · intro x hev
    cases hev

/-- The end of a `from_sync`. -/
theorem fromSync_keeps (s' : S)
    (h : Tracks b.stored ({ hold := .owned e, world := s, ledger := led } : Session T b.Disk b.Coder S))
    {disk : b'.Disk} {coder : b'.Coder} {left : BackedEntry T b.Disk b.Coder}
    {r : Exec (Except (b.Error ⊕ b'.Error) (BackedEntry T b'.Disk b'.Coder))}
    (hbehind : b.stored e.coder left.disk = e.storedValue b.stored)
    (hother : ∀ other, arrived r = some other →
      (∃ v, e.Holds b.stored v ∧ left.value = some v ∧ other.value = some v ∧
        other.storedValue b'.stored = some v) ∨
      left.value = none ∧ other = { value := none, disk, coder })
    {ev : Event T} (hev : ev = .fromSync (verdict r) (b.stored e.coder left.disk) left.value.isSome
      (b'.stored coder disk)) {t t' : Travel T S}
    (ht : t = ⟨b, { hold := .owned e, world := s, ledger := led }⟩)
    (ht' : t' = arrive b b' (arrived r) left.disk e.coder s' led) :
    (Keeps t ev t' ↔ Carried t ev t') ∧ (Carried t ev t' → t'.Tracks) := by
  -- of the three promises only the first depends on what was carried
  have hkeeps : Coherent t'.backing.stored t'.session → Keeps t ev t' := by
    intro hcoherent
    refine ⟨hcoherent, ?_, ?_⟩
    · rintro v x (hmoved | ⟨l, f, hfrom⟩) hlanded
      · rw [hev] at hmoved
        cases hmoved
      · rw [hev] at hfrom
        cases hfrom
        rw [hbehind, ht]
        rw [ht] at hlanded
        exact landed_logical h hlanded
    · intro x hmoved
      rw [hev] at hmoved
      cases hmoved
  rcases harr : arrived r with _ | other
  · have htracks : t'.Tracks := by
      rw [ht', harr]
      exact arrive_tracks s' h hbehind (fun other hnone => by cases hnone)
    have hcarried : Carried t ev t' := by
      rw [hev]
      rcases r with p | err | other
      · trivial
      · trivial
      · cases harr
    exact ⟨⟨fun _ => hcarried, fun _ => hkeeps htracks.coherent⟩, fun _ => htracks⟩
  · obtain rfl : r = .ok (.ok other) := by
      rcases r with p | err | x
      · cases harr
      · cases harr
      · cases harr
        rfl
    rcases hother other rfl with ⟨v, hheld, hloaded, hcell, hst⟩ | ⟨hnone, rfl⟩
    · have htracks : t'.Tracks := by
        rw [ht', harr]
        exact arrive_tracks s' h hbehind (fun x hx => by cases hx; exact ⟨v, hheld, hcell, hst⟩)
      have hcarried : Carried t ev t' := by
        rw [hev, hloaded]
        trivial
      exact ⟨⟨fun _ => hcarried, fun _ => hkeeps htracks.coherent⟩, fun _ => htracks⟩
    · -- the new entry has no value, and the disk what it had
      have hiff : Carried t ev t' ↔ b'.stored coder disk = led.logical := by
        rw [hev, hnone, ht]
        exact Iff.rfl
      have hed : led.edits = [] := h.2.1
      have htracks : b'.stored coder disk = led.logical → t'.Tracks := by
        intro hfound
        rw [ht', harr]
        refine ⟨Or.inl ?_, hed, fun v hv => by cases hv⟩
        rw [Ledger.logical_of_nil hed] at hfound
        exact hfound
      refine ⟨⟨fun hk => ?_, fun hc => hkeeps (htracks (hiff.mp hc)).coherent⟩,
        fun hc => htracks (hiff.mp hc)⟩
      rw [ht', harr] at hk
      rw [hiff]
      exact hk.coherent.disk_eq rfl rfl

end Steps

/-- **A step from the invariant keeps its promise exactly if it carries the value, and then it keeps the
invariant.** -/
theorem goes_keeps {t t' : Travel T S} {ev : Event T} (h : t.Tracks) (hs : Goes t ev t') :
    (Keeps t ev t' ↔ Carried t ev t') ∧ (Carried t ev t' → t'.Tracks) := by
  cases hs with
  | @call b st st' call answer hcall =>
      have htracks := (call_tracks b.lawful h hcall).1
      refine ⟨⟨fun _ => trivial, fun _ => ⟨htracks.coherent, ?_, ?_⟩⟩, fun _ => htracks⟩
      · rintro v x (hev | ⟨l, f, hev⟩) <;> cases hev
      · intro x hev
        cases hev
  | @changeBacking b b' e s s' led disk coder r d hmove =>
      have hmoved := changeBacking_moved b.lawful b'.lawful hmove
      obtain ⟨htracks, hkeeps⟩ := moved_keeps s' h hmoved ⟨r, rfl⟩
      exact ⟨⟨fun _ => trivial, fun _ => hkeeps⟩, fun _ => htracks⟩
  | @aChangeBacking b b' e s s' led disk coder r d hmove =>
      rw [aChangeBacking_eq] at hmove
      have hmoved := changeBacking_moved b.lawful b'.lawful hmove
      obtain ⟨htracks, hkeeps⟩ := moved_keeps s' h hmoved ⟨r, rfl⟩
      exact ⟨⟨fun _ => trivial, fun _ => hkeeps⟩, fun _ => htracks⟩
  | @encoderInto b e s led C' E' io' stored' lawful' into hsame =>
      have hst : (e.encoderInto into).storedValue stored' = e.storedValue b.stored := hsame e.coder e.disk
      obtain ⟨htracks, hkeeps⟩ := recoded_keeps E' lawful' rfl hst h
      exact ⟨⟨fun _ => trivial, fun _ => hkeeps⟩, fun _ => htracks⟩
  | @encoderTryInto b e s led C' E' F io' stored' e' lawful' tryInto hsame hconv =>
      have hspec : e'.value = e.value ∧ e'.storedValue stored' = e.storedValue b.stored := by
        unfold BackedEntry.encoderTryInto at hconv
        rcases hc : tryInto e.coder with err | c'
        · simp [hc] at hconv
        · simp only [hc, Except.ok.injEq] at hconv
          subst hconv
          exact ⟨rfl, hsame e.coder c' e.disk hc⟩
      obtain ⟨htracks, hkeeps⟩ := recoded_keeps E' lawful' hspec.1 hspec.2 h
      exact ⟨⟨fun _ => trivial, fun _ => hkeeps⟩, fun _ => htracks⟩
  | @encoderTryIntoFails b e s led C' F err tryInto hconv =>
      have hmoved : Moved b.stored b.stored e (arrived (.ok (.error ()) : Exec (Except Unit _))) e.disk :=
        ⟨rfl, fun other hother => by cases hother⟩
      have htracks := arrive_tracks s h hmoved.behind hmoved.carried
      refine ⟨⟨fun _ => trivial, fun _ => ⟨htracks.coherent, ?_, ?_⟩⟩, fun _ => htracks⟩
      · rintro v x (hev | ⟨l, f, hev⟩) hlanded
        · cases hev
          exact landed_logical h hlanded
        · cases hev
      · intro x hev
        cases hev
  | @toSync b b' e s s' led disk coder blockingFn hcalls r d hmove =>
      obtain ⟨hmoved, hret⟩ := toSync_moved b.lawful b'.lawful hcalls hmove
      obtain ⟨htracks, hkeeps⟩ := moved_keeps s' h hmoved hret
      exact ⟨⟨fun _ => trivial, fun _ => hkeeps⟩, fun _ => htracks⟩
  | @fromSync b b' e s s' led disk coder handling r left hmove =>
      obtain ⟨hbehind, hother⟩ := fromSync_moved b.lawful b'.lawful hmove
      exact fromSync_keeps s' h hbehind hother rfl rfl rfl

/-! ## Every run -/

/-- **A travelling entry.**  In every run of calls on an entry and of moves to other disks and coders, any of
them failing, cell and disk agree with the ledger after every step, each disk left still holds the value and
no move panics, exactly if every `from_sync` that arrives has loaded the value, or finds it on its new disk.
-/
theorem travel_coherent (b : Backing T S) (disk : b.Disk) (coder : b.Coder) (world : S)
    (tr : List (Event T × Travel T S)) (htr : IsTrace Goes (Travel.start b disk coder world) tr) :
    StepsMeet Keeps (Travel.start b disk coder world) tr ↔
      StepsMeet Carried (Travel.start b disk coder world) tr := by
  have hstart : (Travel.start b disk coder world).Tracks := tracks_start disk coder world
  refine stepsMeet_iff (I := Travel.Tracks) ?_ ?_ hstart htr
  · intro t ev t' h hs hc
    exact (goes_keeps h hs).2 hc
  · intro t ev t' h hs
    exact (goes_keeps h hs).1

end Life

/-- An in-memory disk with faults on schedule, as a backing. -/
def scriptedBacking : Backing Nat (List Bool) where
  Disk := Option Nat
  Coder := Unit
  Error := Unit
  io := scripted Nat
  stored := fun _ d => d
  lawful := scripted_lawful Nat

/-- An entry of that backing, whose last write landed with the value `1`. -/
def atOne (value disk : Option Nat) : Travel Nat (List Bool) where
  backing := scriptedBacking
  session :=
    { hold := .owned { value, disk, coder := () }
      world := []
      ledger := { written := some 1, edits := [], landed := true } }

/-- To another disk, out of memory, and to a third one by a blocking function that loads the value. -/
def loadedTravel : List (Event Nat × Travel Nat (List Bool)) :=
  [(.moved .arrived (some 1), atOne (some 1) (some 1)), (.called .unload, atOne none (some 1)),
    (.fromSync .arrived (some 1) true none, atOne (some 1) (some 1))]

/-- Out of memory again, and on to an empty disk by a blocking function that does not. -/
def unreadTravel : List (Event Nat × Travel Nat (List Bool)) :=
  loadedTravel ++ [(.called .unload, atOne none (some 1)),
    (.fromSync .arrived (some 1) false none, atOne none none)]

theorem isTrace_unreadTravel :
    IsTrace Goes (Travel.start scriptedBacking (some 1) () []) unreadTravel := by
  have hmove := @Goes.changeBacking Nat (List Bool) scriptedBacking scriptedBacking
    { value := none, disk := some 1, coder := () } [] [] { written := some 1, edits := [], landed := true }
    none () _ _ rfl
  have hread := @Goes.fromSync Nat (List Bool) scriptedBacking scriptedBacking
    { value := none, disk := some 1, coder := () } [] [] { written := some 1, edits := [], landed := true }
    none () (.call id) _ _ rfl
  have hunread := @Goes.fromSync Nat (List Bool) scriptedBacking scriptedBacking
    { value := none, disk := some 1, coder := () } [] [] { written := some 1, edits := [], landed := true }
    none () (.ignore (.ok ())) _ _ rfl
  exact ⟨hmove, .call rfl, hread, .call rfl, hunread, trivial⟩

theorem travel_coherent_unread :
    StepsMeet Keeps (Travel.start scriptedBacking (some 1) () []) loadedTravel ∧
      ¬StepsMeet Keeps (Travel.start scriptedBacking (some 1) () []) unreadTravel := by
  obtain ⟨hmove, hunload, hread, -⟩ := isTrace_unreadTravel
  constructor
  · apply (travel_coherent scriptedBacking (some 1) () [] loadedTravel
      ⟨hmove, hunload, hread, trivial⟩).mpr
    exact ⟨trivial, trivial, trivial, trivial⟩
  · intro h
    have hcarried := (travel_coherent scriptedBacking (some 1) () [] unreadTravel
      isTrace_unreadTravel).mp h
    -- the last disk was empty
    have hlost : none = some 1 := hcarried.2.2.2.2.1
    cases hlost

end BackedData.Entry
