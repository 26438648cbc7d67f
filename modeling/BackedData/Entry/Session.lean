/-
# BackedData.Entry.Session — one entry over a whole life: cell, disk and handle never disagree

A `BackedEntry` is used by its owner, or through one `BackedEntryMut` at a time, until it is consumed by
`take` or the drop of a handle panics.  `exec` is one call on it, any of whose disk accesses may fail.

What the entry is for is a `Ledger`, kept from the calls and their answers alone: the value of the last
write that reached the disk, and the edits made since through a live handle.  Its `logical` value is
what a caller believes the entry to hold.  `session_coherent` says that the belief is right in every
state of every run.
-/
import BackedData.Entry.Spec
import BackedData.Logic.Trace

namespace BackedData.Entry

open Logic.Outcome
open Logic.Trace

set_option autoImplicit false

variable {T D C S E : Type}

/-! ## Calls on an entry -/

/-- Who holds the entry. -/
inductive Hold (T D C : Type) where
  | owned (entry : BackedEntry T D C)
  | borrowed (handle : BackedEntryMut T D C)
  | taken (disk : D) (coder : C)
  | panicked (entry : BackedEntry T D C)

/-- The calls; `derefMut f` is `deref_mut` with the edit `f` made through it, `drop` that of a handle. -/
inductive Call (T : Type) where
  | write (newValue : T)
  | writeUnload (newValue : T)
  | update
  | load
  | unload
  | take
  | mutHandle
  | deref
  | derefMut (f : T → T)
  | flush
  | drop

/-- What a call comes back with: a panic, an error, or nothing or a value. -/
abbrev Answer (T E : Type) := Exec (Except E (Option T))

/-- One call.  The owner's calls need the entry unborrowed, the handle's a live handle. -/
def exec (io : Medium T D C S E) : Call T → Hold T D C → S → Option (Answer T E × Hold T D C × S)
  | .write newValue, .owned e, s =>
      match e.write io newValue s with
      | (r, e, s) => some (.ok (r.map fun _ => none), .owned e, s)
  | .writeUnload newValue, .owned e, s =>
      match e.writeUnload io newValue s with
      | (r, e, s) => some (.ok (r.map fun _ => none), .owned e, s)
  | .update, .owned e, s =>
      match e.update io s with
      | (r, e, s) => some (.ok (r.map fun _ => none), .owned e, s)
  | .load, .owned e, s =>
      match e.load io s with
      | (r, e, s) => some (.ok (r.map some), .owned e, s)
  | .unload, .owned e, s => some (.ok (.ok none), .owned e.unload, s)
  | .take, .owned e, s =>
      match e.take io s with
      | (r, d, s) => some (.ok (r.map some), .taken d e.coder, s)
  | .mutHandle, .owned e, s =>
      match BackedEntryMut.mutHandle io e s with
      | (.error (err, e), s) => some (.ok (.error err), .owned e, s)
      | (.ok h, s) => some (.ok (.ok none), .borrowed h, s)
  | .deref, .borrowed h, s =>
      match h.deref with
      | .error p => some (.error p, .panicked h.entry, s)
      | .ok v => some (.ok (.ok (some v)), .borrowed h, s)
  | .derefMut f, .borrowed h, s =>
      match h.derefMut f with
      | .error p => some (.error p, .panicked h.entry, s)
      | .ok h => some (.ok (.ok none), .borrowed h, s)
  | .flush, .borrowed h, s =>
      match h.flush io s with
      | (r, h, s) => some (.ok (r.map fun _ => none), .borrowed h, s)
  | .drop, .borrowed h, s =>
      match h.drop io s with
      | (.error p, e, s) => some (.error p, .panicked e, s)
      | (.ok (), e, s) => some (.ok (.ok none), .owned e, s)
  | _, _, _ => none

-- Its equations are made here, and not by each of the proofs that rewrite with them.
attribute [local simp] exec

namespace Hold

/-- What the cell holds. -/
def cell : Hold T D C → Option T
  | .owned e => e.value
  | .borrowed h => h.entry.value
  | .taken _ _ => none
  | .panicked e => e.value

/-- A live handle has edits that are not flushed. -/
def modified : Hold T D C → Bool
  | .borrowed h => h.modified
  | _ => false

/-- What the disk decodes to. -/
def onDisk (stored : C → D → Option T) : Hold T D C → Option T
  | .owned e => e.storedValue stored
  | .borrowed h => h.entry.storedValue stored
  | .taken d c => stored c d
  | .panicked e => e.storedValue stored

end Hold

/-! ## The ledger -/

/-- **`Ledger`** — what the calls and their answers say: the value of the last write that reached the
disk (before the first one, what the initial content decodes to), the edits made since through the
live handle, and whether the last attempt to write succeeded. -/
structure Ledger (T : Type) where
  written : Option T
  edits : List (T → T)
  landed : Bool

/-- The last written value, overlaid by the edits. -/
def Ledger.logical (led : Ledger T) : Option T :=
  led.written.map fun v => led.edits.foldl (fun v f => f v) v

/-- The value a call sets out to write to the disk, if it does. -/
def Call.writes : Call T → Hold T D C → Option T
  | .write newValue, _ => some newValue
  | .writeUnload newValue, _ => some newValue
  | .update, hold => hold.cell
  | .flush, hold => if hold.modified then hold.cell else none
  | .drop, hold => if hold.modified then hold.cell else none
  | _, _ => none

/-- The ledger after a call. -/
def Ledger.record (led : Ledger T) (call : Call T) (hold : Hold T D C) (answer : Answer T E) :
    Ledger T :=
  match call.writes hold, answer with
  | some v, .ok (.ok _) => { written := some v, edits := [], landed := true }
  | some _, _ => { led with landed := false }
  | none, .ok (.ok _) =>
      match call with
      | .derefMut f => { led with edits := led.edits ++ [f] }
      | _ => led
  | none, _ => led

/-- A session: who holds the entry, the world around the disk, and the ledger. -/
structure Session (T D C S : Type) where
  hold : Hold T D C
  world : S
  ledger : Ledger T

/-- A new entry on a disk that may already hold something. -/
def Session.start (stored : C → D → Option T) (disk : D) (coder : C) (world : S) :
    Session T D C S where
  hold := .owned (.new disk coder)
  world := world
  ledger := { written := stored coder disk, edits := [], landed := true }

/-- One call in a session. -/
def Session.call (io : Medium T D C S E) (st : Session T D C S) (call : Call T) :
    Option (Answer T E × Session T D C S) :=
  match exec io call st.hold st.world with
  | none => none
  | some (answer, hold, world) =>
      some (answer, { hold, world, ledger := st.ledger.record call st.hold answer })

/-! ## What is promised -/

/-- **`Coherent stored st`** — a cached value is the logical one; the disk holds the logical value
whenever the last write succeeded and no edit is waiting in a handle. -/
structure Coherent (stored : C → D → Option T) (st : Session T D C S) : Prop where
  cell_eq : ∀ v, st.hold.cell = some v → st.ledger.logical = some v
  disk_eq : st.ledger.landed = true → st.hold.modified = false →
    st.hold.onDisk stored = st.ledger.logical

/-- **`Faithful stored st l st'`** — one call keeps its promises: only the drop of a handle panics; a
value returned is the logical value; a flush that fails keeps the edited value and the flag, and one
that succeeds on a modified handle puts the logical value on the disk. -/
structure Faithful (stored : C → D → Option T) (st : Session T D C S) (l : Call T × Answer T E)
    (st' : Session T D C S) : Prop where
  no_panic : ∀ p, l.2 = .error p → l.1 = .drop
  value_eq : ∀ v, l.2 = .ok (.ok (some v)) → st.ledger.logical = some v
  flush_error : ∀ err, l.1 = .flush → l.2 = .ok (.error err) →
    st.hold.modified = true ∧ st'.hold.modified = true ∧ st'.hold.cell = st.hold.cell ∧
      st'.ledger.logical = st.ledger.logical
  flush_ok : ∀ r, l.1 = .flush ∨ l.1 = .drop → l.2 = .ok (.ok r) → st.hold.modified = true →
    st'.hold.onDisk stored = st.ledger.logical

/-! ## The invariant -/

/-- The disk holds the last written value, unless a later attempt to write destroyed it. -/
def DiskTracks (led : Ledger T) (onDisk : Option T) : Prop :=
  onDisk = led.written ∨ onDisk = none ∧ led.landed = false

/-- **The invariant**, by who holds the entry.  Edits exist only while a handle is modified, and a
handle always has a value. -/
def Tracks (stored : C → D → Option T) (st : Session T D C S) : Prop :=
  DiskTracks st.ledger (st.hold.onDisk stored) ∧
  match st.hold with
  | .owned e => st.ledger.edits = [] ∧ ∀ v, e.value = some v → st.ledger.written = some v
  | .borrowed h => (h.modified = false → st.ledger.edits = []) ∧
      ∃ v, h.entry.value = some v ∧ st.ledger.logical = some v
  | .taken _ _ => st.ledger.edits = []
  | .panicked e => st.ledger.landed = false ∧
      ∀ v, e.value = some v → st.ledger.logical = some v

variable {stored : C → D → Option T}

@[simp] theorem Ledger.logical_nil (w : Option T) (b : Bool) :
    Ledger.logical { written := w, edits := [], landed := b } = w := by
  cases w <;> rfl

theorem Ledger.logical_of_nil {led : Ledger T} (h : led.edits = []) : led.logical = led.written := by
  obtain ⟨w, edits, b⟩ := led
  obtain rfl : edits = [] := h
  exact Ledger.logical_nil w b

/-- One more edit on top of the logical value. -/
theorem Ledger.logical_edit {led : Ledger T} {v : T} (h : led.logical = some v) (f : T → T) :
    Ledger.logical { led with edits := led.edits ++ [f] } = some (f v) := by
  unfold Ledger.logical at h ⊢
  obtain ⟨w, hw, rfl⟩ := Option.map_eq_some_iff.mp h
  simp only [hw, Option.map_some, List.foldl_append, List.foldl_cons, List.foldl_nil]

/-- The ledger of a failed write tracks the disk that the failure left. -/
theorem DiskTracks.failed {led : Ledger T} {before after : Option T} (h : DiskTracks led before)
    (hafter : after = before ∨ after = none) :
    DiskTracks { led with landed := false } after := by
  rcases hafter with rfl | rfl
  · rcases h with h | ⟨h, -⟩
    · exact Or.inl h
    · exact Or.inr ⟨h, rfl⟩
  · exact Or.inr ⟨rfl, rfl⟩

/-- What the disk decodes to is the last written value. -/
theorem DiskTracks.value {led : Ledger T} {v : T} (h : DiskTracks led (some v)) :
    led.written = some v := by
  rcases h with h | ⟨h, -⟩
  · exact h.symm
  · cases h

/-- The invariant gives the promise. -/
theorem Tracks.coherent {st : Session T D C S} (h : Tracks stored st) : Coherent stored st := by
  obtain ⟨hold, world, led⟩ := st
  obtain ⟨hdisk, hhold⟩ := h
  have hlanded : led.landed = true → hold.onDisk stored = led.written := by
    intro hl
    rcases hdisk with hd | ⟨-, hf⟩
    · exact hd
    · exact absurd hl (by rw [hf]; decide)
  cases hold with
  | owned e =>
      obtain ⟨hed, hval⟩ := hhold
      refine ⟨fun v hv => ?_, fun hl _ => ?_⟩
      · exact (Ledger.logical_of_nil hed).trans (hval v hv)
      · exact (hlanded hl).trans (Ledger.logical_of_nil hed).symm
  | borrowed h =>
      obtain ⟨hed, v, hv, hlog⟩ := hhold
      refine ⟨fun w hw => ?_, fun hl hm => ?_⟩
      · exact hlog.trans (hv.symm.trans hw)
      · exact (hlanded hl).trans (Ledger.logical_of_nil (hed hm)).symm
  | taken d c =>
      refine ⟨fun v hv => (by cases hv), fun hl _ => ?_⟩
      exact (hlanded hl).trans (Ledger.logical_of_nil hhold).symm
  | panicked e =>
      obtain ⟨hf, hval⟩ := hhold
      exact ⟨hval, fun hl => absurd hl (by rw [hf]; decide)⟩

/-- A session starts in the invariant. -/
theorem tracks_start (disk : D) (coder : C) (world : S) :
    Tracks stored (Session.start stored disk coder world) :=
  ⟨Or.inl rfl, rfl, fun _ hv => by cases hv⟩

/-! ## The ledger after a call -/

section Record

variable {call : Call T} {hold : Hold T D C} {led : Ledger T} {v : T}

/-- A write that reached the disk. -/
theorem Ledger.record_landed (h : call.writes hold = some v) (r : Option T) :
    led.record call hold (.ok (.ok r) : Answer T E) =
      { written := some v, edits := [], landed := true } := by
  unfold Ledger.record
  rw [h]

/-- A write that did not: returned as an error, or as the panic of a drop. -/
theorem Ledger.record_failed (h : call.writes hold = some v) {answer : Answer T E}
    (ha : ∀ r, answer ≠ .ok (.ok r)) :
    led.record call hold answer = { led with landed := false } := by
  unfold Ledger.record
  rw [h]
  rcases answer with p | r | r
  · rfl
  · rfl
  · exact absurd rfl (ha r)

/-- A call that writes nothing and edits nothing. -/
theorem Ledger.record_idle (h : call.writes hold = none) (hedit : ∀ f, call ≠ .derefMut f)
    (answer : Answer T E) : led.record call hold answer = led := by
  unfold Ledger.record
  rw [h]
  rcases answer with p | r | r
  · rfl
  · rfl
  · cases call with
    | derefMut f => exact absurd rfl (hedit f)
    | _ => rfl

end Record

section Calls

variable {io : Medium T D C S E} {call : Call T} {answer : Answer T E} {st st' : Session T D C S}
  {e e' : BackedEntry T D C} {world world' : S} {led : Ledger T}

/-- The owner's entry after a write that landed. -/
theorem tracks_landed {v : T} (hst : e.storedValue stored = some v)
    (hval : e.value = none ∨ e.value = some v) :
    Tracks stored
      { hold := .owned e, world, ledger := { written := some v, edits := [], landed := true } } := by
  refine ⟨Or.inl hst, rfl, fun w hw => ?_⟩
  rcases hval with h | h
  · cases h.symm.trans hw
  · exact h.symm.trans hw

/-- The owner's entry after a write that failed: the cell is empty, or still what it was. -/
theorem tracks_failed (h : Tracks stored { hold := .owned e, world, ledger := led })
    (hst : e'.storedValue stored = e.storedValue stored ∨ e'.storedValue stored = none)
    (hval : e'.value = none ∨ e'.value = e.value) :
    Tracks stored { hold := .owned e', world := world', ledger := { led with landed := false } } := by
  obtain ⟨hdisk, hed, hold⟩ := h
  refine ⟨hdisk.failed hst, hed, fun w hw => ?_⟩
  rcases hval with h | h
  · cases h.symm.trans hw
  · exact hold w (h.symm.trans hw)

/-- The owner's entry after a read: the disk is as it was, and what is cached was cached or stored. -/
theorem tracks_read (h : Tracks stored { hold := .owned e, world, ledger := led })
    (hst : e'.storedValue stored = e.storedValue stored)
    (hval : ∀ v, e'.value = some v → led.written = some v) :
    Tracks stored { hold := .owned e', world := world', ledger := led } := by
  obtain ⟨hdisk, hed, -⟩ := h
  refine ⟨?_, hed, hval⟩
  show DiskTracks led (e'.storedValue stored)
  rw [hst]
  exact hdisk

/-- A value that the owner's entry has cached or stored is the logical value. -/
theorem Tracks.written_eq (h : Tracks stored { hold := .owned e, world, ledger := led }) {v : T}
    (hfrom : e.value = some v ∨ e.value = none ∧ e.storedValue stored = some v) :
    led.written = some v := by
  obtain ⟨hdisk, -, hval⟩ := h
  rcases hfrom with hc | ⟨-, hd⟩
  · exact hval v hc
  · have hdisk' : DiskTracks led (e.storedValue stored) := hdisk
    rw [hd] at hdisk'
    exact hdisk'.value

/-! ## The owner's calls -/

/-- A call of the owner is no call of a handle, and does not panic. -/
theorem Faithful.of_owner (hflush : call ≠ .flush) (hdrop : call ≠ .drop) {r : Except E (Option T)}
    (hval : ∀ v, r = .ok (some v) → st.ledger.logical = some v) :
    Faithful stored st (call, .ok r) st' where
  no_panic p h := by cases h
  value_eq v h := hval v (by injection h)
  flush_error err h _ := absurd h hflush
  flush_ok r h _ _ := absurd h (fun h => h.elim hflush hdrop)

/-- `write`. -/
theorem owned_write (hio : Lawful io stored) (v : T)
    (h : Tracks stored { hold := .owned e, world, ledger := led })
    (hs : Session.call io { hold := .owned e, world, ledger := led } (.write v) = some (answer, st')) :
    Tracks stored st' ∧
      Faithful stored { hold := .owned e, world, ledger := led } (.write v, answer) st' := by
  unfold Session.call at hs
  rcases hw : e.write io v world with ⟨r | r, e', s'⟩
  · simp only [exec, hw, Option.some.injEq, Prod.mk.injEq] at hs
    obtain ⟨rfl, rfl⟩ := hs
    obtain ⟨hv, hst⟩ := hio.write_error hw
    exact ⟨tracks_failed h hst (Or.inr hv), .of_owner (by nofun) (by nofun) (by rintro v ⟨⟩)⟩
  · simp only [exec, hw, Option.some.injEq, Prod.mk.injEq] at hs
    obtain ⟨rfl, rfl⟩ := hs
    obtain ⟨hv, hst⟩ := hio.write_ok hw
    exact ⟨tracks_landed hst (Or.inr hv), .of_owner (by nofun) (by nofun) (by rintro v ⟨⟩)⟩

/-- `write_unload`. -/
theorem owned_writeUnload (hio : Lawful io stored) (v : T)
    (h : Tracks stored { hold := .owned e, world, ledger := led })
    (hs : Session.call io { hold := .owned e, world, ledger := led } (.writeUnload v) =
      some (answer, st')) :
    Tracks stored st' ∧
      Faithful stored { hold := .owned e, world, ledger := led } (.writeUnload v, answer) st' := by
  unfold Session.call at hs
  rcases hw : e.writeUnload io v world with ⟨r | r, e', s'⟩
  · simp only [exec, hw, Option.some.injEq, Prod.mk.injEq] at hs
    obtain ⟨rfl, rfl⟩ := hs
    obtain ⟨hv, hst⟩ := hio.writeUnload_error hw
    exact ⟨tracks_failed h hst (Or.inl hv), .of_owner (by nofun) (by nofun) (by rintro v ⟨⟩)⟩
  · simp only [exec, hw, Option.some.injEq, Prod.mk.injEq] at hs
    obtain ⟨rfl, rfl⟩ := hs
    obtain ⟨hv, hst⟩ := hio.writeUnload_ok hw
    exact ⟨tracks_landed hst (Or.inl hv), .of_owner (by nofun) (by nofun) (by rintro v ⟨⟩)⟩

/-- `update`: with nothing cached it does not touch the disk. -/
theorem owned_update (hio : Lawful io stored)
    (h : Tracks stored { hold := .owned e, world, ledger := led })
    (hs : Session.call io { hold := .owned e, world, ledger := led } .update = some (answer, st')) :
    Tracks stored st' ∧
      Faithful stored { hold := .owned e, world, ledger := led } (.update, answer) st' := by
  unfold Session.call at hs
  have hwrites : Call.update.writes (.owned e) = e.value := rfl
  rcases hv : e.value with _ | x
  · have hw : e.update io world = (.ok (), e, world) := by
      unfold BackedEntry.update
      rw [hv]
    simp only [exec, hw, Option.some.injEq, Prod.mk.injEq] at hs
    obtain ⟨rfl, rfl⟩ := hs
    refine ⟨?_, .of_owner (by nofun) (by nofun) (by rintro v ⟨⟩)⟩
    rw [Ledger.record_idle (hwrites.trans hv) (by nofun)]
    exact h
  · rcases hw : e.update io world with ⟨r | r, e', s'⟩
    · simp only [exec, hw, Option.some.injEq, Prod.mk.injEq] at hs
      obtain ⟨rfl, rfl⟩ := hs
      obtain ⟨hv', hst⟩ := hio.update_error hv hw
      refine ⟨?_, .of_owner (by nofun) (by nofun) (by rintro v ⟨⟩)⟩
      rw [Ledger.record_failed (hwrites.trans hv) (by nofun)]
      exact tracks_failed h hst (Or.inr (hv'.trans hv.symm))
    · simp only [exec, hw, Option.some.injEq, Prod.mk.injEq] at hs
      obtain ⟨rfl, rfl⟩ := hs
      obtain ⟨hv', hst⟩ := hio.update_ok hv hw
      refine ⟨?_, .of_owner (by nofun) (by nofun) (by rintro v ⟨⟩)⟩
      show Tracks stored { hold := _, world := _, ledger := led.record _ _ (.ok (.ok none)) }
      rw [Ledger.record_landed (hwrites.trans hv)]
      exact tracks_landed hst (Or.inr hv')

/-- `load`. -/
theorem owned_load (hio : Lawful io stored)
    (h : Tracks stored { hold := .owned e, world, ledger := led })
    (hs : Session.call io { hold := .owned e, world, ledger := led } .load = some (answer, st')) :
    Tracks stored st' ∧
      Faithful stored { hold := .owned e, world, ledger := led } (.load, answer) st' := by
  unfold Session.call at hs
  rcases hw : e.load io world with ⟨r | x, e', s'⟩
  · simp only [exec, hw, Option.some.injEq, Prod.mk.injEq] at hs
    obtain ⟨rfl, rfl⟩ := hs
    obtain ⟨-, hv, hst⟩ := hio.load_error hw
    refine ⟨?_, .of_owner (by nofun) (by nofun) (by rintro v ⟨⟩)⟩
    exact tracks_read h hst fun v hv' => by cases hv.symm.trans hv'
  · simp only [exec, hw, Option.some.injEq, Prod.mk.injEq] at hs
    obtain ⟨rfl, rfl⟩ := hs
    obtain ⟨hv, hst, hfrom⟩ := hio.load_ok hw
    have hwritten : led.written = some x := h.written_eq hfrom
    refine ⟨?_, .of_owner (by nofun) (by nofun) ?_⟩
    · refine tracks_read h hst fun v hv' => ?_
      exact hwritten.trans (hv.symm.trans hv')
    · rintro v ⟨⟩
      exact (Ledger.logical_of_nil h.2.1).trans hwritten

/-- `take`. -/
theorem owned_take (hio : Lawful io stored)
    (h : Tracks stored { hold := .owned e, world, ledger := led })
    (hs : Session.call io { hold := .owned e, world, ledger := led } .take = some (answer, st')) :
    Tracks stored st' ∧
      Faithful stored { hold := .owned e, world, ledger := led } (.take, answer) st' := by
  unfold Session.call at hs
  rcases hw : e.take io world with ⟨r, d, s'⟩
  simp only [exec, hw, Option.some.injEq, Prod.mk.injEq] at hs
  obtain ⟨rfl, rfl⟩ := hs
  have hst := hio.take_keeps hw
  obtain ⟨hdisk, hed, -⟩ := id h
  rw [Ledger.record_idle rfl (by nofun)]
  refine ⟨⟨?_, hed⟩, .of_owner (by nofun) (by nofun) ?_⟩
  · show DiskTracks led (stored e.coder d)
    rw [hst]
    exact hdisk
  · intro v hr
    rcases r with r | x
    · cases hr
    · obtain rfl : x = v := by simpa [Except.map] using hr
      exact (Ledger.logical_of_nil hed).trans (h.written_eq (hio.take_ok hw))

/-- `mut_handle`: the handle starts unmodified, on a cached value. -/
theorem owned_mutHandle (hio : Lawful io stored)
    (h : Tracks stored { hold := .owned e, world, ledger := led })
    (hs : Session.call io { hold := .owned e, world, ledger := led } .mutHandle =
      some (answer, st')) :
    Tracks stored st' ∧
      Faithful stored { hold := .owned e, world, ledger := led } (.mutHandle, answer) st' := by
  unfold Session.call at hs
  rcases hw : e.load io world with ⟨r | x, e', s'⟩
  · simp only [exec, BackedEntryMut.mutHandle, hw, Option.some.injEq, Prod.mk.injEq] at hs
    obtain ⟨rfl, rfl⟩ := hs
    obtain ⟨-, hv, hst⟩ := hio.load_error hw
    refine ⟨?_, .of_owner (by nofun) (by nofun) (by rintro v ⟨⟩)⟩
    exact tracks_read h hst fun v hv' => by cases hv.symm.trans hv'
  · simp only [exec, BackedEntryMut.mutHandle, hw, Option.some.injEq, Prod.mk.injEq] at hs
    obtain ⟨rfl, rfl⟩ := hs
    obtain ⟨hv, hst, hfrom⟩ := hio.load_ok hw
    have hwritten : led.written = some x := h.written_eq hfrom
    obtain ⟨hdisk, hed, -⟩ := h
    refine ⟨⟨?_, fun _ => hed, x, hv, ?_⟩, .of_owner (by nofun) (by nofun) (by rintro v ⟨⟩)⟩
    · show DiskTracks led (e'.storedValue stored)
      rw [hst]
      exact hdisk
    · exact (Ledger.logical_of_nil hed).trans hwritten

/-! ## The calls of a handle -/

/-- `deref`. -/
theorem borrowed_deref {h : BackedEntryMut T D C}
    (ht : Tracks stored { hold := .borrowed h, world, ledger := led })
    (hs : Session.call io { hold := .borrowed h, world, ledger := led } .deref =
      some (answer, st')) :
    Tracks stored st' ∧
      Faithful stored { hold := .borrowed h, world, ledger := led } (.deref, answer) st' := by
  unfold Session.call at hs
  obtain ⟨-, -, x, hx, hlog⟩ := id ht
  have hd : h.deref = .ok x := by
    unfold BackedEntryMut.deref
    rw [hx, unwrap_some]
  simp only [exec, hd, Option.some.injEq, Prod.mk.injEq] at hs
  obtain ⟨rfl, rfl⟩ := hs
  refine ⟨ht, .of_owner (by nofun) (by nofun) ?_⟩
  rintro v ⟨⟩
  exact hlog

/-- `deref_mut` and the edit: the flag rises, the logical value follows the cell. -/
theorem borrowed_derefMut {h : BackedEntryMut T D C} (f : T → T)
    (ht : Tracks stored { hold := .borrowed h, world, ledger := led })
    (hs : Session.call io { hold := .borrowed h, world, ledger := led } (.derefMut f) =
      some (answer, st')) :
    Tracks stored st' ∧
      Faithful stored { hold := .borrowed h, world, ledger := led } (.derefMut f, answer) st' := by
  unfold Session.call at hs
  obtain ⟨hdisk, -, x, hx, hlog⟩ := ht
  have hd : h.derefMut f =
      .ok { entry := { h.entry with value := some (f x) }, modified := true } := by
    unfold BackedEntryMut.derefMut
    rw [hx, unwrap_some]
    rfl
  simp only [exec, hd, Option.some.injEq, Prod.mk.injEq] at hs
  obtain ⟨rfl, rfl⟩ := hs
  refine ⟨⟨?_, nofun, f x, rfl, ?_⟩, .of_owner (by nofun) (by nofun) (by rintro v ⟨⟩)⟩
  · exact hdisk
  · exact Ledger.logical_edit hlog f

/-- `flush`: a failure keeps the edits, the flag and the cell; success puts the cell on the disk. -/
theorem borrowed_flush (hio : Lawful io stored) {h : BackedEntryMut T D C}
    (ht : Tracks stored { hold := .borrowed h, world, ledger := led })
    (hs : Session.call io { hold := .borrowed h, world, ledger := led } .flush =
      some (answer, st')) :
    Tracks stored st' ∧
      Faithful stored { hold := .borrowed h, world, ledger := led } (.flush, answer) st' := by
  unfold Session.call at hs
  obtain ⟨hdisk, hed, x, hx, hlog⟩ := id ht
  by_cases hm : h.modified = true
  · have hwrites : Call.flush.writes (.borrowed h) = some x := (if_pos hm).trans hx
    rcases hw : h.flush io world with ⟨r | r, h', s'⟩
    · simp only [exec, hw, Option.some.injEq, Prod.mk.injEq] at hs
      obtain ⟨rfl, rfl⟩ := hs
      obtain ⟨-, hm', hv', hst⟩ := hio.flush_error hx hw
      rw [Ledger.record_failed hwrites (by nofun)]
      refine ⟨⟨hdisk.failed hst, fun hf => absurd hm' (by rw [hf]; decide), x, hv', hlog⟩, ?_⟩
      exact ⟨nofun, by rintro v ⟨⟩, fun _ _ _ => ⟨hm, hm', hv'.trans hx.symm, rfl⟩, by
        rintro r - ⟨⟩⟩
    · simp only [exec, hw, Option.some.injEq, Prod.mk.injEq] at hs
      obtain ⟨rfl, rfl⟩ := hs
      obtain ⟨-, hv', hst⟩ := hio.flush_ok hm hx hw
      have hrec : led.record .flush (.borrowed h) (.ok (.ok none) : Answer T E) =
          { written := some x, edits := [], landed := true } := Ledger.record_landed hwrites none
      refine ⟨?_, nofun, by rintro v ⟨⟩, by rintro err - ⟨⟩, fun _ _ _ _ => hst.trans hlog.symm⟩
      show Tracks stored { hold := _, world := _, ledger := led.record _ _ (.ok (.ok none)) }
      rw [hrec]
      exact ⟨Or.inl hst, fun _ => rfl, x, hv', rfl⟩
  · have hf : h.modified = false := by simpa using hm
    have hwrites : Call.flush.writes (.borrowed h) = none := if_neg hm
    simp only [exec, BackedEntryMut.flush_idle io hf, Option.some.injEq, Prod.mk.injEq] at hs
    obtain ⟨rfl, rfl⟩ := hs
    rw [Ledger.record_idle hwrites (by nofun)]
    exact ⟨ht, nofun, by rintro v ⟨⟩, by rintro err - ⟨⟩, fun _ _ _ h => absurd h hm⟩

/-- The drop of a handle: a last flush, whose failure is the one panic of a run. -/
theorem borrowed_drop (hio : Lawful io stored) {h : BackedEntryMut T D C}
    (ht : Tracks stored { hold := .borrowed h, world, ledger := led })
    (hs : Session.call io { hold := .borrowed h, world, ledger := led } .drop =
      some (answer, st')) :
    Tracks stored st' ∧
      Faithful stored { hold := .borrowed h, world, ledger := led } (.drop, answer) st' := by
  unfold Session.call at hs
  obtain ⟨hdisk, hed, x, hx, hlog⟩ := id ht
  by_cases hm : h.modified = true
  · have hwrites : Call.drop.writes (.borrowed h) = some x := (if_pos hm).trans hx
    rcases hw : h.flush io world with ⟨r | r, h', s'⟩
    · simp only [exec, BackedEntryMut.drop_eq, hw, Option.some.injEq, Prod.mk.injEq] at hs
      obtain ⟨rfl, rfl⟩ := hs
      obtain ⟨-, -, hv', hst⟩ := hio.flush_error hx hw
      rw [Ledger.record_failed hwrites (by nofun)]
      refine ⟨⟨hdisk.failed hst, rfl, fun v hv => ?_⟩, fun _ _ => rfl, nofun, nofun, nofun⟩
      exact hlog.trans (hv'.symm.trans hv)
    · simp only [exec, BackedEntryMut.drop_eq, hw, Option.some.injEq, Prod.mk.injEq] at hs
      obtain ⟨rfl, rfl⟩ := hs
      obtain ⟨-, hv', hst⟩ := hio.flush_ok hm hx hw
      rw [Ledger.record_landed hwrites none]
      exact ⟨tracks_landed hst (Or.inr hv'), nofun, by rintro v ⟨⟩, nofun,
        fun _ _ _ _ => hst.trans hlog.symm⟩
  · have hf : h.modified = false := by simpa using hm
    have hwrites : Call.drop.writes (.borrowed h) = none := if_neg hm
    simp only [exec, BackedEntryMut.drop_eq, BackedEntryMut.flush_idle io hf, Option.some.injEq,
      Prod.mk.injEq] at hs
    obtain ⟨rfl, rfl⟩ := hs
    rw [Ledger.record_idle hwrites (by nofun)]
    refine ⟨⟨hdisk, hed hf, fun v hv => ?_⟩, nofun, by rintro v ⟨⟩, nofun,
      fun _ _ _ h => absurd h hm⟩
    rw [← Ledger.logical_of_nil (hed hf), hlog, ← hx]
    exact hv

/-- **The step lemma**: every call keeps the invariant and its promises. -/
theorem call_tracks (hio : Lawful io stored) (h : Tracks stored st)
    (hs : st.call io call = some (answer, st')) :
    Tracks stored st' ∧ Faithful stored st (call, answer) st' := by
  obtain ⟨hold, world, led⟩ := st
  cases hold with
  | owned e =>
      cases call with
      | write v => exact owned_write hio v h hs
      | writeUnload v => exact owned_writeUnload hio v h hs
      | update => exact owned_update hio h hs
      | load => exact owned_load hio h hs
      | unload =>
          simp only [Session.call, exec, Option.some.injEq, Prod.mk.injEq] at hs
          obtain ⟨rfl, rfl⟩ := hs
          exact ⟨tracks_read h rfl nofun, .of_owner (by nofun) (by nofun) (by rintro v ⟨⟩)⟩
      | take => exact owned_take hio h hs
      | mutHandle => exact owned_mutHandle hio h hs
      | deref => cases hs
      | derefMut f => cases hs
      | flush => cases hs
      | drop => cases hs
  | borrowed m =>
      cases call with
      | deref => exact borrowed_deref h hs
      | derefMut f => exact borrowed_derefMut f h hs
      | flush => exact borrowed_flush hio h hs
      | drop => exact borrowed_drop hio h hs
      | write v => cases hs
      | writeUnload v => cases hs
      | update => cases hs
      | load => cases hs
      | unload => cases hs
      | take => cases hs
      | mutHandle => cases hs
  | taken d c => cases call <;> cases hs
  | panicked e => cases call <;> cases hs

end Calls

/-! ## Every run -/

/-- **An entry is coherent over its whole life.**  Over any lawful medium, in every run of calls from a
new entry, with any of the disk accesses failing, every state is coherent with the ledger and every
call keeps its promises. -/
theorem session_coherent (io : Medium T D C S E) (hio : Lawful io stored) (disk : D) (coder : C)
    (world : S) (tr : List ((Call T × Answer T E) × Session T D C S))
    (htr : IsTrace (Reacts (Session.call io)) (Session.start stored disk coder world) tr) :
    StatesMeet (Coherent stored) (Session.start stored disk coder world) tr ∧
      StepsMeet (Faithful stored) (Session.start stored disk coder world) tr := by
  have hstep : ∀ (st : Session T D C S) (l : Call T × Answer T E) (st' : Session T D C S),
      Tracks stored st → Reacts (Session.call io) st l st' →
        Tracks stored st' ∧ Faithful stored st l st' :=
    fun _ _ _ h hs => call_tracks hio h hs
  constructor
  · have hinv := invariant (fun st l st' h hs => (hstep st l st' h hs).1)
      (tracks_start disk coder world) htr
    exact ⟨hinv.1.coherent, fun x hx => (hinv.2 x hx).coherent⟩
  · exact stepsMeet_of_invariant (fun st l st' h hs => (hstep st l st' h hs).1)
      (fun st l st' h hs => (hstep st l st' h hs).2) (tracks_start disk coder world) htr

/-- Load `1`, edit it to `2`, fail to flush, flush, fail to write `9`, load, take. -/
def sampleCalls : List (Call Nat) :=
  [.mutHandle, .derefMut (· + 1), .flush, .flush, .drop, .write 9, .load, .take]

/-- The first flush fails in `encode`, the `write` when the disk is opened. -/
def sampleRun : List ((Call Nat × Answer Nat Unit) × Session Nat (Option Nat) Unit (List Bool)) :=
  react (Session.call (scripted Nat))
    (Session.start (fun _ d => d) (some 1) () [false, false, false, true, false, false, true])
    sampleCalls

theorem session_coherent_sample :
    StatesMeet (Coherent fun _ d => d)
        (Session.start (fun _ d => d) (some 1) () [false, false, false, true, false, false, true])
        sampleRun ∧
      StepsMeet (Faithful fun _ d => d)
        (Session.start (fun _ d => d) (some 1) () [false, false, false, true, false, false, true])
        sampleRun :=
  session_coherent (scripted Nat) (scripted_lawful Nat) (some 1) () _ sampleRun
    (isTrace_react _ _ _)

example : sampleRun.map (fun x => x.1.2) =
    [.ok (.ok none), .ok (.ok none), .ok (.error ()), .ok (.ok none), .ok (.ok none),
      .ok (.error ()), .ok (.ok (some 2)), .ok (.ok (some 2))] := by
  decide

end BackedData.Entry
