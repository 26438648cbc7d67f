/-
# BackedData.Array.Basic — `BackedArray`: one sequence kept as chunks behind three tables

`BackedArray` holds, for every chunk, where its range starts, where it ends, and the `BackedEntry` that
keeps it.  This module is the translation of `array/mod.rs`, of the operations of
`array/sync_impl/mod.rs`, and of the three lookups (`get` in `sync_impl/slice.rs`, `generic_get` in
`sync_impl/generic.rs`, `a_get` in `async_impl/slice.rs`).  A container of keys or entries is a list;
`usize` is `Nat` with the overflow checks of `Logic.Outcome`, so that every arithmetic slip and every
index past the end shows up as a panic.

`slice::binary_search` may answer with any matching position.  Its answer is therefore an argument of
`internalIdx` and of the lookups, constrained by `Logic.Ranges.BinarySearch` where it matters.
-/
import BackedData.Entry.Basic
import BackedData.Logic.Ranges

namespace BackedData.Array

open Logic.Outcome
open BackedData.Entry

set_option autoImplicit false

/-! ## The array and its tables -/

/-- `BackedArrayError`. -/
inductive BackedArrayError (E : Type) where
  | outsideEntryBounds (idx : Nat)
  | coder (e : E)
  deriving DecidableEq, Repr

/-- `ArrayLoc`: which entry, and where inside it. -/
structure ArrayLoc where
  entryIdx : Nat
  insideEntryIdx : Nat
  deriving DecidableEq, Repr

/-- `BackedArray`, over the type of its entries. -/
structure BackedArray (Ent : Type) where
  keyStarts : List Nat
  keyEnds : List Nat
  entries : List Ent
  deriving DecidableEq, Repr

/-- A chunk: an entry that keeps a list of elements. -/
abbrev Chunk (T D C : Type) := BackedEntry (List T) D C

/-- The tail of `internal_idx`: the location of `idx` inside entry `entryIdx`. -/
def arrayLoc (starts : List Nat) (idx entryIdx : Nat) : Exec (Option ArrayLoc) := do
  let start ← index starts entryIdx
  let insideEntryIdx ← usizeSub idx start
  pure (some { entryIdx, insideEntryIdx })

/-- `internal_idx`, on the answer `search` of `ends.binary_search(&idx)`. -/
def internalIdx (starts ends : List Nat) (search : Except Nat Nat) (idx : Nat) :
    Exec (Option ArrayLoc) :=
  match search with
  | .ok x => do
      -- Matched with a range end; only the final one is out of bounds.
      let final ← usizeSub ends.length 1
      if x ≠ final then arrayLoc starts idx (x + 1) else pure none
  | .error x => if x ≠ ends.length then arrayLoc starts idx x else pure none

namespace BackedArray

variable {Ent T D C S E : Type}

/-- `BackedArray::new`. -/
def new : BackedArray Ent := { keyStarts := [], keyEnds := [], entries := [] }

/-- `len`: the last range end. -/
def len (self : BackedArray Ent) : Nat := self.keyEnds.getLast?.getD 0

/-- `chunks_len`. -/
def chunksLen (self : BackedArray Ent) : Nat := self.entries.length

/-- `is_empty`: no chunk at all. -/
def isEmpty (self : BackedArray Ent) : Bool := self.entries.isEmpty

/-- The array with entry `i` as it is after a call made through a reference to it. -/
def setEntry (self : BackedArray Ent) (i : Nat) (entry : Ent) : BackedArray Ent :=
  { self with entries := self.entries.set i entry }

/-! ## Growing and shrinking -/

/-- `self.entries.c_push(entry.into())` and the two key pushes behind it, shared by `append` and
`append_memory`. -/
def pushEntry (self : BackedArray Ent) (entry : Ent) (valuesLen : Nat) : Exec (BackedArray Ent) := do
  let startIdx := self.keyEnds.getLast?.getD 0
  let endIdx ← usizeAdd startIdx valuesLen
  pure
    { keyStarts := self.keyStarts ++ [startIdx]
      keyEnds := self.keyEnds ++ [endIdx]
      entries := self.entries ++ [entry] }

/-- `append`: write the values, keep only the disk; the keys are pushed only if the write succeeds. -/
def append (io : Medium (List T) D C S E) (self : BackedArray (Chunk T D C)) (values : List T)
    (backingStore : D) (coder : C) (s : S) :
    Exec (Except E Unit × BackedArray (Chunk T D C) × S) :=
  match (BackedEntry.new backingStore coder).writeUnload io values s with
  | (.error e, _, s) => pure (.error e, self, s)
  | (.ok (), entry, s) => do
      let self ← self.pushEntry entry values.length
      pure (.ok (), self, s)

/-- `append_memory`: `append` that keeps the values in memory. -/
def appendMemory (io : Medium (List T) D C S E) (self : BackedArray (Chunk T D C)) (values : List T)
    (backingStore : D) (coder : C) (s : S) :
    Exec (Except E Unit × BackedArray (Chunk T D C) × S) :=
  match (BackedEntry.new backingStore coder).write io values s with
  | (.error e, _, s) => pure (.error e, self, s)
  | (.ok (), entry, s) => do
      let self ← self.pushEntry entry values.length
      pure (.ok (), self, s)

/-- `key_remove`: take the key out and move every later key down by `width`. -/
def keyRemove (this : List Nat) (entryIdx width : Nat) : Exec (List Nat) := do
  let this ← removeAt this entryIdx
  let shifted ← (this.drop entryIdx).mapM fun key => usizeSub key width
  pure (this.take entryIdx ++ shifted)

/-- `remove`: nothing happens when either key is missing. -/
def remove (self : BackedArray Ent) (entryIdx : Nat) : Exec (BackedArray Ent) :=
  match self.keyStarts[entryIdx]?, self.keyEnds[entryIdx]? with
  | some start, some stop => do
      let width ← usizeSub stop start
      let entries ← removeAt self.entries entryIdx
      let keyStarts ← keyRemove self.keyStarts entryIdx width
      let keyEnds ← keyRemove self.keyEnds entryIdx width
      pure { keyStarts, keyEnds, entries }
  | _, _ => pure self

/-- `merge`: the keys of `rhs` move up by the length of `self`. -/
def merge (self rhs : BackedArray Ent) : Exec (BackedArray Ent) := do
  let offset := self.keyEnds.getLast?.getD 0
  let keyStarts ← rhs.keyStarts.mapM fun x => usizeAdd x offset
  let keyEnds ← rhs.keyEnds.mapM fun x => usizeAdd x offset
  pure
    { keyStarts := self.keyStarts ++ keyStarts
      keyEnds := self.keyEnds ++ keyEnds
      entries := self.entries ++ rhs.entries }

/-- `clear_memory`. -/
def clearMemory (self : BackedArray (Chunk T D C)) : BackedArray (Chunk T D C) :=
  { self with entries := self.entries.map BackedEntry.unload }

/-! ## Lookups -/

section Lookup

variable (io : Medium (List T) D C S E) (self : BackedArray (Chunk T D C))

/-- `get_loc`: both accesses are slice indexing. -/
def getLoc (loc : ArrayLoc) (s : S) :
    Exec (Except (BackedArrayError E) T × BackedArray (Chunk T D C) × S) := do
  let backedEntry ← index self.entries loc.entryIdx
  match backedEntry.load io s with
  | (.error e, backedEntry, s) =>
      pure (.error (.coder e), self.setEntry loc.entryIdx backedEntry, s)
  | (.ok entry, backedEntry, s) => do
      let x ← index entry loc.insideEntryIdx
      pure (.ok x, self.setEntry loc.entryIdx backedEntry, s)

/-- `get`. -/
def get (search : Except Nat Nat) (idx : Nat) (s : S) :
    Exec (Except (BackedArrayError E) T × BackedArray (Chunk T D C) × S) := do
  match ← internalIdx self.keyStarts self.keyEnds search idx with
  | none => pure (.error (.outsideEntryBounds idx), self, s)
  | some loc => self.getLoc io loc s

/-- `generic_get_loc`: both accesses are `c_get`, and a miss is reported as out of bounds. -/
def genericGetLoc (loc : ArrayLoc) (idx : Nat) (s : S) :
    Exec (Except (BackedArrayError E) T × BackedArray (Chunk T D C) × S) :=
  match self.entries[loc.entryIdx]? with
  | none => pure (.error (.outsideEntryBounds idx), self, s)
  | some wrappedContainer =>
      match wrappedContainer.load io s with
      | (.error e, wrappedContainer, s) =>
          pure (.error (.coder e), self.setEntry loc.entryIdx wrappedContainer, s)
      | (.ok entry, wrappedContainer, s) =>
          match entry[loc.insideEntryIdx]? with
          | none =>
              pure (.error (.outsideEntryBounds idx),
                self.setEntry loc.entryIdx wrappedContainer, s)
          | some x => pure (.ok x, self.setEntry loc.entryIdx wrappedContainer, s)

/-- `generic_get` (through `internal_get`). -/
def genericGet (search : Except Nat Nat) (idx : Nat) (s : S) :
    Exec (Except (BackedArrayError E) T × BackedArray (Chunk T D C) × S) := do
  match ← internalIdx self.keyStarts self.keyEnds search idx with
  | none => pure (.error (.outsideEntryBounds idx), self, s)
  | some loc => self.genericGetLoc io loc idx s

/-- `a_get`: `get` with the load awaited. -/
def aGet (search : Except Nat Nat) (idx : Nat) (s : S) :
    Exec (Except (BackedArrayError E) T × BackedArray (Chunk T D C) × S) := do
  match ← internalIdx self.keyStarts self.keyEnds search idx with
  | none => pure (.error (.outsideEntryBounds idx), self, s)
  | some loc => do
      let backedEntry ← index self.entries loc.entryIdx
      match backedEntry.aLoad io s with
      | (.error e, backedEntry, s) =>
          pure (.error (.coder e), self.setEntry loc.entryIdx backedEntry, s)
      | (.ok entry, backedEntry, s) => do
          let x ← index entry loc.insideEntryIdx
          pure (.ok x, self.setEntry loc.entryIdx backedEntry, s)

theorem aGet_eq_get : self.aGet io = self.get io := rfl

end Lookup

end BackedArray

/-! ## Well-formed arrays -/

open Logic.Ranges (Consecutive)

/-- **`WellFormed loads arr chunks`** — the tables of `arr` lay out exactly these chunks: the ranges
run consecutively from zero, range `i` is as wide as chunk `i` is long (which may be zero), and entry
`i` is related to chunk `i` by `loads`. -/
structure WellFormed {Ent T : Type} (loads : Ent → List T → Prop) (arr : BackedArray Ent)
    (chunks : List (List T)) : Prop where
  keys : Consecutive arr.keyStarts arr.keyEnds (chunks.map List.length)
  entries : List.Forall₂ loads arr.entries chunks

/-- The empty array is well formed. -/
theorem wellFormed_new {Ent T : Type} (loads : Ent → List T → Prop) :
    WellFormed loads BackedArray.new [] where
  keys := Logic.Ranges.consecutive_iff.mpr ⟨rfl, rfl⟩
  entries := .nil

namespace WellFormed

variable {Ent T : Type} {loads : Ent → List T → Prop} {arr : BackedArray Ent}
  {chunks : List (List T)}

theorem keyStarts_eq (h : WellFormed loads arr chunks) :
    arr.keyStarts = Logic.Ranges.startsFrom 0 (chunks.map List.length) :=
  (Logic.Ranges.consecutive_iff.mp h.keys).1

theorem keyEnds_eq (h : WellFormed loads arr chunks) :
    arr.keyEnds = Logic.Ranges.endsFrom 0 (chunks.map List.length) :=
  (Logic.Ranges.consecutive_iff.mp h.keys).2

/-- `len` is the length of the concatenation. -/
theorem len_eq (h : WellFormed loads arr chunks) : arr.len = chunks.flatten.length := by
  rw [BackedArray.len, h.keyEnds_eq, Logic.Ranges.endsFrom_getLast?_getD, Nat.zero_add,
    List.length_flatten]

theorem entries_length (h : WellFormed loads arr chunks) :
    arr.entries.length = chunks.length := h.entries.length_eq

/-- Entry and chunk at one index. -/
theorem entry (h : WellFormed loads arr chunks) {i : Nat} {chunk : List T}
    (hi : chunks[i]? = some chunk) : ∃ e, arr.entries[i]? = some e ∧ loads e chunk := by
  obtain ⟨hlt, rfl⟩ := List.getElem?_eq_some_iff.mp hi
  have hlt' : i < arr.entries.length := by rw [h.entries_length]; exact hlt
  exact ⟨arr.entries[i], List.getElem?_eq_getElem hlt', by
    simpa using (List.forall₂_iff_get.mp h.entries).2 i hlt' hlt⟩

/-- Chunk and entry at one index. -/
theorem chunk (h : WellFormed loads arr chunks) {i : Nat} {e : Ent} (he : arr.entries[i]? = some e) :
    ∃ chunk, chunks[i]? = some chunk ∧ loads e chunk := by
  have hi : i < chunks.length := by
    rw [← h.entries_length]
    exact (List.getElem?_eq_some_iff.mp he).1
  have hchunk : chunks[i]? = some chunks[i] := List.getElem?_eq_getElem hi
  obtain ⟨e', he', hloads⟩ := h.entry hchunk
  obtain rfl : e = e' := Option.some.inj (he.symm.trans he')
  exact ⟨chunks[i], hchunk, hloads⟩

/-- An entry may be replaced by another that keeps the same chunk. -/
theorem setEntry (h : WellFormed loads arr chunks) {i : Nat} {e : Ent} {chunk : List T}
    (hi : chunks[i]? = some chunk) (he : loads e chunk) :
    WellFormed loads (arr.setEntry i e) chunks := by
  refine ⟨h.keys, List.forall₂_iff_get.mpr ⟨?_, ?_⟩⟩
  · show (arr.entries.set i e).length = chunks.length
    rw [List.length_set, h.entries_length]
  · intro j (hj : j < (arr.entries.set i e).length) hj'
    show loads (arr.entries.set i e)[j] chunks[j]
    rw [List.getElem_set]
    split
    · next hij =>
        subst hij
        obtain ⟨hlt, hget⟩ := List.getElem?_eq_some_iff.mp hi
        rw [hget]
        exact he
    · next hij => exact (List.forall₂_iff_get.mp h.entries).2 j (by simpa using hj) hj'

end WellFormed

end BackedData.Array
