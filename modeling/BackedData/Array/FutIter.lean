/-
# BackedData.Array.FutIter — the iterators that return futures

`BackedArrayFutIter` and `BackedArrayFutIterSend` (`async_impl/slice.rs`), `BackedArrayFutIterGeneric` and
`BackedArrayFutIterGenericSend` (`async_impl/generic.rs`).  An iterator is a position beside the array it
borrows, or shares.  Nothing is loaded in `nth`: an item is a future, which looks its position up in the
array as it is when it is awaited.
-/
import BackedData.Array.Lookup

namespace BackedData.Array

open Logic.Outcome
open Logic.Ranges
open BackedData.Entry

set_option autoImplicit false

variable {Ent T D C S E : Type}

/-- `internal_a_get`, and `a_generic_get`: `generic_get` with the load awaited. -/
def BackedArray.aGenericGet (io : Medium (List T) D C S E) (self : BackedArray (Chunk T D C))
    (search : Except Nat Nat) (idx : Nat) (s : S) :
    Exec (Except (BackedArrayError E) T × BackedArray (Chunk T D C) × S) := do
  match ← internalIdx self.keyStarts self.keyEnds search idx with
  | none => pure (.error (.outsideEntryBounds idx), self, s)
  | some loc =>
      match self.entries[loc.entryIdx]? with
      | none => pure (.error (.outsideEntryBounds idx), self, s)
      | some wrappedContainer =>
          match wrappedContainer.aLoad io s with
          | (.error e, wrappedContainer, s) =>
              pure (.error (.coder e), self.setEntry loc.entryIdx wrappedContainer, s)
          | (.ok entry, wrappedContainer, s) =>
              match entry[loc.insideEntryIdx]? with
              | none =>
                  pure (.error (.outsideEntryBounds idx),
                    self.setEntry loc.entryIdx wrappedContainer, s)
              | some x => pure (.ok x, self.setEntry loc.entryIdx wrappedContainer, s)

/-- The lookup behind an item: `a_get`, or `internal_a_get`. -/
abbrev AsyncLookup (T D C S E : Type) :=
  BackedArray (Chunk T D C) → Except Nat Nat → Nat → S →
    Exec (Except (BackedArrayError E) T × BackedArray (Chunk T D C) × S)

/-- An item: what it comes to when it is awaited on the array and the surroundings of that moment. -/
abbrev ItemFuture (T D C S E : Type) :=
  BackedArray (Chunk T D C) → Except Nat Nat → S → Exec (Except E T × BackedArray (Chunk T D C) × S)

/-- The `async move` block of `nth`. -/
def itemFuture (aGet : AsyncLookup T D C S E) (curPos : Nat) : ItemFuture T D C S E :=
  fun backed search s => do
    let (r, backed, s) ← aGet backed search curPos s
    match r with
    | .ok val => pure (.ok val, backed, s)
    | .error (.outsideEntryBounds _) => .error .explicit
    | .error (.coder c) => pure (.error c, backed, s)

/-- `BackedArrayFutIter`, beside the array it borrows. -/
structure BackedArrayFutIter where
  pos : Nat
  deriving DecidableEq, Repr

/-- `BackedArrayFutIterSend` shares the array instead. -/
abbrev BackedArrayFutIterSend := BackedArrayFutIter

/-- `BackedArrayFutIterGeneric` has the same field. -/
abbrev BackedArrayFutIterGeneric := BackedArrayFutIter

/-- `BackedArrayFutIterGenericSend` has the same field. -/
abbrev BackedArrayFutIterGenericSend := BackedArrayFutIter

namespace BackedArrayFutIter

/-- `new`, of each. -/
def new : BackedArrayFutIter := { pos := 0 }

/-- `nth` over the lookup of its items. -/
def nthWith (aGet : AsyncLookup T D C S E) (backed : BackedArray Ent) (n : Nat)
    (this : BackedArrayFutIter) : Exec (Option (ItemFuture T D C S E) × BackedArrayFutIter) := do
  let curPos ← usizeAdd this.pos n
  let step ← usizeAdd n 1
  let pos ← usizeAdd this.pos step
  if curPos < backed.len then pure (some (itemFuture aGet curPos), { pos }) else pure (none, { pos })

/-- `nth`. -/
def nth (io : Medium (List T) D C S E) (backed : BackedArray Ent) (n : Nat) (this : BackedArrayFutIter) :
    Exec (Option (ItemFuture T D C S E) × BackedArrayFutIter) :=
  nthWith (fun backed => backed.aGet io) backed n this

end BackedArrayFutIter

/-- `nth`. -/
def BackedArrayFutIterSend.nth (io : Medium (List T) D C S E) (backed : BackedArray Ent) (n : Nat)
    (this : BackedArrayFutIterSend) : Exec (Option (ItemFuture T D C S E) × BackedArrayFutIterSend) :=
  BackedArrayFutIter.nthWith (fun backed => backed.aGet io) backed n this

/-- `nth`. -/
def BackedArrayFutIterGeneric.nth (io : Medium (List T) D C S E) (backed : BackedArray Ent) (n : Nat)
    (this : BackedArrayFutIterGeneric) :
    Exec (Option (ItemFuture T D C S E) × BackedArrayFutIterGeneric) :=
  BackedArrayFutIter.nthWith (fun backed => backed.aGenericGet io) backed n this

/-- `nth`. -/
def BackedArrayFutIterGenericSend.nth (io : Medium (List T) D C S E) (backed : BackedArray Ent) (n : Nat)
    (this : BackedArrayFutIterGenericSend) :
    Exec (Option (ItemFuture T D C S E) × BackedArrayFutIterGenericSend) :=
  BackedArrayFutIter.nthWith (fun backed => backed.aGenericGet io) backed n this

end BackedData.Array
