/-
# BackedData.Array.IterMut — the mutable iterators and the handles they give out

`BackedArrayIterMut` (`sync_impl/slice.rs`), `BackedArrayGenericIterMut` (`sync_impl/generic.rs`) and
`CountedHandle` (`sync_impl/mod.rs`).  The iterator opens one `BackedEntryMut` for each chunk it comes to,
behind an `Arc`; every element it returns is a `CountedHandle`, which shares that `Arc` and writes into the
chunk through a reference of its own.

All of this is one state: the chunks of the array, the handles opened on them, the iterator and the counted
handles still alive, and the surroundings of the disks.  The two iterators differ only in how an element is
taken out of a chunk (`Access`).  A method returns an error where a write failed, and a panic ends it.
-/
import BackedData.Array.Basic
import BackedData.Logic.Stateful

namespace BackedData.Array

open Logic.Outcome
open Logic.Stateful
open BackedData.Entry

set_option autoImplicit false

/-- How an element is taken out of a chunk: `[inner_pos]` of a slice, or `c_get_mut(inner_pos)`. -/
inductive Access where
  | slice
  | generic
  deriving DecidableEq, Repr

/-- The element, if there is one. -/
def Access.get {T : Type} (access : Access) (chunk : List T) (innerPos : Nat) : Exec (Option T) :=
  match access with
  | .slice => do
      let val ← index chunk innerPos
      pure (some val)
  | .generic => pure chunk[innerPos]?

/-- A member of `handles`: the chunk it borrows, and the flag of its `BackedEntryMut`, or the error of the
load. -/
structure EntryHandle (E : Type) where
  entry : Nat
  handle : Except E Bool
  deriving DecidableEq, Repr

/-- `CountedHandle`: the handle it shares, and the position of its element in the chunk. -/
structure CountedHandle where
  handle : Nat
  value : Nat
  deriving DecidableEq, Repr

/-- `BackedArrayIterMut`, without its handles; `entries` is the next entry of the slice iterator. -/
structure BackedArrayIterMut where
  pos : Nat
  len : Nat
  keys : List (Nat × Nat)
  entries : Nat
  deriving DecidableEq, Repr

/-- The array while it is iterated: its chunks, the handles in the order they were opened, the iterator
unless it has been dropped, and the counted handles, `none` for one that has been dropped. -/
structure Iterated (T D C S E : Type) where
  chunks : List (Chunk T D C)
  handles : List (EntryHandle E)
  iter : Option BackedArrayIterMut
  counted : List (Option CountedHandle)
  world : S
  deriving DecidableEq, Repr

namespace Iterated

variable {T D C S E : Type}

/-- Methods on the iterated array; an error is that of a write. -/
abbrev IteratedM (T D C S E : Type) (α : Type) : Type := Method E (Iterated T D C S E) α

/-- Does a counted handle, alive or not, hold this `Arc`? -/
def holds (c : Nat) (h : Option CountedHandle) : Bool := h.any fun h => h.handle == c

/-- `Arc::strong_count` of a handle: the iterator holds all of them. -/
def strongCount (self : Iterated T D C S E) (c : Nat) : Nat :=
  (if self.iter.isSome then 1 else 0) + self.counted.countP (holds c)

/-- The counted handle of this number, if it is alive. -/
def alive (self : Iterated T D C S E) (k : Nat) : Option CountedHandle := self.counted[k]?.join

/-- The state after a call on the `BackedEntryMut` of handle `c`. -/
def put (self : Iterated T D C S E) (c entry : Nat) (m : BackedEntryMut (List T) D C) (world : S) :
    Iterated T D C S E :=
  { self with
    chunks := self.chunks.set entry m.entry
    handles := self.handles.set c { entry, handle := .ok m.modified }
    world }

variable (io : Medium (List T) D C S E)

/-! ## The handles -/

/-- `h.flush()` under the lock, where the chunk was loaded. -/
def flushHandle (c : Nat) : IteratedM T D C S E Unit := fun self =>
  match self.handles[c]? with
  | some { entry, handle := .ok modified } =>
      match self.chunks[entry]? with
      | none => .error .indexOutOfBounds
      | some chunk =>
          match ({ entry := chunk, modified } : BackedEntryMut (List T) D C).flush io self.world with
          | (r, m, world) => .ok (r, self.put c entry m world)
  | _ => .ok (.ok (), self)

/-- The drop of the `BackedEntryMut` of a handle. -/
def dropEntry (c : Nat) : IteratedM T D C S E Unit := fun self =>
  match self.handles[c]? with
  | some { entry, handle := .ok modified } =>
      match self.chunks[entry]? with
      | none => .error .indexOutOfBounds
      | some chunk =>
          match ({ entry := chunk, modified } : BackedEntryMut (List T) D C).drop io self.world with
          | (.error p, _, _) => .error p
          | (.ok (), chunk, world) =>
              .ok (.ok (), self.put c entry { entry := chunk, modified := false } world)
  | _ => .ok (.ok (), self)

/-- `if let Some(h) = Arc::get_mut(..)`: the last holder flushes, and unwraps. -/
def flushUnique (c : Nat) : IteratedM T D C S E Unit := do
  let self ← .get
  if self.strongCount c = 1 then (flushHandle io c).orPanic .unwrapNone

/-- The drop of one `Arc`, which has already been taken off the count. -/
def release (c : Nat) : IteratedM T D C S E Unit := do
  let self ← .get
  if self.strongCount c = 0 then dropEntry io c

/-- `CountedHandle::flush`. -/
def flushCounted (h : CountedHandle) : IteratedM T D C S E Unit := flushHandle io h.handle

/-- `Drop` of a `CountedHandle`, and of its field. -/
def dropCounted (k : Nat) (h : CountedHandle) : IteratedM T D C S E Unit := do
  flushUnique io h.handle
  .modify fun self => { self with counted := self.counted.set k none }
  release io h.handle

/-- An edit through `DerefMut` of a `CountedHandle`: the element is written, and nothing else. -/
def edit (self : Iterated T D C S E) (h : CountedHandle) (x : T) : Iterated T D C S E :=
  match self.handles[h.handle]? with
  | some { entry, .. } =>
      { self with
        chunks := self.chunks.modify entry fun chunk =>
          { chunk with value := chunk.value.map fun val => val.set h.value x } }
  | none => self

/-! ## The iterator -/

/-- `Arc::new(Mutex::new(entry.mut_handle()))`, pushed to the handles. -/
def openHandle (self : Iterated T D C S E) (entry : Nat) (chunk : Chunk T D C) :
    Iterated T D C S E :=
  match BackedEntryMut.mutHandle io chunk self.world with
  | (.error (e, chunk), world) =>
      { self with
        chunks := self.chunks.set entry chunk
        handles := self.handles ++ [{ entry, handle := .error e }]
        world }
  | (.ok m, world) =>
      { self with
        chunks := self.chunks.set entry m.entry
        handles := self.handles ++ [{ entry, handle := .ok m.modified }]
        world }

/-- `BackedArrayIterMut::new`: the first entry is opened at once. -/
def iterMut (arr : BackedArray (Chunk T D C)) (world : S) : Iterated T D C S E :=
  let self : Iterated T D C S E :=
    { chunks := arr.entries, handles := []
      iter := some
        { pos := 0, len := arr.len, keys := arr.keyStarts.zip arr.keyEnds, entries := 0 }
      counted := [], world }
  match arr.entries[0]? with
  | none => self
  | some chunk =>
      { openHandle io self 0 chunk with iter := self.iter.map fun it => { it with entries := 1 } }

/-- The tail of `nth`: an element of the chunk that was opened last, through `deref_mut`. -/
def takeElement (access : Access) (innerPos : Nat) : IteratedM T D C S E (Option (Except E Nat)) := do
  let self ← .get
  let last ← .ofExec (unwrap self.handles.getLast?)
  let c := self.handles.length - 1
  match last.handle with
  | .error e => pure (some (.error e))
  | .ok modified => do
      let chunk ← .ofExec (index self.chunks last.entry)
      let m ← .ofExec (({ entry := chunk, modified } : BackedEntryMut (List T) D C).derefMut id)
      .modify fun self => self.put c last.entry m self.world
      let val ← .ofExec m.deref
      match ← .ofExec (access.get val innerPos) with
      | none => pure none
      | some _ => do
          .modify fun self =>
            { self with counted := self.counted ++ [some { handle := c, value := innerPos }] }
          pure (some (.ok self.counted.length))

/-- `nth`: the number of the counted handle it returns, or the error of the load. -/
def nth (access : Access) (it : BackedArrayIterMut) (n : Nat) :
    IteratedM T D C S E (Option (Except E Nat)) := do
  let pos ← .ofExec (usizeAdd it.pos n)
  -- remove all key positions prior to `pos`
  let keys := it.keys.dropWhile fun key => key.2 ≤ pos
  let stepCount := it.keys.length - keys.length
  match keys with
  | [] => do
      .modify fun self => { self with iter := some { it with pos, keys } }
      pure none
  | key :: _ => do
      let innerPos ← .ofExec (usizeSub pos key.1)
      let nextPos ← .ofExec (usizeAdd pos 1)
      .modify fun self => { self with iter := some { it with pos := nextPos, keys } }
      if 0 < stepCount then do
        let entry := it.entries + (stepCount - 1)
        let self ← .get
        let chunk ← .ofExec (unwrap self.chunks[entry]?)
        .modify fun self =>
          { openHandle io self entry chunk with
            iter := some { it with pos := nextPos, keys, entries := entry + 1 } }
      takeElement access innerPos

/-- `BackedArrayIterMut::flush`. -/
def flush : IteratedM T D C S E Unit := do
  let self ← .get
  .forEach (flushHandle io) (List.range self.handles.length)

/-- `Drop` of the iterator, and of its field `handles`. -/
def dropIter : IteratedM T D C S E Unit := do
  let self ← .get
  .forEach (flushUnique io) (List.range self.handles.length)
  .modify fun self => { self with iter := none }
  .forEach (release io) (List.range self.handles.length)

/-! ## Runs -/

/-- What the owner of the iterator and of the counted handles can do. -/
inductive Act (T : Type) where
  | nth (n : Nat)
  | edit (k : Nat) (x : T)
  | flush
  | flushCounted (k : Nat)
  | dropCounted (k : Nat)
  | dropIter
  deriving DecidableEq, Repr

/-- The method behind an act; none where the iterator or the handle is not there any more. -/
def method (access : Access) (self : Iterated T D C S E) : Act T → Option (IteratedM T D C S E Unit)
  | .nth n => self.iter.map fun it => do
      let _ ← nth io access it n
      pure ()
  | .edit k x => (self.alive k).map fun h => .modify fun self => self.edit h x
  | .flush => self.iter.map fun _ => flush io
  | .flushCounted k => (self.alive k).map fun h => flushCounted io h
  | .dropCounted k => (self.alive k).map fun h => dropCounted io k h
  | .dropIter => self.iter.map fun _ => dropIter io

/-- One step of a run in which no call panics and all writes succeed. -/
def next (access : Access) (self : Iterated T D C S E) (act : Act T) : Option (Iterated T D C S E) :=
  match self.method io access act with
  | none => none
  | some m =>
      match m self with
      | .ok (.ok (), self) => some self
      | _ => none

end Iterated

end BackedData.Array
