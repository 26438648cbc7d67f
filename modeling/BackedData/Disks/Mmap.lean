/-
# BackedData.Disks.Mmap — a file kept mapped across sessions

`entry/disks/mmap.rs`: `MmapWriter`, which writes through a mutable mapping and reserves file space
ahead of its writes, and `SwitchingMmap`, which keeps one mapping alive between sessions and switches it
between reading and writing.  Two levels of one file:

* `Os` is the file as the operating system has it, with a schedule of the calls that fail (`faults`) and
  of the answers to the hole test (`holes`).  Mappings are shared, so a mapping is its length, and its
  bytes are those of the file.
* `MmapWriter`/`SwitchingMmap` are the in-memory side, on top of it.

The code modelled is that of Linux.  The calls are methods in the sense of `Logic.Stateful`: a failed one
keeps what it did before it failed.
-/
import BackedData.Entry.Basic
import BackedData.Logic.Stateful

namespace BackedData.Disks

open Logic.Outcome
open Logic.Stateful
open BackedData.Entry (nextFault)

set_option autoImplicit false

/-- The errors of these calls, by their cause. -/
inductive IoError where
  | os
  | outOfMemory
  | writeHandleOpen
  | readHandleOpen
  deriving DecidableEq, Repr

/-! ## The file -/

/-- The file, the calls still to fail, and the answers of the hole test still to come. -/
structure Os where
  file : List UInt8
  faults : List Bool
  holes : List Bool
  deriving DecidableEq, Repr

/-- Set the length of a file: cut it, or fill up with zeros. -/
def resize (file : List UInt8) (len : Nat) : List UInt8 :=
  file.take len ++ List.replicate (len - file.length) 0

/-- Bytes stored through a mapping; a position behind the end of the file is not part of it. -/
def overwrite (file : List UInt8) (pos : Nat) (buf : List UInt8) : List UInt8 :=
  file.take pos ++ buf.take (file.length - pos) ++ file.drop (pos + buf.length)

namespace Os

/-- A call to the operating system, which may fail. -/
def call : Method IoError Os Unit := fun os =>
  match nextFault os.faults with
  | (true, faults) => .ok (.error .os, { os with faults })
  | (false, faults) => .ok (.ok (), { os with faults })

/-- `open_mmap_file`. -/
def openMmapFile : Method IoError Os Unit := call

/-- `file.metadata()?.len()`. -/
def len : Method IoError Os Nat := do
  call
  let os ← .get
  pure os.file.length

/-- `file.set_len(len)`, and `ftruncate`. -/
def setLen (len : Nat) : Method IoError Os Unit := do
  call
  .modify fun os => { os with file := resize os.file len }

/-- `MmapOptions::map` and `map_mut`: a mapping of the whole file, whose length is returned. -/
def map : Method IoError Os Nat := do
  call
  let os ← .get
  pure os.file.length

/-- `test_for_hole`: two seeks, the first of which finds a hole before the end or none. -/
def testForHole : Method IoError Os Bool := do
  call
  call
  fun os =>
    match nextFault os.holes with
    | (hole, holes) => .ok (.ok hole, { os with holes })

end Os

/-! ## The writer -/

/-- `MmapWriter`; of the mapping `mmap` only the length is kept here. -/
structure MmapWriter where
  mmap : Nat
  writtenLen : Nat
  reservedLen : Nat
  sparseFile : Bool
  deriving DecidableEq, Repr

namespace MmapWriter

/-- `from_args`, on a mapping of this length. -/
def fromArgs (mmap : Nat) : MmapWriter :=
  { mmap, writtenLen := 0, reservedLen := mmap, sparseFile := true }

/-- `no_advise`: an empty file gets a garbage byte first. -/
def noAdvise : Method IoError Os MmapWriter := do
  Os.openMmapFile
  let len ← Os.len
  if len = 0 then Os.setLen 1
  let mmap ← Os.map
  pure (fromArgs mmap)

/-- Methods of a writer, beside the file. -/
abbrev WriterM (α : Type) : Type := Method IoError (MmapWriter × Os) α

/-- Change the writer. -/
def update (f : MmapWriter → MmapWriter) : WriterM Unit := .modify fun w => (f w.1, w.2)

/-- The limit of `i64`. -/
def i64Size : Nat := 2 ^ 63

/-- `reserve_ftruncate`. -/
def reserveFtruncate (newReservedLen : Nat) : WriterM Unit := do
  if i64Size ≤ newReservedLen then .fail .outOfMemory
  .onSnd (Os.setLen newReservedLen)
  update fun w => { w with reservedLen := newReservedLen }

/-- `EIGHT_GIB`. -/
def eightGib : Nat := 8 * 1024 * 1024 * 1024

/-- `reserve_sparse`. -/
def reserveSparse : WriterM Unit := do
  match ← (Method.onSnd Os.testForHole).attempt with
  | .ok true => do
      let (w, _) ← .get
      let addGib := w.reservedLen + eightGib
      if i64Size ≤ addGib then .fail .outOfMemory
      .onSnd (Os.setLen addGib)
      update fun w => { w with reservedLen := addGib }
  | .ok false => update fun w => { w with sparseFile := false }
  -- may retry this test later, but the prior allocation succeeded
  | .error _ => pure ()

/-- `remap`: the mapping gets the reserved length. -/
def remap : WriterM Unit := do
  .onSnd Os.call
  update fun w => { w with mmap := w.reservedLen }

/-- `MIN_RESERVE_LEN`. -/
def minReserveLen : Nat := 8 * 1024

/-- `self.sparse_file && self.reserve_ftruncate(..).is_ok() && self.reserve_sparse(..).is_ok()`. -/
def sparseAlloc (newReservation : Nat) : WriterM Bool := do
  let (w, _) ← .get
  if w.sparseFile then do
    match ← (reserveFtruncate newReservation).attempt with
    | .error _ => pure false
    | .ok () => do
        match ← reserveSparse.attempt with
        | .error _ => pure false
        | .ok () => pure true
  else pure false

/-- `reserve_for`. -/
def reserveFor (bufLen : Nat) : WriterM Unit := do
  let (w, _) ← .get
  let remainingLen ← .ofExec (usizeSub w.reservedLen w.writtenLen)
  if remainingLen < bufLen then do
    let extendLen := bufLen - remainingLen
    let newReservation ← .ofExec (usizeAdd w.reservedLen (max extendLen minReserveLen))
    .onSnd Os.openMmapFile
    let sparse ← sparseAlloc newReservation
    if !sparse then do
      .onSnd (Os.setLen newReservation)
      update fun w => { w with reservedLen := newReservation }
    remap

/-- `write_data`: the slice of the mapping is bounds-checked. -/
def writeData (buf : List UInt8) : WriterM Unit := do
  let (w, _) ← .get
  let newLen ← .ofExec (usizeAdd w.writtenLen buf.length)
  if w.mmap < newLen then .ofExec (.error .indexOutOfBounds)
  .modify fun (w, os) =>
    ({ w with writtenLen := newLen }, { os with file := overwrite os.file w.writtenLen buf })

/-- `truncate`: a failing `set_len` is unwrapped. -/
def truncate : WriterM Unit := do
  let (w, _) ← .get
  if w.writtenLen < w.reservedLen then do
    .onSnd Os.openMmapFile
    (Method.onSnd (Os.setLen w.writtenLen)).orPanic .unwrapNone
    update fun w => { w with reservedLen := w.writtenLen }
    remap

/-- `Write::write`. -/
def write (buf : List UInt8) : WriterM Nat := do
  reserveFor buf.length
  writeData buf
  pure buf.length

/-- `Write::write_vectored`: one reservation for all the buffers. -/
def writeVectored (bufs : List (List UInt8)) : WriterM Nat := do
  reserveFor (bufs.map List.length).sum
  .forEach writeData bufs
  pure (bufs.map List.length).sum

/-- `Write::flush`. -/
def flush : WriterM Unit := do
  truncate
  .onSnd Os.call

/-- `Drop::drop`. -/
def drop : WriterM Unit := truncate.orPanic .explicit

/-- `get_map`: flush, and take the mapping out of the writer, leaving a stub. -/
def getMap : WriterM Nat := do
  flush
  .onSnd Os.openMmapFile
  let stubMmap ← .onSnd Os.map
  let (w, _) ← .get
  update fun w => { w with mmap := stubMmap }
  pure w.mmap

end MmapWriter

/-! ## The switching mapping -/

/-- `ReadMmap`; a mapping is its length. -/
inductive ReadMmap where
  | empty
  | nonEmpty (mmap : Nat)
  deriving DecidableEq, Repr

namespace ReadMmap

/-- `AsRef<[u8]>`. -/
def asRef (self : ReadMmap) (file : List UInt8) : List UInt8 :=
  match self with
  | .empty => []
  | .nonEmpty mmap => file.take mmap

/-- `new_arc`. -/
def newArc : Method IoError Os ReadMmap := do
  Os.openMmapFile
  let len ← Os.len
  if len = 0 then pure .empty
  else do
    let mmap ← Os.map
    pure (.nonEmpty mmap)

end ReadMmap

/-- `SwitchingMmap`; the number beside a mapping is that of the live guards that share it, so that
`Arc::try_unwrap` succeeds when it is zero. -/
inductive SwitchingMmap where
  | invalid
  | readMmap (mmap : ReadMmap) (guards : Nat)
  | writeMmap (mmap : MmapWriter) (guards : Nat)
  deriving DecidableEq, Repr

/-- `Mmap`, beside its file: what the mutex holds. -/
abbrev Mmap : Type := SwitchingMmap × Os

/-- Methods of an `Mmap`. -/
abbrev MmapM (α : Type) : Type := Method IoError Mmap α

namespace SwitchingMmap

/-- Hold another mapping. -/
def hold (mmap : SwitchingMmap) : MmapM Unit := .modify fun m => (mmap, m.2)

/-- A call on the file whose failure leaves no mapping. -/
def orInvalid {α : Type} (m : Method IoError Os α) : MmapM α := do
  match ← (Method.onSnd m).attempt with
  | .ok a => pure a
  | .error e => do
      hold .invalid
      .fail e

/-- A call on a writer that is not held any more, beside the file. -/
def onWriter {α : Type} (w : MmapWriter) (m : MmapWriter.WriterM α) :
    MmapM (Except IoError α × MmapWriter) := fun (held, os) =>
  match m (w, os) with
  | .error p => .error p
  | .ok (r, (w, os)) => .ok (.ok (r, w), (held, os))

/-- `read_handle`, with the held mapping already taken out: a guard for reading, or an error; either way
the mapping to be held is put back. -/
def readHandle (held : SwitchingMmap) : MmapM Unit :=
  match held with
  | .writeMmap writer guards =>
      if guards = 0 then do
        if 0 < writer.writtenLen then do
          match ← onWriter writer MmapWriter.getMap with
          | (.error e, writer) => do
              hold (.writeMmap writer 0)
              .fail e
          | (.ok map, writer) => do
              -- the writer that `get_map` consumed is dropped
              let _ ← onWriter writer MmapWriter.drop
              -- `make_read_only`
              orInvalid Os.call
              hold (.readMmap (.nonEmpty map) 1)
        else do
          -- the writer is dropped at the end of its scope
          let _ ← onWriter writer MmapWriter.drop
          hold (.readMmap .empty 1)
      else do
        hold (.writeMmap writer guards)
        .fail .writeHandleOpen
  | .readMmap mmap guards => hold (.readMmap mmap (guards + 1))
  | .invalid => do
      let mmap ← orInvalid ReadMmap.newArc
      hold (.readMmap mmap 1)

/-- `write_handle`, with the held mapping already taken out. -/
def writeHandle (held : SwitchingMmap) : MmapM Unit :=
  match held with
  | .writeMmap writer guards =>
      if guards = 0 then hold (.writeMmap writer 1)
      else do
        hold (.writeMmap writer guards)
        .fail .writeHandleOpen
  | .readMmap mmap guards =>
      if guards = 0 then
        match mmap with
        | .nonEmpty mmap => do
            -- `make_mut`
            orInvalid Os.call
            hold (.writeMmap (.fromArgs mmap) 1)
        | .empty => do
            let writer ← orInvalid MmapWriter.noAdvise
            hold (.writeMmap writer 1)
      else do
        hold (.readMmap mmap guards)
        .fail .readHandleOpen
  | .invalid => do
      let writer ← orInvalid MmapWriter.noAdvise
      hold (.writeMmap writer 1)

end SwitchingMmap

namespace Mmap

/-- `Mmap::new`, on the file `os`. -/
def new : Method IoError Os SwitchingMmap := do
  let mmap ← ReadMmap.newArc
  pure (.readMmap mmap 0)

/-- `ReadDisk::read_disk`. -/
def readDisk : MmapM Unit := do
  let (held, _) ← .get
  held.readHandle

/-- `WriteDisk::write_disk`. -/
def writeDisk : MmapM Unit := do
  let (held, _) ← .get
  held.writeHandle

/-- Read everything through a guard for reading. -/
def readGuard : MmapM (List UInt8) := fun (held, os) =>
  match held with
  | .readMmap mmap _ => .ok (.ok (mmap.asRef os.file), (held, os))
  | _ => .error .unwrapNone

/-- A call on the writer through the guard for writing. -/
def writeGuard {α : Type} (m : MmapWriter.WriterM α) : MmapM α := fun (held, os) =>
  match held with
  | .writeMmap writer guards =>
      match m (writer, os) with
      | .error p => .error p
      | .ok (r, (writer, os)) => .ok (r, (.writeMmap writer guards, os))
  | _ => .error .unwrapNone

/-- Drop a guard: the other holder of the mapping is the `Mmap` itself. -/
def dropGuard : MmapM Unit := .modify fun (held, os) =>
  match held with
  | .invalid => (.invalid, os)
  | .readMmap mmap guards => (.readMmap mmap (guards - 1), os)
  | .writeMmap writer guards => (.writeMmap writer (guards - 1), os)

end Mmap

end BackedData.Disks
