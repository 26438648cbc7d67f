/-
# BackedData.Directory.Basic — `DirectoryBackedArray`: the chunks of an array as files of one directory

`directory/mod.rs`, and the operations of `directory/sync_impl.rs` and `directory/async_impl.rs` that
join two arrays.  Three things change there separately: the files (moved by `rename`, or by `copy` and
`remove_file`), the path that an entry records as its disk, and the key ranges (`BackedArray::merge`).

A disk is anything that names a path; `Plainfile` is the path itself, and its `Medium` reads and writes
that file of a `FileTree`.  The format is a parameter, the pair of its encoder and its decoder.
-/
import BackedData.Array.Basic
import BackedData.Logic.Files
import BackedData.Logic.Stateful

namespace BackedData.Directory

open Logic.Files
open Logic.Outcome
open Logic.Stateful
open BackedData.Entry
open BackedData.Array

set_option autoImplicit false

/-! ## Disks in a file tree -/

/-- `AsRef<Path>`. -/
class AsRefPath (D : Type) where
  path : D → Path String

/-- `Plainfile`. -/
structure Plainfile where
  path : Path String
  deriving DecidableEq, Repr

instance : AsRefPath Plainfile := ⟨Plainfile.path⟩

/-- A format: what it writes for a value, and which bytes it reads back as one. -/
structure Codec (T C : Type) where
  encode : C → T → List UInt8
  decode : C → List UInt8 → Option T

/-- The errors of an entry on a file: of the file, or of the format. -/
inductive PlainError where
  | file (e : FileError)
  | coder
  deriving DecidableEq, Repr

/-- `Plainfile` as a disk: `File::options().write(true).create(true).truncate(true)` for writing,
`File::open` for reading. -/
def plainfile {T C : Type} (codec : Codec T C) :
    Medium T Plainfile C (FileTree String) PlainError where
  writeDisk d tree :=
    match tree.openWrite d.path with
    | (.error e, tree) => (.error (.file e), d, tree)
    | (.ok (), tree) => (.ok (), d, tree)
  encode c v d tree :=
    match tree.write d.path (codec.encode c v) with
    | (.error e, tree) => (.error (.file e), d, tree)
    | (.ok (), tree) => (.ok (), d, tree)
  readDisk d tree :=
    match tree.openRead d.path with
    | (.error e, tree) => (.error (.file e), d, tree)
    | (.ok (), tree) => (.ok (), d, tree)
  decode c d tree :=
    match tree.read d.path with
    | (.error e, tree) => (.error (.file e), d, tree)
    | (.ok bytes, tree) =>
        match codec.decode c bytes with
        | none => (.error .coder, d, tree)
        | some v => (.ok v, d, tree)

/-! ## The array of a directory -/

/-- `META_FILE`. -/
def metaFile : String := "meta.dat"

/-- `DirectoryBackedArray`. -/
structure DirectoryBackedArray (T D C : Type) where
  array : BackedArray (Chunk T D C)
  directoryRoot : Path String

/-- Calls on the file tree. -/
abbrev FilesM (α : Type) : Type := Method FileError (FileTree String) α

variable {T D C : Type} [AsRefPath D]

/-- The closure of `append_dir`, `append_array` and `a_append_dir`: move the file of a chunk into the
directory, by `rename` or, where that fails, by `copy` and `remove_file`. -/
def moveChunk (directoryRoot : Path String) (chunk : Chunk T D C) : FilesM Unit := do
  let disk := AsRefPath.path chunk.disk
  let name ← .ofExec (unwrap disk.fileName)
  let newLoc := directoryRoot.join name
  if disk ≠ newLoc then do
    match ← (Method.ofCall (FileTree.rename disk newLoc)).attempt with
    | .ok () => pure ()
    | .error _ => do
        .ofCall (FileTree.copy disk newLoc)
        .ofCall (FileTree.removeFile disk)

namespace DirectoryBackedArray

/-- `append_dir`: what `self` is afterwards; an error leaves it as it was. -/
def appendDir (self rhs : DirectoryBackedArray T D C) : FilesM (DirectoryBackedArray T D C) := do
  if self.directoryRoot ≠ rhs.directoryRoot then do
    .forEach (moveChunk self.directoryRoot) rhs.array.entries
    let _ ← (Method.ofCall (FileTree.removeFile (rhs.directoryRoot.join metaFile))).attempt
    let _ ← (Method.ofCall (FileTree.removeDir rhs.directoryRoot)).attempt
  let array ← .ofExec (self.array.merge rhs.array)
  pure { self with array }

/-- `append_array`. -/
def appendArray (self : DirectoryBackedArray T D C) (rhs : BackedArray (Chunk T D C)) :
    FilesM (DirectoryBackedArray T D C) := do
  .forEach (moveChunk self.directoryRoot) rhs.entries
  let array ← .ofExec (self.array.merge rhs)
  pure { self with array }

/-- `a_append_dir`: the stream runs one future after another, and the meta file of `rhs` stays. -/
def aAppendDir (self rhs : DirectoryBackedArray T D C) : FilesM (DirectoryBackedArray T D C) := do
  if self.directoryRoot ≠ rhs.directoryRoot then do
    .forEach (moveChunk self.directoryRoot) rhs.array.entries
    let _ ← (Method.ofCall (FileTree.removeDir rhs.directoryRoot)).attempt
  let array ← .ofExec (self.array.merge rhs.array)
  pure { self with array }

end DirectoryBackedArray

end BackedData.Directory
