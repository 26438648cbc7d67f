/-
# BackedData.Directory.Disks — the disks that are built from a path, over one file system

The disks that a `DirectoryBackedArray` can be made of are those with `AsRef<Path>` and
`TryFrom<PathBuf>`: the three plain ones, `ZstdDisk` over one of them, `Mmap`, and `Encrypted<Plainfile>`.
Each is a `PathDisk` here: how it is built from a path and deserialized, opened for reading and for
writing, and dropped.  What a value of it carries beside its path differs: nothing, a mapping
(`BackedData.Disks.Mmap`, run on the file at the path), or secrets (`BackedData.Disks.Encrypted`).

`World` is what the calls act on: the files, the answers of the hole test, and the secrets that the random
source will give.  The crates `zstd` and `aes_gcm` are parameters.
-/
import BackedData.Directory.Basic
import BackedData.Disks.Encrypted
import BackedData.Disks.Mmap

namespace BackedData.Directory

open Logic.Files
open Logic.Outcome
open Logic.Stateful
open BackedData.Disks (Aes Encrypted EncryptedError EncryptedWriter IoError KeyNonce MmapM MmapWriter Os
  RawDisk SecretReadVec SwitchingMmap Uses)

set_option autoImplicit false

/-! ## The surroundings -/

/-- **`World`** — `secrets` lists what the random source gives, the next one first; `uses` records what
has been sealed. -/
structure World where
  tree : FileTree String
  holes : List Bool
  secrets : Nat → KeyNonce
  uses : Uses

/-- The errors of the disks, and of a format. -/
inductive DiskError where
  | file (e : FileError)
  | mmap (e : IoError)
  | encrypted (e : EncryptedError FileError)
  | zstdLevel
  | zstd
  | coder
  deriving DecidableEq, Repr

/-- Calls of a disk. -/
abbrev DiskM (α : Type) : Type := Method DiskError World α

/-- No file-system call fails from here on. -/
def World.calm (w : World) : World := { w with tree := w.tree.calm }

/-- A call on the file tree. -/
def onTree {α : Type} (f : FileTree String → Except FileError α × FileTree String) : DiskM α := fun w =>
  match f w.tree with
  | (.error e, tree) => .ok (.error (.file e), { w with tree })
  | (.ok a, tree) => .ok (.ok a, { w with tree })

/-- What the random source gives next. -/
def draw : DiskM KeyNonce := fun w =>
  .ok (.ok (w.secrets 0), { w with secrets := fun i => w.secrets (i + 1) })

/-- **`PathDisk D`** — what the repository asks of a disk that is built from a path: `TryFrom<PathBuf>`,
`Deserialize` (from what `Serialize` writes, the path), `ReadDisk` with a reader that is read to the end,
`WriteDisk` with a writer that is given all bytes, flushed and dropped together with its disk, and `Drop`. -/
structure PathDisk (D : Type) : Type 1 where
  Reader : Type
  Writer : Type
  tryFrom : Path String → DiskM D
  deserialize : Path String → DiskM D
  readDisk : D → DiskM Reader
  readToEnd : Reader → DiskM (List UInt8)
  writeDisk : D → DiskM Writer
  writeAll : List UInt8 → Writer → DiskM Unit
  drop : D → DiskM Unit

/-! ## Plain files -/

/-- `Unbuffered`. -/
structure Unbuffered where
  path : Path String
  deriving DecidableEq, Repr

/-- `WriteUnbuffered`. -/
structure WriteUnbuffered where
  path : Path String
  deriving DecidableEq, Repr

instance : AsRefPath Unbuffered := ⟨Unbuffered.path⟩

instance : AsRefPath WriteUnbuffered := ⟨WriteUnbuffered.path⟩

/-- A disk that is a path: `File::open`, and `File::options().write(true).create(true).truncate(true)`. -/
def fileDisk {D : Type} [AsRefPath D] (make : Path String → D) : PathDisk D where
  Reader := Path String
  Writer := Path String
  tryFrom path := pure (make path)
  deserialize path := pure (make path)
  readDisk disk := do
    onTree (FileTree.openRead (AsRefPath.path disk))
    pure (AsRefPath.path disk)
  readToEnd file := onTree (FileTree.read file)
  writeDisk disk := do
    onTree (FileTree.openWrite (AsRefPath.path disk))
    pure (AsRefPath.path disk)
  writeAll bytes file := onTree (FileTree.write file bytes)
  drop _ := pure ()

/-- `BufWriter<File>`. -/
structure BufWriter where
  path : Path String
  buffer : List UInt8
  deriving DecidableEq, Repr

namespace BufWriter

/-- The capacity, in bytes. -/
def capacity : Nat := 8 * 1024

/-- `flush_buf`. -/
def flushBuf (self : BufWriter) (tree : FileTree String) :
    Except FileError Unit × BufWriter × FileTree String :=
  if self.buffer = [] then (.ok (), self, tree)
  else
    match tree.append self.path self.buffer with
    | (.error e, tree) => (.error e, self, tree)
    | (.ok (), tree) => (.ok (), { self with buffer := [] }, tree)

/-- What does not fit is written out first; what is as long as the buffer is not kept there at all. -/
def writeAll (bytes : List UInt8) (self : BufWriter) (tree : FileTree String) :
    Except FileError Unit × BufWriter × FileTree String :=
  match if capacity - self.buffer.length < bytes.length then self.flushBuf tree
    else (.ok (), self, tree) with
  | (.error e, self, tree) => (.error e, self, tree)
  | (.ok (), self, tree) =>
      if bytes.length < capacity then (.ok (), { self with buffer := self.buffer ++ bytes }, tree)
      else
        match tree.append self.path bytes with
        | (r, tree) => (r, self, tree)

/-- Bytes that come in pieces; behind a piece that is not taken, no more come. -/
def writePieces : List (List UInt8) → BufWriter → FileTree String →
    Except FileError Unit × BufWriter × FileTree String
  | [], self, tree => (.ok (), self, tree)
  | piece :: pieces, self, tree =>
      match writeAll piece self tree with
      | (.error e, self, tree) => (.error e, self, tree)
      | (.ok (), self, tree) => writePieces pieces self tree

/-- All pieces, a flush, and the drop.  That writes out what the buffer still holds, also behind an error, and
whether it succeeds is not looked at. -/
def writeOut (pieces : List (List UInt8)) (self : BufWriter) (tree : FileTree String) :
    Except FileError Unit × FileTree String :=
  match writePieces pieces self tree with
  | (.error e, self, tree) => (.error e, (self.flushBuf tree).2.2)
  | (.ok (), self, tree) =>
      match self.flushBuf tree with
      | (r, self, tree) => (r, (self.flushBuf tree).2.2)

end BufWriter

/-- `Plainfile`, under an encoder that hands over its bytes in these pieces: `BufReader<File>` and
`BufWriter<File>`. -/
def bufferedDisk (pieces : List UInt8 → List (List UInt8)) : PathDisk Plainfile :=
  { fileDisk Plainfile.mk with
    Writer := BufWriter
    writeDisk := fun disk => do
      onTree (FileTree.openWrite disk.path)
      pure { path := disk.path, buffer := [] }
    writeAll := fun bytes target => onTree (BufWriter.writeOut (pieces bytes) target) }

/-- `Plainfile`, under one that hands them over at once. -/
def plainfileDisk : PathDisk Plainfile := bufferedDisk fun bytes => [bytes]

/-- `Unbuffered`: `File` for both. -/
def unbufferedDisk : PathDisk Unbuffered := fileDisk Unbuffered.mk

/-- `WriteUnbuffered`: `BufReader<File>` and `File`. -/
def writeUnbufferedDisk : PathDisk WriteUnbuffered := fileDisk WriteUnbuffered.mk

/-! ## Compression -/

/-- The crate `zstd`: what an encoder writes, and what a decoder reads; `none` where the frame is
malformed. -/
structure Zstd where
  compress : Nat → List UInt8 → List UInt8
  decompress : List UInt8 → Option (List UInt8)

/-- `ZstdDisk`. -/
structure ZstdDisk (B : Type) where
  inner : B
  deriving DecidableEq, Repr

instance {B : Type} [AsRefPath B] : AsRefPath (ZstdDisk B) := ⟨fun disk => AsRefPath.path disk.inner⟩

/-- `ZstdLevel::new`. -/
def zstdLevel (value : UInt8) : Option Nat := if value.toNat < 23 then some value.toNat else none

/-- `ZstdDisk` at a level.  The level is checked when the inner disk has been opened already; the flush
ends the frame and flushes the inner writer. -/
def zstdDisk {B : Type} (zstd : Zstd) (level : UInt8) (inner : PathDisk B) : PathDisk (ZstdDisk B) where
  Reader := inner.Reader
  Writer := Nat × inner.Writer
  tryFrom path := do
    let disk ← inner.tryFrom path
    pure ⟨disk⟩
  deserialize path := do
    let disk ← inner.deserialize path
    pure ⟨disk⟩
  readDisk disk := inner.readDisk disk.inner
  readToEnd source := do
    let bytes ← inner.readToEnd source
    match zstd.decompress bytes with
    | none => .fail .zstd
    | some out => pure out
  writeDisk disk := do
    let target ← inner.writeDisk disk.inner
    match zstdLevel level with
    | none => .fail .zstdLevel
    | some level => pure (level, target)
  writeAll bytes target := inner.writeAll (zstd.compress target.1 bytes) target.2
  drop disk := inner.drop disk.inner

/-! ## Mapped files -/

/-- `Mmap`, with its path. -/
structure MmapDisk where
  path : Path String
  mmap : SwitchingMmap
  deriving DecidableEq, Repr

instance : AsRefPath MmapDisk := ⟨MmapDisk.path⟩

/-- A file of the tree, as `BackedData.Disks.Os` has it. -/
def World.toOs (w : World) (file : List UInt8) : Os :=
  { file, faults := w.tree.faults, holes := w.holes }

/-- The world with what is left of a file and of the schedules. -/
def World.putOs (w : World) (path : Path String) (os : Os) : World :=
  { w with
    tree := { w.tree with files := w.tree.files.insert path os.file, faults := os.faults }
    holes := os.holes }

/-- Calls on the file at a path. -/
def onFile {α : Type} (path : Path String) (m : Method IoError Os α) : DiskM α := fun w =>
  match w.tree.content path with
  | none => .ok (.error (.file .notFound), w)
  | some file =>
      match m (w.toOs file) with
      | .error p => .error p
      | .ok (r, os) => .ok (r.mapError .mmap, w.putOs path os)

/-- Calls the first of which is `open_mmap_file`: it creates the file where it is missing. -/
def openMmapFile {α : Type} (path : Path String) (m : Method IoError Os α) : DiskM α := do
  onTree (FileTree.openCreate path)
  -- that was the first call of `m`
  onFile path fun os => m { os with faults := false :: os.faults }

/-- Calls on what the mutex holds, which return it as well. -/
def holding {α : Type} (mmap : SwitchingMmap) (m : MmapM α) : Method IoError Os (α × SwitchingMmap) :=
  fun os =>
    match m (mmap, os) with
    | .error p => .error p
    | .ok (.error e, (_, os)) => .ok (.error e, os)
    | .ok (.ok a, (mmap, os)) => .ok (.ok (a, mmap), os)

/-- `Drop` of what an `Mmap` holds: only a writer does something, and only if it has reserved more than
it wrote. -/
def dropMmap (disk : MmapDisk) : DiskM Unit :=
  match disk.mmap with
  | .writeMmap writer _ =>
      if writer.writtenLen < writer.reservedLen then
        (openMmapFile disk.path fun os =>
          match MmapWriter.drop (writer, os) with
          | .error p => .error p
          | .ok (r, (_, os)) => .ok (r, os)).orPanic .explicit
      else pure ()
  | _ => pure ()

/-- Write all bytes through the guard, flush it and drop it. -/
def writeMmap (bytes : List UInt8) : MmapM Unit := do
  let _ ← Disks.Mmap.writeGuard (MmapWriter.write bytes)
  Disks.Mmap.writeGuard MmapWriter.flush
  Disks.Mmap.dropGuard

/-- `Mmap`. -/
def mmapDisk : PathDisk MmapDisk where
  Reader := MmapDisk
  Writer := MmapDisk
  tryFrom path := do
    let mmap ← openMmapFile path Disks.Mmap.new
    pure { path, mmap }
  deserialize path := do
    let mmap ← openMmapFile path Disks.Mmap.new
    pure { path, mmap }
  readDisk disk := do
    let ((), mmap) ← onFile disk.path (holding disk.mmap Disks.Mmap.readDisk)
    pure { disk with mmap }
  readToEnd source := do
    let (bytes, _) ← onFile source.path (holding source.mmap Disks.Mmap.readGuard)
    pure bytes
  writeDisk disk := do
    let ((), mmap) ← onFile disk.path (holding disk.mmap Disks.Mmap.writeDisk)
    pure { disk with mmap }
  writeAll bytes target := do
    let (r, mmap) ← onFile target.path (holding target.mmap (writeMmap bytes).attempt)
    -- the disk is dropped, also after an error
    dropMmap { target with mmap }
    match r with
    | .error e => .fail (.mmap e)
    | .ok () => pure ()
  drop := dropMmap

/-! ## Encryption -/

/-- `Plainfile` under an `Encrypted`.  Dropping the writer writes out what it holds; whether that
succeeds is not looked at. -/
def plainfileRaw : RawDisk Plainfile BufWriter (FileTree String) FileError where
  readToEnd disk tree :=
    match tree.openRead disk.path with
    | (.error e, tree) => (.error e, disk, tree)
    | (.ok (), tree) =>
        match tree.read disk.path with
        | (r, tree) => (r, disk, tree)
  writeDisk disk tree :=
    match tree.openWrite disk.path with
    | (.error e, tree) => (.error e, disk, tree)
    | (.ok (), tree) => (.ok { path := disk.path, buffer := [] }, disk, tree)
  writeAll := BufWriter.writeAll
  flush := BufWriter.flushBuf
  drop target tree := (target.flushBuf tree).2.2

instance {D : Type} [AsRefPath D] : AsRefPath (Encrypted D) := ⟨fun disk => AsRefPath.path disk.inner⟩

/-- `Encrypted<Plainfile>`: both `TryFrom<PathBuf>` and `Deserialize` draw secrets. -/
def encryptedDisk (aes : Aes) : PathDisk (Encrypted Plainfile) where
  Reader := SecretReadVec
  Writer := EncryptedWriter BufWriter
  tryFrom path := do
    let generated ← draw
    pure (.ofInner ⟨path⟩ generated)
  deserialize path := do
    let secrets ← draw
    pure { inner := ⟨path⟩, secrets }
  readDisk disk := fun w =>
    match disk.readDisk aes plainfileRaw w.tree with
    | (r, _, tree) => .ok (r.mapError .encrypted, { w with tree })
  readToEnd source := pure source.readToEnd
  writeDisk disk := fun w =>
    match disk.writeDisk plainfileRaw w.tree with
    | (r, _, tree) => .ok (r.mapError .encrypted, { w with tree })
  writeAll bytes target := fun w =>
    match (target.write bytes : Except (EncryptedError FileError) Nat × EncryptedWriter BufWriter) with
    | (.error e, target) =>
        .ok (.error (.encrypted e), { w with tree := plainfileRaw.drop target.inner w.tree })
    | (.ok _, target) =>
        match target.flush aes plainfileRaw w.uses w.tree with
        | (r, target, uses, tree) =>
            .ok (r.mapError .encrypted, { w with uses, tree := plainfileRaw.drop target.inner tree })
  drop _ := pure ()

/-! ## The types of disks -/

/-- The plain disks. -/
inductive PlainType where
  | plainfile
  | unbuffered
  | writeUnbuffered
  deriving DecidableEq, Repr

/-- The disks that are built from a path. -/
inductive DiskType where
  | plain (file : PlainType)
  | zstd (level : UInt8) (inner : PlainType)
  | mmap
  | encrypted
  deriving DecidableEq, Repr

/-- The values of a plain disk. -/
def PlainType.Disk : PlainType → Type
  | .plainfile => Plainfile
  | .unbuffered => Unbuffered
  | .writeUnbuffered => WriteUnbuffered

instance : (file : PlainType) → AsRefPath file.Disk
  | .plainfile => inferInstanceAs (AsRefPath Plainfile)
  | .unbuffered => inferInstanceAs (AsRefPath Unbuffered)
  | .writeUnbuffered => inferInstanceAs (AsRefPath WriteUnbuffered)

/-- The values of a disk. -/
def DiskType.Disk : DiskType → Type
  | .plain file => file.Disk
  | .zstd _ inner => ZstdDisk inner.Disk
  | .mmap => MmapDisk
  | .encrypted => Encrypted Plainfile

instance : (t : DiskType) → AsRefPath t.Disk
  | .plain file => inferInstanceAs (AsRefPath file.Disk)
  | .zstd _ inner => inferInstanceAs (AsRefPath (ZstdDisk inner.Disk))
  | .mmap => inferInstanceAs (AsRefPath MmapDisk)
  | .encrypted => inferInstanceAs (AsRefPath (Encrypted Plainfile))

/-- The crates that the disks rest on. -/
structure Crates where
  zstd : Zstd
  aes : Aes

/-- The calls of a plain disk. -/
def PlainType.ops : (file : PlainType) → PathDisk file.Disk
  | .plainfile => plainfileDisk
  | .unbuffered => unbufferedDisk
  | .writeUnbuffered => writeUnbufferedDisk

/-- The calls of a disk. -/
def DiskType.ops (crates : Crates) : (t : DiskType) → PathDisk t.Disk
  | .plain file => file.ops
  | .zstd level inner => zstdDisk crates.zstd level inner.ops
  | .mmap => mmapDisk
  | .encrypted => encryptedDisk crates.aes

end BackedData.Directory
