/-
# BackedData.Logic.Files — a file system: paths, files, directories

A path is the list of its components; two paths name the same file exactly when they are equal.  So there
are no links, and no two spellings of one directory: `.` and the absolute path of the directory it stands
for are two directories here.  The tree holds the bytes of every file and the directories, and a schedule of
the calls still to fail.  Each call is a function on the tree that returns its result and the tree it
leaves, also when it fails.

The rules say what a call that succeeded has done to one path, and that it has left every other one alone.
-/
import Mathlib.Data.List.AList

namespace Logic.Files

set_option autoImplicit false

/-! ## Paths -/

/-- A component of a path, over the names of files. -/
inductive Component (N : Type) where
  | rootDir
  | curDir
  | parentDir
  | normal (name : N)
  deriving DecidableEq, Repr

/-- A path, by its components. -/
abbrev Path (N : Type) : Type := List (Component N)

namespace Path

variable {N : Type}

/-- The last component, if it is a name. -/
def fileName (path : Path N) : Option N :=
  match path.getLast? with
  | some (.normal name) => some name
  | _ => none

/-- The path of a name in a directory. -/
def join (dir : Path N) (name : N) : Path N := dir ++ [.normal name]

/-- The path without its last component. -/
def parent (path : Path N) : Path N := path.dropLast

/-- The path that a path gets when the directory `src` is moved to `dst`. -/
def rebase [DecidableEq N] (path src dst : Path N) : Path N :=
  if src <+: path then dst ++ path.drop src.length else path

@[simp] theorem fileName_join (dir : Path N) (name : N) : (dir.join name).fileName = some name := by
  unfold fileName join
  rw [List.getLast?_append]
  rfl

/-- Joined paths are equal only if made of the same directory and name. -/
theorem join_inj {dir dir' : Path N} {name name' : N} (h : dir.join name = dir'.join name') :
    dir = dir' ∧ name = name' := by
  obtain ⟨hdir, hname⟩ := List.append_inj' h rfl
  have hnormal : Component.normal name = Component.normal name' := (List.cons.inj hname).1
  exact ⟨hdir, Component.normal.inj hnormal⟩

end Path

/-! ## The tree and its calls -/

/-- Why a call failed. -/
inductive FileError where
  | failed
  | notFound
  | notADirectory
  | isADirectory
  | directoryNotEmpty
  | busy
  | invalidInput
  | alreadyExists
  deriving DecidableEq, Repr

/-- **`FileTree`** — the files with their bytes, the directories, and the faults to come. -/
structure FileTree (N : Type) where
  files : AList fun _ : Path N => List UInt8
  dirs : List (Path N)
  faults : List Bool

namespace FileTree

section Schedule

variable {N α : Type} {f : FileTree N → Except FileError α × FileTree N} {tree t : FileTree N}

/-- Nothing fails from here on. -/
def calm (tree : FileTree N) : FileTree N := { tree with faults := [] }

/-- Does the next call fail? -/
def failsNext (tree : FileTree N) : Bool := tree.faults.head?.getD false

/-- Does the call behind so many others fail? -/
def failsAt (n : Nat) (tree : FileTree N) : Bool := tree.faults[n]?.getD false

/-- After so many calls it is the next one. -/
theorem failsNext_drop {n : Nat} (h : t.faults = tree.faults.drop n) : t.failsNext = tree.failsAt n := by
  unfold failsNext failsAt
  rw [h, List.head?_drop]

/-- A call, unless the schedule makes it fail. -/
def unlessFault (f : FileTree N → Except FileError α × FileTree N) (tree : FileTree N) :
    Except FileError α × FileTree N :=
  if tree.failsNext then (.error .failed, { tree with faults := tree.faults.tail })
  else f { tree with faults := tree.faults.tail }

/-- With no call still to fail, it is the call. -/
theorem unlessFault_calm (h : tree.faults = []) : unlessFault f tree = f tree := by
  have hsucceeds : ¬tree.failsNext = true := by
    unfold failsNext
    rw [h]
    exact Bool.false_ne_true
  have htree : { tree with faults := tree.faults.tail } = tree := by
    rw [h, List.tail_nil, ← h]
  unfold unlessFault
  rw [if_neg hsucceeds, htree]

theorem unlessFault_ok {a : α} (h : unlessFault f tree = (.ok a, t)) :
    tree.failsNext = false ∧ f { tree with faults := tree.faults.tail } = (.ok a, t) := by
  unfold unlessFault at h
  by_cases hf : tree.failsNext = true
  · rw [if_pos hf] at h
    cases h
  · rw [if_neg hf] at h
    exact ⟨by simpa using hf, h⟩

/-- An error is the schedule's, or the call's. -/
theorem unlessFault_error {e : FileError} (h : unlessFault f tree = (.error e, t)) :
    e = .failed ∨ f { tree with faults := tree.faults.tail } = (.error e, t) := by
  unfold unlessFault at h
  by_cases hf : tree.failsNext = true
  · rw [if_pos hf] at h
    cases h
    exact Or.inl rfl
  · rw [if_neg hf] at h
    exact Or.inr h

/-- What holds after a failing call, and after the call itself, holds. -/
theorem unlessFault_keeps {P : FileTree N → Prop}
    (hfault : tree.failsNext = true → P { tree with faults := tree.faults.tail })
    (hcall : tree.failsNext = false → P (f { tree with faults := tree.faults.tail }).2) :
    P (unlessFault f tree).2 := by
  unfold unlessFault
  by_cases hf : tree.failsNext = true
  · rw [if_pos hf]
    exact hfault hf
  · rw [if_neg hf]
    exact hcall (by simpa using hf)

end Schedule

variable {N : Type} [DecidableEq N]

/-- The bytes of a file. -/
def content (tree : FileTree N) (path : Path N) : Option (List UInt8) := tree.files.lookup path

theorem mem_keys_iff {tree : FileTree N} {path : Path N} :
    path ∈ tree.files.keys ↔ tree.content path ≠ none := by
  show path ∈ tree.files ↔ tree.files.lookup path ≠ none
  rw [← AList.lookup_isSome, Option.isSome_iff_ne_none]

/-- Open a file for reading. -/
def openRead (path : Path N) : FileTree N → Except FileError Unit × FileTree N :=
  unlessFault fun tree =>
    match tree.content path with
    | none => (.error .notFound, tree)
    | some _ => (.ok (), tree)

/-- Read a file that is open. -/
def read (path : Path N) : FileTree N → Except FileError (List UInt8) × FileTree N :=
  unlessFault fun tree =>
    match tree.content path with
    | none => (.error .notFound, tree)
    | some bytes => (.ok bytes, tree)

/-- Open a file for writing: it is created, or emptied. -/
def openWrite (path : Path N) : FileTree N → Except FileError Unit × FileTree N :=
  unlessFault fun tree =>
    if path ∈ tree.dirs then (.error .isADirectory, tree)
    else if path.parent ∈ tree.dirs then
      (.ok (), { tree with files := tree.files.insert path [] })
    else (.error .notFound, tree)

/-- Write all the bytes of a file that is open. -/
def write (path : Path N) (bytes : List UInt8) : FileTree N → Except FileError Unit × FileTree N :=
  unlessFault fun tree => (.ok (), { tree with files := tree.files.insert path bytes })

/-- Write at the end of a file that is open. -/
def append (path : Path N) (bytes : List UInt8) : FileTree N → Except FileError Unit × FileTree N :=
  unlessFault fun tree =>
    (.ok (), { tree with files := tree.files.insert path ((tree.content path).getD [] ++ bytes) })

/-- Open a file and leave its content; it is created where it is missing. -/
def openCreate (path : Path N) : FileTree N → Except FileError Unit × FileTree N :=
  unlessFault fun tree =>
    if path ∈ tree.dirs then (.error .isADirectory, tree)
    else
      match tree.content path with
      | some _ => (.ok (), tree)
      | none =>
          if path.parent ∈ tree.dirs then (.ok (), { tree with files := tree.files.insert path [] })
          else (.error .notFound, tree)

/-- Remove a file. -/
def removeFile (path : Path N) : FileTree N → Except FileError Unit × FileTree N :=
  unlessFault fun tree =>
    match tree.content path with
    | none => (.error .notFound, tree)
    | some _ => (.ok (), { tree with files := tree.files.erase path })

/-- Move a file; one that is at the target is replaced. -/
def rename (src dst : Path N) : FileTree N → Except FileError Unit × FileTree N :=
  unlessFault fun tree =>
    match tree.content src with
    | none => (.error .notFound, tree)
    | some bytes =>
        if dst ∈ tree.dirs then (.error .isADirectory, tree)
        else if dst.parent ∈ tree.dirs then
          (.ok (), { tree with files := (tree.files.erase src).insert dst bytes })
        else (.error .notFound, tree)

/-- Copy a file: open the one, open and empty the other, and only then read and write; a file that is
copied onto itself is lost. -/
def copy (src dst : Path N) (tree : FileTree N) : Except FileError Unit × FileTree N :=
  match tree.openRead src with
  | (.error e, tree) => (.error e, tree)
  | (.ok (), tree) =>
      match tree.openWrite dst with
      | (.error e, tree) => (.error e, tree)
      | (.ok (), tree) =>
          match tree.read src with
          | (.error e, tree) => (.error e, tree)
          | (.ok bytes, tree) => tree.write dst bytes

/-- Remove a directory, if it is empty.  A path that ends in no name is refused, as `.`, `..` and `/` are. -/
def removeDir (path : Path N) : FileTree N → Except FileError Unit × FileTree N :=
  unlessFault fun tree =>
    if path.fileName.isNone then (.error .invalidInput, tree)
    else if path ∉ tree.dirs then (.error .notADirectory, tree)
    else if (tree.files.keys ++ tree.dirs).any fun p => p ≠ [] ∧ p.parent = path then
      (.error .directoryNotEmpty, tree)
    else (.ok (), { tree with dirs := tree.dirs.erase path })

/-- Move a directory with everything below it.  A path that ends in no name is busy, a directory does not
go below itself, and one that is at the target must be empty. -/
def renameDir (src dst : Path N) : FileTree N → Except FileError Unit × FileTree N :=
  unlessFault fun tree =>
    if src.fileName.isNone ∨ dst.fileName.isNone then (.error .busy, tree)
    else if src ∉ tree.dirs then (.error .notFound, tree)
    else if src = dst then (.ok (), tree)
    else if src <+: dst then (.error .invalidInput, tree)
    else if (tree.content dst).isSome then (.error .notADirectory, tree)
    else if (tree.files.keys ++ tree.dirs).any fun p => p ≠ dst ∧ dst <+: p then
      (.error .directoryNotEmpty, tree)
    else if dst ∈ tree.dirs ∨ dst.parent ∈ tree.dirs then
      (.ok (), { tree with
        files := (tree.files.entries.map fun f => ⟨f.1.rebase src dst, f.2⟩).toAList
        dirs := (tree.dirs.erase dst).map fun p => p.rebase src dst })
    else (.error .notFound, tree)

/-- Make a directory, where there is none yet. -/
def createDir (path : Path N) : FileTree N → Except FileError Unit × FileTree N :=
  unlessFault fun tree =>
    if path ∈ tree.dirs then (.ok (), tree)
    else if (tree.content path).isSome then (.error .alreadyExists, tree)
    else (.ok (), { tree with dirs := tree.dirs ++ [path] })

/-- Make directories, one after another. -/
def createDirs : List (Path N) → FileTree N → Except FileError Unit × FileTree N
  | [], tree => (.ok (), tree)
  | p :: ps, tree =>
      match tree.createDir p with
      | (.error e, tree) => (.error e, tree)
      | (.ok (), tree) => tree.createDirs ps

/-- Make a directory and those above it. -/
def createDirAll (path : Path N) (tree : FileTree N) : Except FileError Unit × FileTree N :=
  tree.createDirs (path.inits.filter (· ≠ []))

/-! ### What the calls do to the contents -/

variable {tree t : FileTree N} {path src dst q : Path N} {bytes : List UInt8}

/-- Removing a file removes it, unless the call fails. -/
theorem removeFile_content (path q : Path N) (tree : FileTree N) :
    (tree.removeFile path).2.content q =
      if q = path ∧ tree.failsNext = false then none else tree.content q := by
  refine unlessFault_keeps (P := fun t => t.content q = _) (fun hf => ?_) fun hf => ?_
  · rw [if_neg fun h => by simp [hf] at h]
    rfl
  · rcases hc : tree.content path with _ | bytes
    · have hmiss : ({ tree with faults := tree.faults.tail } : FileTree N).content path = none := hc
      simp only [hmiss]
      by_cases hq : q = path
      · rw [if_pos ⟨hq, hf⟩, hq]
        exact hc
      · rw [if_neg fun h => hq h.1]
        rfl
    · have hhit : ({ tree with faults := tree.faults.tail } : FileTree N).content path = some bytes := hc
      simp only [hhit]
      by_cases hq : q = path
      · rw [if_pos ⟨hq, hf⟩, hq]
        exact AList.lookup_erase path tree.files
      · rw [if_neg fun h => hq h.1]
        exact AList.lookup_erase_ne hq

/-- A file that has been removed is gone; no other one is. -/
theorem removeFile_ok (h : tree.removeFile path = (.ok (), t)) :
    t.content path = none ∧ ∀ q, q ≠ path → t.content q = tree.content q := by
  have hcontent := fun q => removeFile_content path q tree
  rw [h] at hcontent
  refine ⟨?_, fun q hq => ?_⟩
  · rw [hcontent, if_pos ⟨rfl, (unlessFault_ok h).1⟩]
  · rw [hcontent, if_neg fun hc => hq hc.1]

/-- A removal that failed has left every file. -/
theorem removeFile_error {e : FileError} (h : tree.removeFile path = (.error e, t)) (q : Path N) :
    t.content q = tree.content q := by
  unfold removeFile unlessFault at h
  split at h
  next =>
    cases h
    rfl
  next =>
    simp only at h
    split at h
    next =>
      cases h
      rfl
    next => cases h

/-- The removal of a file that is there fails only where the schedule says so. -/
theorem removeFile_present {e : FileError} (hc : tree.content path = some bytes)
    (h : tree.removeFile path = (.error e, t)) : e = .failed := by
  rcases unlessFault_error h with hfault | hcall
  · exact hfault
  · have hhit : ({ tree with faults := tree.faults.tail } : FileTree N).content path = some bytes := hc
    rw [hhit] at hcall
    cases hcall

/-- Only a file that is there is removed. -/
theorem removeFile_there (h : tree.removeFile path = (.ok (), t)) : tree.content path ≠ none := by
  intro hc
  obtain ⟨-, h⟩ := unlessFault_ok h
  have hmiss : ({ tree with faults := tree.faults.tail } : FileTree N).content path = none := hc
  rw [hmiss] at h
  cases h

/-- A removal makes no directory, and is one call. -/
theorem removeFile_rest (path : Path N) (tree : FileTree N) :
    (tree.removeFile path).2.dirs = tree.dirs ∧ (tree.removeFile path).2.faults = tree.faults.tail := by
  refine unlessFault_keeps (P := fun t => t.dirs = tree.dirs ∧ t.faults = tree.faults.tail)
    (fun _ => ⟨rfl, rfl⟩) fun _ => ?_
  split
  next => exact ⟨rfl, rfl⟩
  next => exact ⟨rfl, rfl⟩

/-- After a removal there is one file less. -/
theorem removeFile_fewer (h : tree.removeFile path = (.ok (), t)) :
    t.files.keys.length < tree.files.keys.length := by
  obtain ⟨-, h⟩ := unlessFault_ok h
  dsimp only at h
  split at h
  next => cases h
  next bytes hc =>
    cases h
    have hsome : (tree.files.lookup path).isSome = true := by
      rw [show tree.files.lookup path = some bytes from hc]
      rfl
    have hkey : path ∈ tree.files.keys := AList.lookup_isSome.mp hsome
    obtain ⟨b, before, after, -, hentries, herase⟩ := List.exists_of_kerase hkey
    show ((tree.files.entries.kerase path).map Sigma.fst).length < (tree.files.entries.map Sigma.fst).length
    rw [List.length_map, List.length_map, herase, hentries]
    rw [List.length_append, List.length_append, List.length_cons]
    omega

/-- Where a file is missing, its removal changes no file. -/
theorem removeFile_missing (hc : tree.content path = none) (q : Path N) :
    (tree.removeFile path).2.content q = tree.content q := by
  rw [removeFile_content]
  split
  next h => rw [h.1, hc]
  next => rfl

/-- Removing a directory touches no file. -/
theorem removeDir_content (path q : Path N) (tree : FileTree N) :
    (tree.removeDir path).2.content q = tree.content q := by
  refine unlessFault_keeps (P := fun t => t.content q = _) (fun _ => rfl) fun _ => ?_
  dsimp only
  split
  next => rfl
  split
  next => rfl
  split
  next => rfl
  next => rfl

/-- A file that has been moved is at the target, and not where it was. -/
theorem rename_ok (h : tree.rename src dst = (.ok (), t)) (hne : src ≠ dst) :
    t.content dst = tree.content src ∧ t.content src = none ∧
      ∀ q, q ≠ src → q ≠ dst → t.content q = tree.content q := by
  obtain ⟨-, h⟩ := unlessFault_ok h
  rcases hc : tree.content src with _ | bytes
  · have hmiss : ({ tree with faults := tree.faults.tail } : FileTree N).content src = none := hc
    simp only [hmiss] at h
    cases h
  · have hhit : ({ tree with faults := tree.faults.tail } : FileTree N).content src = some bytes := hc
    simp only [hhit] at h
    split at h
    · cases h
    · split at h
      · cases h
        refine ⟨AList.lookup_insert _, ?_, fun q hsrc hdst => ?_⟩
        · exact (AList.lookup_insert_ne hne).trans (AList.lookup_erase src tree.files)
        · exact (AList.lookup_insert_ne hdst).trans (AList.lookup_erase_ne hsrc)
      · cases h

/-- A move that failed has left everything where it was. -/
theorem rename_error {e : FileError} (h : tree.rename src dst = (.error e, t)) (q : Path N) :
    t.content q = tree.content q := by
  unfold rename unlessFault at h
  split at h
  · cases h
    rfl
  · simp only at h
    split at h
    · cases h
      rfl
    · split at h
      · cases h
        rfl
      · split at h <;> cases h
        rfl

/-- Moving a file makes no directory. -/
theorem rename_dirs (src dst : Path N) (tree : FileTree N) : (tree.rename src dst).2.dirs = tree.dirs := by
  refine unlessFault_keeps (P := fun t => t.dirs = tree.dirs) (fun _ => rfl) fun _ => ?_
  dsimp only
  split
  next => rfl
  split
  next => rfl
  split
  next => rfl
  next => rfl

/-- Opening a file for reading changes nothing. -/
theorem openRead_snd (path : Path N) (tree : FileTree N) :
    (tree.openRead path).2 = { tree with faults := tree.faults.tail } := by
  refine unlessFault_keeps (P := fun t => t = _) (fun _ => rfl) fun _ => ?_
  split
  next => rfl
  next => rfl

theorem openRead_content (path q : Path N) (tree : FileTree N) :
    (tree.openRead path).2.content q = tree.content q := by
  rw [openRead_snd]
  rfl

theorem openRead_ok (h : tree.openRead path = (.ok (), t)) : ∃ bytes, tree.content path = some bytes := by
  obtain ⟨-, h⟩ := unlessFault_ok h
  split at h
  next => cases h
  next bytes hc => exact ⟨bytes, hc⟩

/-- With no call still to fail, a file that exists is opened. -/
theorem openRead_calm (hcalm : tree.faults = []) (hc : tree.content path = some bytes) :
    tree.openRead path = (.ok (), tree) := by
  unfold openRead
  rw [unlessFault_calm hcalm]
  simp only [hc]

/-- One that does not exist is not. -/
theorem openRead_missing (hcalm : tree.faults = []) (hc : tree.content path = none) :
    tree.openRead path = (.error .notFound, tree) := by
  unfold openRead
  rw [unlessFault_calm hcalm]
  simp only [hc]

/-- Reading changes nothing. -/
theorem read_snd (path : Path N) (tree : FileTree N) :
    (tree.read path).2 = { tree with faults := tree.faults.tail } := by
  refine unlessFault_keeps (P := fun t => t = _) (fun _ => rfl) fun _ => ?_
  split
  next => rfl
  next => rfl

theorem read_content (path q : Path N) (tree : FileTree N) :
    (tree.read path).2.content q = tree.content q := by
  rw [read_snd]
  rfl

theorem read_calm (hcalm : tree.faults = []) (hc : tree.content path = some bytes) :
    tree.read path = (.ok bytes, tree) := by
  unfold read
  rw [unlessFault_calm hcalm]
  simp only [hc]

theorem read_ok (h : tree.read path = (.ok bytes, t)) : tree.content path = some bytes := by
  obtain ⟨-, h⟩ := unlessFault_ok h
  split at h
  next => cases h
  next hc =>
    cases h
    exact hc

/-- A file that is there can be opened and read, unless the schedule says otherwise. -/
theorem openRead_present {e : FileError} (hc : tree.content path = some bytes)
    (h : tree.openRead path = (.error e, t)) : e = .failed := by
  rcases unlessFault_error h with hfault | hcall
  · exact hfault
  · have hhit : ({ tree with faults := tree.faults.tail } : FileTree N).content path = some bytes := hc
    rw [hhit] at hcall
    cases hcall

theorem read_present {e : FileError} (hc : tree.content path = some bytes)
    (h : tree.read path = (.error e, t)) : e = .failed := by
  rcases unlessFault_error h with hfault | hcall
  · exact hfault
  · have hhit : ({ tree with faults := tree.faults.tail } : FileTree N).content path = some bytes := hc
    rw [hhit] at hcall
    cases hcall

/-- Opening a file for writing leaves every other one alone. -/
theorem openWrite_content (tree : FileTree N) (hq : q ≠ path) :
    (tree.openWrite path).2.content q = tree.content q := by
  refine unlessFault_keeps (P := fun t => t.content q = _) (fun _ => rfl) fun _ => ?_
  dsimp only
  split
  next => rfl
  next =>
    split
    next => exact AList.lookup_insert_ne hq
    next => rfl

/-- A file that has been opened for writing is empty. -/
theorem openWrite_ok (h : tree.openWrite path = (.ok (), t)) :
    t.content path = some [] ∧ t.faults = tree.faults.tail := by
  obtain ⟨-, h⟩ := unlessFault_ok h
  dsimp only at h
  split at h
  next => cases h
  split at h
  next =>
    cases h
    exact ⟨AList.lookup_insert _, rfl⟩
  next => cases h

/-- A file that could not be opened for writing is as it was. -/
theorem openWrite_error {e : FileError} (h : tree.openWrite path = (.error e, t)) (q : Path N) :
    t.content q = tree.content q := by
  unfold openWrite unlessFault at h
  split at h
  next =>
    cases h
    rfl
  next =>
    simp only at h
    split at h
    next =>
      cases h
      rfl
    next =>
      split at h
      next => cases h
      next =>
        cases h
        rfl

/-- A write that failed has written nothing. -/
theorem write_error {e : FileError} (h : tree.write path bytes = (.error e, t)) (q : Path N) :
    t.content q = tree.content q := by
  unfold write unlessFault at h
  split at h
  next =>
    cases h
    rfl
  next => cases h

theorem openWrite_dirs (path : Path N) (tree : FileTree N) : (tree.openWrite path).2.dirs = tree.dirs := by
  refine unlessFault_keeps (P := fun t => t.dirs = tree.dirs) (fun _ => rfl) fun _ => ?_
  dsimp only
  split
  next => rfl
  split
  next => rfl
  next => rfl

/-- What a file holds after bytes have been appended, or that call has failed. -/
theorem append_content (path : Path N) (bytes : List UInt8) (tree : FileTree N) :
    (tree.append path bytes).2.content path =
      if tree.failsNext = true then tree.content path
      else some ((tree.content path).getD [] ++ bytes) := by
  refine unlessFault_keeps (P := fun t => t.content path = _) (fun hf => ?_) fun hf => ?_
  · rw [if_pos hf]
    rfl
  · rw [if_neg (Bool.eq_false_iff.mp hf)]
    exact AList.lookup_insert _

/-- Appending leaves every other file alone. -/
theorem append_others (bytes : List UInt8) (tree : FileTree N) (hq : q ≠ path) :
    (tree.append path bytes).2.content q = tree.content q :=
  unlessFault_keeps (P := fun t => t.content q = _) (fun _ => rfl) fun _ => AList.lookup_insert_ne hq

/-- An append fails only where the schedule says so. -/
theorem append_error {e : FileError} (h : tree.append path bytes = (.error e, t)) : tree.failsNext = true := by
  unfold append unlessFault at h
  split at h
  next hf => exact hf
  next => cases h

/-- Writing leaves every other file alone. -/
theorem write_content (bytes : List UInt8) (tree : FileTree N) (hq : q ≠ path) :
    (tree.write path bytes).2.content q = tree.content q :=
  unlessFault_keeps (P := fun t => t.content q = _) (fun _ => rfl) fun _ => AList.lookup_insert_ne hq

theorem write_ok (h : tree.write path bytes = (.ok (), t)) : t.content path = some bytes := by
  obtain ⟨-, h⟩ := unlessFault_ok h
  cases h
  exact AList.lookup_insert _

theorem write_dirs (path : Path N) (bytes : List UInt8) (tree : FileTree N) :
    (tree.write path bytes).2.dirs = tree.dirs :=
  unlessFault_keeps (P := fun t => t.dirs = tree.dirs) (fun _ => rfl) fun _ => rfl

/-- Copying leaves everything but the target alone, also when it fails. -/
theorem copy_content (src : Path N) (tree : FileTree N) (hq : q ≠ dst) :
    (tree.copy src dst).2.content q = tree.content q := by
  have hopen := openRead_content src q tree
  unfold copy
  rcases ho : tree.openRead src with ⟨_ | _, u⟩
  · rw [ho] at hopen
    exact hopen
  · rw [ho] at hopen
    have hcreate := openWrite_content u hq
    dsimp only
    rcases hw : u.openWrite dst with ⟨_ | _, v⟩
    · rw [hw] at hcreate
      exact hcreate.trans hopen
    · rw [hw] at hcreate
      have hread := read_content src q v
      dsimp only
      rcases hr : v.read src with ⟨_ | bytes, w⟩
      · rw [hr] at hread
        exact hread.trans (hcreate.trans hopen)
      · rw [hr] at hread
        exact (write_content bytes w hq).trans (hread.trans (hcreate.trans hopen))

/-- The calls of a copy that succeeded. -/
theorem copy_inv (h : tree.copy src dst = (.ok (), t)) : ∃ u v w bytes, tree.openRead src = (.ok (), u) ∧
    u.openWrite dst = (.ok (), v) ∧ v.read src = (.ok bytes, w) ∧ w.write dst bytes = (.ok (), t) := by
  unfold copy at h
  rcases ho : tree.openRead src with ⟨_ | _, u⟩
  · rw [ho] at h
    cases h
  · rw [ho] at h
    dsimp only at h
    rcases hw : u.openWrite dst with ⟨_ | _, v⟩
    · rw [hw] at h
      cases h
    · rw [hw] at h
      dsimp only at h
      rcases hr : v.read src with ⟨_ | bytes, w⟩
      · rw [hr] at h
        cases h
      · rw [hr] at h
        exact ⟨u, v, w, bytes, rfl, hw, hr, h⟩

/-- What is copied was there. -/
theorem copy_src (h : tree.copy src dst = (.ok (), t)) : ∃ bytes, tree.content src = some bytes := by
  obtain ⟨u, v, w, bytes, hopen, -⟩ := copy_inv h
  exact openRead_ok hopen

/-- Where there is nothing to copy, nothing changes. -/
theorem copy_missing (dst q : Path N) (h : tree.content src = none) :
    (tree.copy src dst).2.content q = tree.content q := by
  have hopen := openRead_content src q tree
  unfold copy
  rcases ho : tree.openRead src with ⟨_ | _, u⟩
  · rw [ho] at hopen
    exact hopen
  · obtain ⟨bytes, hbytes⟩ := openRead_ok ho
    rw [h] at hbytes
    cases hbytes

/-- A file that has been copied is at the target too. -/
theorem copy_ok (h : tree.copy src dst = (.ok (), t)) (hne : src ≠ dst) :
    t.content dst = tree.content src := by
  obtain ⟨u, v, w, bytes, hopen, hcreate, hread, hwrite⟩ := copy_inv h
  have hu := openRead_content src src tree
  have hv := openWrite_content u hne
  rw [hopen] at hu
  rw [hcreate] at hv
  rw [write_ok hwrite, ← hu, ← hv, read_ok hread]

/-- Copying a file makes no directory. -/
theorem copy_dirs (h : tree.copy src dst = (.ok (), t)) : t.dirs = tree.dirs := by
  obtain ⟨u, v, w, bytes, hopen, hcreate, hread, hwrite⟩ := copy_inv h
  have hu : u.dirs = tree.dirs := by
    have := openRead_snd src tree
    rw [hopen] at this
    rw [show u = _ from this]
  have hv := openWrite_dirs dst u
  rw [hcreate] at hv
  have hw : w.dirs = v.dirs := by
    have := read_snd src v
    rw [hread] at this
    rw [show w = _ from this]
  have ht := write_dirs dst bytes w
  rw [hwrite] at ht
  exact ht.trans (hw.trans (hv.trans hu))

/-! ### Directories -/

/-- What a call to remove a directory does to the directories. -/
theorem removeDir_dirs (hdir : path ∈ tree.dirs) :
    (tree.removeDir path).2.dirs =
      if tree.failsNext = false ∧ path.fileName ≠ none ∧
        ∀ q ∈ tree.files.keys ++ tree.dirs, q ≠ [] → q.parent ≠ path
      then tree.dirs.erase path else tree.dirs := by
  refine unlessFault_keeps (P := fun t => t.dirs = _) (fun hf => ?_) fun hf => ?_
  · rw [if_neg fun h => by simp [hf] at h]
  dsimp only
  split
  next hname =>
    rw [if_neg fun h => h.2.1 (Option.isNone_iff_eq_none.mp hname)]
  next hname =>
    split
    next hany =>
      obtain ⟨q, hq, hin⟩ := List.any_eq_true.mp hany
      have hin := of_decide_eq_true hin
      rw [if_neg fun h => h.2.2 q hq hin.1 hin.2]
    next hnone =>
      rw [if_pos]
      refine ⟨hf, fun hno => hname (Option.isNone_iff_eq_none.mpr hno), fun q hq hne hparent => ?_⟩
      exact hnone (List.any_eq_true.mpr ⟨q, hq, decide_eq_true ⟨hne, hparent⟩⟩)

/-- **When a directory is removed**: if the call does not fail by itself, its path ends in a name, and
nothing is in it. -/
theorem removeDir_gone_iff (hdir : path ∈ tree.dirs) (hnodup : tree.dirs.Nodup) :
    path ∉ (tree.removeDir path).2.dirs ↔
      tree.failsNext = false ∧ path.fileName ≠ none ∧
        ∀ q ∈ tree.files.keys ++ tree.dirs, q ≠ [] → q.parent ≠ path := by
  rw [removeDir_dirs hdir]
  split
  next hcan => exact ⟨fun _ => hcan, fun _ => hnodup.not_mem_erase⟩
  next hcannot => exact ⟨fun hgone => absurd hdir hgone, fun hcan => absurd hcan hcannot⟩

/-- A directory that has been removed is the only one. -/
theorem removeDir_erased (hdir : path ∈ tree.dirs) (hgone : path ∉ (tree.removeDir path).2.dirs) :
    (tree.removeDir path).2.dirs = tree.dirs.erase path := by
  have hdirs := removeDir_dirs hdir
  split at hdirs
  next => exact hdirs
  next =>
    rw [hdirs] at hgone
    exact absurd hdir hgone

/-- In a list of files none of which is below `dst`, the moved ones are found under their new paths. -/
theorem dlookup_rebase {files : List ((_ : Path N) × List UInt8)} {src dst : Path N}
    (hfree : ∀ f ∈ files, ¬dst <+: f.1) (rest : Path N) :
    (files.map fun f => (⟨f.1.rebase src dst, f.2⟩ : (_ : Path N) × List UInt8)).dlookup (dst ++ rest) =
      files.dlookup (src ++ rest) := by
  induction files with
  | nil => rfl
  | cons f files ih =>
      obtain ⟨k, bytes⟩ := f
      have hrest := ih fun f hf => hfree f (List.mem_cons_of_mem _ hf)
      rw [List.map_cons]
      by_cases hk : k = src ++ rest
      · have hmoved : k.rebase src dst = dst ++ rest := by
          rw [hk, Path.rebase, if_pos (List.prefix_append _ _), List.drop_left]
        subst hk
        simp only [hmoved]
        rw [List.dlookup_cons_eq, List.dlookup_cons_eq]
      · have hmoved : dst ++ rest ≠ k.rebase src dst := by
          unfold Path.rebase
          intro heq
          split at heq
          next hsrc =>
            obtain ⟨r, rfl⟩ := hsrc
            rw [List.drop_left] at heq
            exact hk (by rw [List.append_cancel_left heq])
          next => exact hfree ⟨k, bytes⟩ List.mem_cons_self ⟨rest, heq⟩
        rw [List.dlookup_cons_ne _ _ hmoved, List.dlookup_cons_ne _ _ (Ne.symm hk), hrest]

/-- **`Renamed src dst tree t`** — what a move of a directory to another path has found and done. -/
structure Renamed (src dst : Path N) (tree t : FileTree N) : Prop where
  source : src ∈ tree.dirs
  outside : ¬src <+: dst
  free : ∀ p ∈ tree.files.keys ++ tree.dirs, dst <+: p → p = dst
  noFile : tree.content dst = none
  files : t.files = (tree.files.entries.map fun f =>
    (⟨f.1.rebase src dst, f.2⟩ : (_ : Path N) × List UInt8)).toAList

theorem renameDir_renamed (h : tree.renameDir src dst = (.ok (), t)) (hne : src ≠ dst) :
    Renamed src dst tree t := by
  obtain ⟨-, h⟩ := unlessFault_ok h
  dsimp only at h
  rw [if_neg hne] at h
  split at h
  next => cases h
  split at h
  next => cases h
  next hsource =>
    split at h
    next => cases h
    next houtside =>
      split at h
      next => cases h
      next hfile =>
        split at h
        next => cases h
        next hempty =>
          split at h
          next =>
            cases h
            refine ⟨by_contra hsource, houtside, fun p hp hbelow => ?_, ?_, rfl⟩
            · by_contra hpne
              exact hempty (List.any_eq_true.mpr ⟨p, hp, decide_eq_true ⟨hpne, hbelow⟩⟩)
            · exact Option.not_isSome_iff_eq_none.mp hfile
          next => cases h

/-- A directory that has been moved was there. -/
theorem renameDir_source (h : tree.renameDir src dst = (.ok (), t)) : src ∈ tree.dirs := by
  obtain ⟨-, h⟩ := unlessFault_ok h
  dsimp only at h
  split at h
  next => cases h
  split at h
  next => cases h
  next hsource => exact by_contra hsource

/-- No file is at or below the target. -/
theorem Renamed.no_key (h : Renamed src dst tree t) : ∀ f ∈ tree.files.entries, ¬dst <+: f.1 := by
  intro f hf hbelow
  have hkey : f.1 ∈ tree.files.keys := List.mem_map.mpr ⟨f, hf, rfl⟩
  have hdst : f.1 = dst := h.free f.1 (List.mem_append_left _ hkey) hbelow
  rw [hdst] at hkey
  have hsome := AList.lookup_isSome.mpr hkey
  rw [show tree.files.lookup dst = none from h.noFile] at hsome
  cases hsome

/-- Everything below a directory that has been moved is below the target. -/
theorem renameDir_ok (h : tree.renameDir src dst = (.ok (), t)) (rest : Path N) :
    t.content (dst ++ rest) = tree.content (src ++ rest) := by
  by_cases heq : src = dst
  · obtain ⟨-, h⟩ := unlessFault_ok h
    dsimp only at h
    rw [if_pos heq] at h
    split at h
    next => cases h
    split at h
    next => cases h
    next =>
      cases h
      rw [heq]
      rfl
  · have hrenamed := renameDir_renamed h heq
    show t.files.lookup (dst ++ rest) = _
    rw [hrenamed.files]
    exact (AList.lookup_to_alist _).trans (dlookup_rebase hrenamed.no_key rest)

/-- Nothing is left below a directory that has been moved away. -/
theorem renameDir_gone (h : tree.renameDir src dst = (.ok (), t)) (hne : src ≠ dst) (rest : Path N) :
    t.content (src ++ rest) = none := by
  have hrenamed := renameDir_renamed h hne
  show t.files.lookup (src ++ rest) = none
  rw [hrenamed.files]
  refine (AList.lookup_to_alist _).trans (List.dlookup_eq_none.mpr ?_)
  intro hkey
  obtain ⟨f, hf, hpath⟩ := List.mem_map.mp hkey
  obtain ⟨g, hg, rfl⟩ := List.mem_map.mp hf
  have hpath : g.1.rebase src dst = src ++ rest := hpath
  unfold Path.rebase at hpath
  split at hpath
  next =>
    -- one of the two directories would be below the other
    rcases List.prefix_or_prefix_of_prefix ⟨_, hpath⟩ (List.prefix_append src rest) with hbelow | habove
    · exact hne (hrenamed.free src (List.mem_append_right _ hrenamed.source) hbelow)
    · exact hrenamed.outside habove
  next hbelow => exact hbelow ⟨rest, hpath.symm⟩

/-- A move of a directory that failed has left everything where it was. -/
theorem renameDir_error {e : FileError} (h : tree.renameDir src dst = (.error e, t)) (q : Path N) :
    t.content q = tree.content q := by
  unfold renameDir unlessFault at h
  split at h
  next =>
    cases h
    rfl
  dsimp only at h
  repeat' split at h
  all_goals
    cases h
    try rfl

/-- Making a directory touches no file. -/
theorem createDir_content (path q : Path N) (tree : FileTree N) :
    (tree.createDir path).2.content q = tree.content q := by
  refine unlessFault_keeps (P := fun t => t.content q = _) (fun _ => rfl) fun _ => ?_
  dsimp only
  split
  next => rfl
  split
  next => rfl
  next => rfl

theorem createDirs_content (ps : List (Path N)) (q : Path N) (tree : FileTree N) :
    (tree.createDirs ps).2.content q = tree.content q := by
  induction ps generalizing tree with
  | nil => rfl
  | cons p ps ih =>
      have hdir := createDir_content p q tree
      unfold createDirs
      rcases hp : tree.createDir p with ⟨_ | _, u⟩
      · rw [hp] at hdir
        exact hdir
      · rw [hp] at hdir
        exact (ih u).trans hdir

theorem createDirAll_content (path q : Path N) (tree : FileTree N) :
    (tree.createDirAll path).2.content q = tree.content q := createDirs_content _ q tree

/-! ### Files that are opened as they are -/

/-- Can the file be opened, or else made? -/
def CanOpen (tree : FileTree N) (path : Path N) : Prop :=
  path ∉ tree.dirs ∧ (tree.content path = none → path.parent ∈ tree.dirs)

instance (tree : FileTree N) (path : Path N) : Decidable (CanOpen tree path) :=
  inferInstanceAs (Decidable (_ ∧ _))

theorem canOpen_congr (hdirs : t.dirs = tree.dirs)
    (hnone : t.content q = none ↔ tree.content q = none) : CanOpen t q ↔ CanOpen tree q := by
  unfold CanOpen
  rw [hdirs, hnone]

/-- A file that has been opened has the content it had, or none if it is new. -/
theorem openCreate_ok (h : tree.openCreate path = (.ok (), t)) :
    t.content path = some ((tree.content path).getD []) ∧
      (∀ q, q ≠ path → t.content q = tree.content q) ∧ CanOpen tree path := by
  obtain ⟨-, h⟩ := unlessFault_ok h
  dsimp only at h
  split at h
  next => cases h
  next hdir =>
    split at h
    next bytes hc =>
      cases h
      have hbytes : tree.content path = some bytes := hc
      refine ⟨by rw [hbytes]; exact hc, fun _ _ => rfl, hdir, fun hnone => ?_⟩
      rw [hbytes] at hnone
      cases hnone
    next hc =>
      split at h
      next hparent =>
        cases h
        have hnone : tree.content path = none := hc
        refine ⟨?_, fun q hq => AList.lookup_insert_ne hq, hdir, fun _ => hparent⟩
        rw [hnone]
        exact AList.lookup_insert _
      next => cases h

/-- Opening changes no file that exists, also when it fails. -/
theorem openCreate_keeps (hq : tree.content q = some bytes) :
    (tree.openCreate path).2.content q = some bytes := by
  refine unlessFault_keeps (P := fun t => t.content q = _) (fun _ => hq) fun _ => ?_
  dsimp only
  split
  next => exact hq
  split
  next => exact hq
  next hc =>
    split
    next =>
      have hne : q ≠ path := by
        rintro rfl
        have hnone : tree.content q = none := hc
        rw [hq] at hnone
        cases hnone
      exact (AList.lookup_insert_ne hne).trans hq
    next => exact hq

/-- Opening makes no directory, and is one call. -/
theorem openCreate_rest (path : Path N) (tree : FileTree N) :
    (tree.openCreate path).2.dirs = tree.dirs ∧
      (tree.openCreate path).2.faults = tree.faults.tail := by
  refine unlessFault_keeps (P := fun t => t.dirs = tree.dirs ∧ t.faults = tree.faults.tail)
    (fun _ => ⟨rfl, rfl⟩) fun _ => ?_
  dsimp only
  split
  next => exact ⟨rfl, rfl⟩
  split
  next => exact ⟨rfl, rfl⟩
  split
  next => exact ⟨rfl, rfl⟩
  next => exact ⟨rfl, rfl⟩

/-- With no call still to fail, a file that can be opened is. -/
theorem openCreate_calm (hcalm : tree.faults = []) (hopen : CanOpen tree path) :
    (tree.openCreate path).1 = .ok () := by
  unfold openCreate
  rw [unlessFault_calm hcalm]
  simp only [if_neg hopen.1]
  split
  next => rfl
  next hc =>
    have hparent : path.parent ∈ tree.dirs := hopen.2 hc
    simp only [if_pos hparent]

end FileTree

end Logic.Files
