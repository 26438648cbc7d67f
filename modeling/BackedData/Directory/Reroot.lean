/-
# BackedData.Directory.Reroot — moving a directory, and what its chunks load from afterwards

`update_root` rebuilds the disk of every chunk from a bare path, the new root joined with the old file
name; `move_root` first moves the files, with one `rename` of the directory or, where that fails, chunk by
chunk with `copy` and `remove_file`.  `updateChunks_rebuilt` says what the first does to the entries, and
`relocate_files` what the second does to the files; from both, `moveRoot_exact` derives when every chunk
still loads.  Two things can be lost on the way: what an `Encrypted` disk carries beside its path, and the
files of a directory that is copied onto itself.  That directory has one path here: under two spellings of
it, `.` and what it is short for, or behind a link, the copy is onto itself all the same, and no path shows it.
-/
import BackedData.Directory.Append
import BackedData.Directory.DisksSpec
import BackedData.Disks.EncryptedStore

namespace BackedData.Directory

open Logic.Files
open Logic.Outcome
open Logic.Stateful
open BackedData.Entry
open BackedData.Array
open BackedData.Disks (KeyNonce blockTag vectorAes zeroBlock zeroBlockSealed zeroSecrets)

set_option autoImplicit false

/-! ## The operations -/

/-- `DiskCreateErr`. -/
inductive DiskCreateErr where
  | ioErr (e : FileError)
  | diskErr (e : DiskError)
  deriving DecidableEq, Repr

/-- Calls on the files of the world, and their result. -/
def onFiles {α : Type} (m : FilesM α) : DiskM (Except FileError α) := fun w =>
  match m w.tree with
  | .error p => .error p
  | .ok (r, tree) => .ok (.ok r, { w with tree })

section Operations

variable {T D C : Type} [AsRefPath D]

/-- `Decoder::decode`, on what a reader has given. -/
def decodeBytes (codec : Codec T C) (coder : C) (bytes : List UInt8) : DiskM T :=
  match codec.decode coder bytes with
  | none => .fail .coder
  | some val => pure val

/-- `BackedEntry::load`, on one of these disks; the value that it caches is not kept. -/
def loadEntry (ops : PathDisk D) (codec : Codec T C) (self : BackedEntry T D C) : DiskM T :=
  match self.value with
  | some x => pure x
  | none => do
      let source ← ops.readDisk self.disk
      let bytes ← ops.readToEnd source
      decodeBytes codec self.coder bytes

/-- The loop of `update_root`: up to the first disk that cannot be built, the disks are replaced. -/
def updateChunks (ops : PathDisk D) (newRoot : Path String) :
    List (Chunk T D C) → DiskM (Except DiskError Unit × List (Chunk T D C))
  | [] => pure (.ok (), [])
  | chunk :: chunks => do
      let name ← .ofExec (unwrap (AsRefPath.path chunk.disk).fileName)
      match ← (ops.tryFrom (newRoot.join name)).attempt with
      | .error e => pure (.error e, chunk :: chunks)
      | .ok newDisk => do
          ops.drop chunk.disk
          let (r, chunks) ← updateChunks ops newRoot chunks
          pure (r, { chunk with disk := newDisk } :: chunks)

/-- The closure of `move_root` and `a_move_root`: `copy`, then `remove_file`. -/
def copyChunk (newRoot : Path String) (chunk : Chunk T D C) : FilesM Unit := do
  let disk := AsRefPath.path chunk.disk
  match disk.fileName with
  | none => .fail .notFound
  | some fileName => do
      .ofCall (FileTree.copy disk (newRoot.join fileName))
      .ofCall (FileTree.removeFile disk)

namespace DirectoryBackedArray

/-- `update_root`: the result, and what `self` is afterwards. -/
def updateRoot (ops : PathDisk D) (self : DirectoryBackedArray T D C) (newRoot : Path String) :
    DiskM (Except DiskCreateErr Unit × DirectoryBackedArray T D C) := do
  let (r, entries) ← updateChunks ops newRoot self.array.entries
  let self := { self with array := { self.array with entries } }
  match r with
  | .error e => pure (.error (.diskErr e), self)
  | .ok () => pure (.ok (), { self with directoryRoot := newRoot })

/-- The first statement of `move_root`. -/
def relocate (self : DirectoryBackedArray T D C) (newRoot : Path String) : FilesM Unit := do
  match ← (Method.ofCall (FileTree.renameDir self.directoryRoot newRoot)).attempt with
  | .ok () => pure ()
  | .error _ => do
      .ofCall (FileTree.createDirAll newRoot)
      .forEach (copyChunk newRoot) self.array.entries

/-- `move_root`. -/
def moveRoot (ops : PathDisk D) (self : DirectoryBackedArray T D C) (newRoot : Path String) :
    DiskM (Except DiskCreateErr Unit × DirectoryBackedArray T D C) := do
  match ← onFiles (self.relocate newRoot) with
  | .error e => pure (.error (.ioErr e), self)
  | .ok () => self.updateRoot ops newRoot

/-- `a_move_root`: the stream runs one future after another. -/
def aMoveRoot (ops : PathDisk D) (self : DirectoryBackedArray T D C) (newRoot : Path String) :
    DiskM (Except DiskCreateErr Unit × DirectoryBackedArray T D C) := do
  match ← onFiles (self.relocate newRoot) with
  | .error e => pure (.error (.ioErr e), self)
  | .ok () => self.updateRoot ops newRoot

theorem aMoveRoot_eq (ops : PathDisk D) (self : DirectoryBackedArray T D C) :
    self.aMoveRoot ops = self.moveRoot ops := rfl

end DirectoryBackedArray

theorem meets_onFiles {α : Type} {m : FilesM α} {w : World} {Q : Post DiskError World (Except FileError α)} :
    Meets (onFiles m) w Q ↔
      Meets m w.tree
        { ok := fun a t => Q.ok (.ok a) { w with tree := t }
          error := fun e t => Q.ok (.error e) { w with tree := t }
          panic := Q.panic } := by
  unfold Meets onFiles
  rcases m w.tree with p | ⟨e | a, t⟩
  · exact Iff.rfl
  · exact Iff.rfl
  · exact Iff.rfl

end Operations

/-! ## The disks -/

section Disks

variable {T D C : Type} [AsRefPath D] {ops : PathDisk D} {spec : DiskSpec D}

/-- **`Rerooted newRoot chunk chunk'`** — only the directory of its file has changed. -/
structure Rerooted (newRoot : Path String) (chunk chunk' : Chunk T D C) : Prop where
  value : chunk'.value = chunk.value
  coder : chunk'.coder = chunk.coder
  target : (AsRefPath.path chunk.disk).fileName.map newRoot.join = some (AsRefPath.path chunk'.disk)

/-- **`Rebuilt spec newRoot secrets w w' (chunk, i) chunk'`** — the disk of the `i`-th chunk has been
rebuilt between `w` and `w'`, where the source of secrets gave these. -/
structure Rebuilt (spec : DiskSpec D) (newRoot : Path String) (secrets : Nat → KeyNonce) (w w' : World)
    (chunk : Chunk T D C × Nat) (chunk' : Chunk T D C) : Prop extends Rerooted newRoot chunk.1 chunk' where
  reads : spec.reads chunk'.disk = spec.fresh (secrets chunk.2)
  settled : ∀ bytes, w'.tree.content (AsRefPath.path chunk'.disk) = some bytes →
    spec.settled chunk'.disk bytes
  file : w'.tree.content (AsRefPath.path chunk'.disk) =
    if spec.creates then some ((w.tree.content (AsRefPath.path chunk'.disk)).getD [])
    else w.tree.content (AsRefPath.path chunk'.disk)

variable {newRoot path q : Path String} {w w' w'' : World} {disk : D} {secrets : Nat → KeyNonce}

/-- Building a disk that creates no file changes no file. -/
theorem Built.same (h : Built spec path w disk w') (hno : spec.creates = false) (q : Path String) :
    w'.tree.content q = w.tree.content q := by
  by_cases hq : q = path
  · rw [hq, h.file, hno]
    rfl
  · exact h.others q hq

/-- A file that is created is empty. -/
theorem Built.getD (h : Built spec path w disk w') (q : Path String) :
    (w'.tree.content q).getD [] = (w.tree.content q).getD [] := by
  by_cases hq : q = path
  · rw [hq, h.file]
    split
    next => rfl
    next => rfl
  · rw [h.others q hq]

/-- What is rebuilt after a first disk has been is rebuilt from the start. -/
theorem Rebuilt.after_built {chunk : Chunk T D C × Nat} {chunk' : Chunk T D C}
    (hb : Built spec path w disk w') (h : Rebuilt spec newRoot secrets w' w'' chunk chunk') :
    Rebuilt spec newRoot secrets w w'' chunk chunk' := by
  refine ⟨h.toRerooted, h.reads, h.settled, ?_⟩
  rw [h.file]
  by_cases hcreates : spec.creates = true
  · rw [if_pos hcreates, if_pos hcreates, hb.getD]
  · rw [if_neg hcreates, if_neg hcreates, hb.same (Bool.eq_false_iff.mpr hcreates)]

/-- The disk of a first chunk, when the others have been rebuilt too. -/
theorem Built.rebuilt {chunk : Chunk T D C} {name : String} {i : Nat} (h : Follows ops spec)
    (hname : (AsRefPath.path chunk.disk).fileName = some name)
    (hb : Built spec (newRoot.join name) w disk w')
    (hsecrets : spec.seals = true → w.secrets 0 = secrets i)
    (hgrows : Grows w' w'')
    (hsame : spec.creates = false → ∀ q, w''.tree.content q = w'.tree.content q) :
    Rebuilt spec newRoot secrets w w'' (chunk, i) { chunk with disk } := by
  have hfile : w''.tree.content (newRoot.join name) = w'.tree.content (newRoot.join name) := by
    by_cases hcreates : spec.creates = true
    · have hsome := hb.file
      rw [if_pos hcreates] at hsome
      rw [hgrows.kept _ _ hsome, hsome]
    · exact hsame (Bool.eq_false_iff.mpr hcreates) _
  refine ⟨⟨rfl, rfl, ?_⟩, ?_, ?_, ?_⟩
  · rw [hname, hb.named]
    rfl
  · by_cases hseals : spec.seals = true
    · show spec.reads disk = _
      rw [hb.reads, hsecrets hseals]
    · exact h.plain (Bool.eq_false_iff.mpr hseals) disk _
  · intro bytes hbytes
    have hpath : AsRefPath.path disk = newRoot.join name := hb.named
    rw [show AsRefPath.path ({ chunk with disk } : Chunk T D C).disk = newRoot.join name from hpath,
      hfile] at hbytes
    exact hb.settled bytes hbytes
  · show w''.tree.content (AsRefPath.path disk) =
      if spec.creates then some ((w.tree.content (AsRefPath.path disk)).getD [])
      else w.tree.content (AsRefPath.path disk)
    rw [hb.named, hfile]
    exact hb.file

/-- **The loop of `update_root`**, on disks of which nothing is left to be written: files may be created,
and if it gets to the end, every disk has been rebuilt. -/
theorem updateChunks_rebuilt (secrets : Nat → KeyNonce) (n : Nat) (h : Follows ops spec)
    {chunks : List (Chunk T D C)}
    (hsettled : ∀ e ∈ chunks, ∃ bytes, spec.settled e.disk bytes)
    (hsecrets : spec.seals = true → ∀ i, w.secrets i = secrets (n + i)) :
    Meets (updateChunks ops newRoot chunks) w (onSuccess fun r w' => Grows w w' ∧
      (r.1 = .ok () → (spec.creates = false → ∀ q, w'.tree.content q = w.tree.content q) ∧
        List.Forall₂ (Rebuilt spec newRoot secrets w w') (chunks.zipIdx n) r.2)) := by
  induction chunks generalizing w n with
  | nil => exact ⟨.refl w, fun _ => ⟨fun _ _ => rfl, .nil⟩⟩
  | cons chunk chunks ih =>
      unfold updateChunks
      rcases hname : (AsRefPath.path chunk.disk).fileName with _ | name
      · rw [meets_bind]
        exact fun hno => hno
      rw [meets_bind, meets_ofExec_ok (unwrap_some name)]
      show Meets ((ops.tryFrom (newRoot.join name)).attempt >>= _) w _
      rw [meets_bind, meets_attempt]
      refine (h.tryFrom (newRoot.join name) w).mono (fun disk w₁ hb => ?_)
        (fun e w₁ he => ⟨he.2, fun hok => by cases hok⟩) fun _ _ => id
      obtain ⟨bytes, hs⟩ := hsettled chunk List.mem_cons_self
      show Meets (ops.drop chunk.disk >>= fun _ => updateChunks ops newRoot chunks >>= _) w₁ _
      rw [meets_bind_of_eq (h.drop chunk.disk bytes w₁ hs), meets_bind]
      have hsecrets₁ : spec.seals = true → ∀ i, w₁.secrets i = secrets (n + 1 + i) := by
        intro hseals i
        rw [hb.secrets hseals]
        show w.secrets (i + 1) = _
        rw [hsecrets hseals]
        congr 1
        omega
      refine (ih (n + 1) (fun e he => hsettled e (List.mem_cons_of_mem _ he)) hsecrets₁).mono
        (fun r w₂ hr => ?_) (fun _ _ he => he) fun _ hp => hp
      obtain ⟨hgrows, hdone⟩ := hr
      refine ⟨hb.grows.trans hgrows, fun hok => ?_⟩
      obtain ⟨hsame, hrest⟩ := hdone hok
      refine ⟨fun hno q => (hsame hno q).trans (hb.same hno q), ?_⟩
      rw [List.zipIdx_cons]
      refine .cons (hb.rebuilt h hname (fun hseals => ?_) hgrows hsame) ?_
      · exact hsecrets hseals 0
      · exact hrest.imp fun _ _ hr => hr.after_built hb

end Disks

/-! ## The files -/

section Files

variable {T D C : Type} [AsRefPath D] {directoryRoot newRoot : Path String} {before tree : FileTree String}

/-- A chunk that has been copied and removed: nothing is at its path any more, and where there was nothing
in the directory, there still is nothing. -/
theorem copyChunk_gone {chunk : Chunk T D C} (hplace : InPlace directoryRoot (AsRefPath.path chunk.disk)) :
    Meets (copyChunk newRoot chunk) tree (onSuccess fun _ t => ∀ q, InPlace directoryRoot q →
      (tree.content q = none ∨ q = AsRefPath.path chunk.disk) → t.content q = none) := by
  generalize hdisk : AsRefPath.path chunk.disk = disk at hplace
  obtain ⟨name, hname, hpath⟩ := Option.map_eq_some_iff.mp hplace
  unfold copyChunk
  simp only [hdisk, hname]
  rw [meets_bind, meets_ofCall]
  refine ⟨fun _ u hcopy => ?_, fun _ _ _ => ⟨id, trivial⟩⟩
  show Meets (Method.ofCall (FileTree.removeFile disk)) u _
  rw [meets_ofCall]
  refine ⟨fun _ v hremove => ?_, fun _ _ _ => ⟨id, trivial⟩⟩
  obtain ⟨hgone, hothers⟩ := FileTree.removeFile_ok hremove
  intro q hq hor
  by_cases hqd : q = disk
  · rw [hqd]
    exact hgone
  · have hnone : tree.content q = none := hor.resolve_right hqd
    have htarget : q ≠ newRoot.join name := by
      intro heq
      obtain ⟨n, -, hjoin⟩ := Option.map_eq_some_iff.mp hq
      obtain ⟨hroot, hn⟩ := Path.join_inj (hjoin.trans heq)
      rw [← hjoin, hn] at hqd
      exact hqd hpath
    have hcontent := FileTree.copy_content disk tree htarget
    rw [hcopy] at hcontent
    rw [hothers q hqd]
    exact hcontent.trans hnone

theorem copyChunks_gone {chunks : List (Chunk T D C)}
    (hplace : ∀ e ∈ chunks, InPlace directoryRoot (AsRefPath.path e.disk)) :
    Meets (Method.forEach (copyChunk newRoot) chunks) tree (onSuccess fun _ t =>
      ∀ q, InPlace directoryRoot q →
        (tree.content q = none ∨ ∃ e ∈ chunks, q = AsRefPath.path e.disk) → t.content q = none) := by
  induction chunks generalizing tree with
  | nil =>
      intro q _ hor
      rcases hor with hnone | ⟨e, he, -⟩
      · exact hnone
      · cases he
  | cons chunk chunks ih =>
      apply (copyChunk_gone (hplace chunk List.mem_cons_self)).seq
      intro _ u hu
      refine (ih fun e he => hplace e (List.mem_cons_of_mem _ he)).imp (fun _ t ht q hq hor => ?_)
        fun _ h => h
      rcases hor with hnone | ⟨e, he, heq⟩
      · exact ht q hq (Or.inl (hu q hq (Or.inl hnone)))
      · rcases List.mem_cons.mp he with rfl | he
        · exact ht q hq (Or.inl (hu q hq (Or.inr heq)))
        · exact ht q hq (Or.inr ⟨e, he, heq⟩)

/-- **`Safe directoryRoot newRoot before t`** — every file of the directory is where it was, or it has been
moved to its place in the new one. -/
def Safe (directoryRoot newRoot : Path String) (before t : FileTree String) : Prop :=
  ∀ name, t.content (directoryRoot.join name) = before.content (directoryRoot.join name) ∨
    t.content (directoryRoot.join name) = none ∧
      t.content (newRoot.join name) = before.content (directoryRoot.join name)

/-- Copying a file of the directory into another one is safe, also when it fails. -/
theorem Safe.copy (hne : newRoot ≠ directoryRoot) (h : Safe directoryRoot newRoot before tree)
    (name : String) :
    Safe directoryRoot newRoot before
      (tree.copy (directoryRoot.join name) (newRoot.join name)).2 := by
  intro n
  have hroot : directoryRoot.join n ≠ newRoot.join name := fun heq => hne (Path.join_inj heq).1.symm
  rw [FileTree.copy_content (directoryRoot.join name) tree hroot]
  rcases h n with hhere | ⟨hnone, hmoved⟩
  · exact Or.inl hhere
  · refine Or.inr ⟨hnone, ?_⟩
    by_cases hn : n = name
    · subst hn
      rw [FileTree.copy_missing _ _ hnone]
      exact hmoved
    · have htarget : newRoot.join n ≠ newRoot.join name := fun heq => hn (Path.join_inj heq).2
      rw [FileTree.copy_content (directoryRoot.join name) tree htarget]
      exact hmoved

/-- Removing the file is safe once it is at its place. -/
theorem Safe.remove (hne : newRoot ≠ directoryRoot) (h : Safe directoryRoot newRoot before tree)
    {name : String} (hcopied : tree.content (newRoot.join name) = before.content (directoryRoot.join name)) :
    Safe directoryRoot newRoot before (tree.removeFile (directoryRoot.join name)).2 := by
  intro n
  have hkept : ∀ m, (tree.removeFile (directoryRoot.join name)).2.content (newRoot.join m) =
      tree.content (newRoot.join m) := by
    intro m
    rw [FileTree.removeFile_content]
    exact if_neg fun hc => hne (Path.join_inj hc.1).1
  rw [hkept, FileTree.removeFile_content]
  split
  next hc =>
    rw [(Path.join_inj hc.1).2]
    exact Or.inr ⟨rfl, hcopied⟩
  next => exact h n

theorem copyChunk_safe (hne : newRoot ≠ directoryRoot) {chunk : Chunk T D C}
    (hplace : InPlace directoryRoot (AsRefPath.path chunk.disk))
    (h : Safe directoryRoot newRoot before tree) :
    Meets (copyChunk newRoot chunk) tree (sure False (fun _ => Safe directoryRoot newRoot before)
      (Safe directoryRoot newRoot before)) := by
  obtain ⟨name, -, hpath⟩ := Option.map_eq_some_iff.mp hplace
  have hcopy := h.copy hne name
  unfold copyChunk
  simp only [← hpath, Path.fileName_join]
  rw [meets_bind, meets_ofCall]
  refine ⟨fun _ u hok => ?_, fun e u herror => ⟨id, ?_⟩⟩
  · rw [hok] at hcopy
    -- there was something to copy, so it had not been moved before
    obtain ⟨bytes, hbytes⟩ := FileTree.copy_src hok
    have hhere : tree.content (directoryRoot.join name) = before.content (directoryRoot.join name) := by
      rcases h name with hhere | ⟨hnone, -⟩
      · exact hhere
      · rw [hnone] at hbytes
        cases hbytes
    have hcopied : u.content (newRoot.join name) = before.content (directoryRoot.join name) :=
      (FileTree.copy_ok hok fun heq => hne (Path.join_inj heq).1.symm).trans hhere
    have hremove := Safe.remove hne hcopy hcopied
    show Meets (Method.ofCall (FileTree.removeFile (directoryRoot.join name))) u _
    rw [meets_ofCall]
    refine ⟨fun _ v hv => ?_, fun e v hv => ⟨id, ?_⟩⟩
    · rw [hv] at hremove
      exact hremove
    · rw [hv] at hremove
      exact hremove
  · rw [herror] at hcopy
    exact hcopy

theorem copyChunks_safe (hne : newRoot ≠ directoryRoot) {chunks : List (Chunk T D C)}
    (hplace : ∀ e ∈ chunks, InPlace directoryRoot (AsRefPath.path e.disk))
    (h : Safe directoryRoot newRoot before tree) :
    Meets (Method.forEach (copyChunk newRoot) chunks) tree
      (sure False (fun _ => Safe directoryRoot newRoot before) (Safe directoryRoot newRoot before)) := by
  refine (Meets.forEach (I := fun rest t => (∀ e ∈ rest, e ∈ chunks) ∧ Safe directoryRoot newRoot before t)
    (fun e rest t ht => ?_) ⟨fun _ he => he, h⟩).imp (fun _ _ ht => ht.2) fun _ ht => ht
  exact (copyChunk_safe hne (hplace e (ht.1 e List.mem_cons_self)) ht.2).imp
    (fun _ _ hu => ⟨fun e he => ht.1 e (List.mem_cons_of_mem _ he), hu⟩) fun _ hu => hu

/-- `rename` fails where the target is the directory itself, so that its files are copied onto
themselves. -/
def CopiedOntoItself (directoryRoot newRoot : Path String) (tree : FileTree String) : Prop :=
  newRoot = directoryRoot ∧ (tree.renameDir directoryRoot newRoot).1 ≠ .ok ()

instance (directoryRoot newRoot : Path String) (tree : FileTree String) :
    Decidable (CopiedOntoItself directoryRoot newRoot tree) :=
  inferInstanceAs (Decidable (_ ∧ _))

/-- **Where the files are after the first statement of `move_root`.**  Every chunk that has a file has it
in the new directory; if that is the old one and was copied, no chunk has a file any more. -/
theorem relocate_files {a : DirectoryBackedArray T D C}
    (hplace : ∀ e ∈ a.array.entries, InPlace a.directoryRoot (AsRefPath.path e.disk)) :
    Meets (a.relocate newRoot) tree (onSuccess fun _ t => ∀ e ∈ a.array.entries, ∀ name bytes,
      (AsRefPath.path e.disk).fileName = some name →
      tree.content (AsRefPath.path e.disk) = some bytes →
      t.content (newRoot.join name) =
        if CopiedOntoItself a.directoryRoot newRoot tree then none else some bytes) := by
  unfold DirectoryBackedArray.relocate
  rw [meets_bind, meets_attempt, meets_ofCall]
  refine ⟨fun _ t hrename => ?_, fun e u hrename => ?_⟩
  · intro e he name bytes hname hbytes
    have hpath : AsRefPath.path e.disk = a.directoryRoot.join name := (inPlace_iff hname).mp (hplace e he)
    have hno : ¬CopiedOntoItself a.directoryRoot newRoot tree := fun hc => hc.2 (by rw [hrename])
    rw [if_neg hno, ← hbytes, hpath]
    exact FileTree.renameDir_ok hrename [.normal name]
  · have hsame := FileTree.renameDir_error hrename
    show Meets (Method.ofCall (FileTree.createDirAll newRoot) >>= fun _ =>
      Method.forEach (copyChunk newRoot) a.array.entries) u _
    rw [meets_bind, meets_ofCall]
    refine ⟨fun _ v hcreate => ?_, fun _ _ _ => ⟨id, trivial⟩⟩
    have hv : ∀ q, v.content q = tree.content q := by
      intro q
      have hdirs := FileTree.createDirAll_content newRoot q u
      rw [hcreate] at hdirs
      exact hdirs.trans (hsame q)
    have hgone : Meets (Method.forEach (copyChunk newRoot) a.array.entries) v _ := copyChunks_gone hplace
    by_cases hself : newRoot = a.directoryRoot
    · have hyes : CopiedOntoItself a.directoryRoot newRoot tree := by
        refine ⟨hself, ?_⟩
        rw [hrename]
        nofun
      refine hgone.imp (fun _ t ht e he name bytes hname _ => ?_) fun _ h => h
      have hpath : AsRefPath.path e.disk = a.directoryRoot.join name :=
        (inPlace_iff hname).mp (hplace e he)
      rw [if_pos hyes, hself, ← hpath]
      exact ht _ (hplace e he) (Or.inr ⟨e, he, rfl⟩)
    · have hno : ¬CopiedOntoItself a.directoryRoot newRoot tree := fun hc => hself hc.1
      have hstart : Safe a.directoryRoot newRoot tree v := fun n => Or.inl (hv _)
      refine (hgone.both (copyChunks_safe hself hplace hstart)).mono
        (fun _ t ht e he name bytes hname hbytes => ?_) (fun _ _ _ => ⟨id, trivial⟩) fun _ hp => hp
      have hpath : AsRefPath.path e.disk = a.directoryRoot.join name :=
        (inPlace_iff hname).mp (hplace e he)
      have hnone := ht.1 _ (hplace e he) (Or.inr ⟨e, he, rfl⟩)
      rw [hpath] at hnone hbytes
      rw [if_neg hno, ← hbytes]
      rcases ht.2 name with hhere | ⟨-, hmoved⟩
      · rw [hnone, hbytes] at hhere
        cases hhere
      · exact hmoved

end Files

/-! ## Chunks that load -/

section Loading

variable {T D C : Type} [AsRefPath D] {ops : PathDisk D} {spec : DiskSpec D} {codec : Codec (List T) C}
variable {w : World} {e : Chunk T D C} {chunk : List T}

/-- The file of the entry reads and decodes to this chunk, and its disk belongs to that file. -/
def StoredBy (spec : DiskSpec D) (codec : Codec (List T) C) (w : World) (e : Chunk T D C)
    (chunk : List T) : Prop :=
  ∃ bytes out, w.tree.content (AsRefPath.path e.disk) = some bytes ∧ spec.settled e.disk bytes ∧
    spec.reads e.disk bytes = some out ∧ codec.decode e.coder out = some chunk

/-- The entry keeps this chunk: in its file, and in memory if it is loaded. -/
def BackedBy (spec : DiskSpec D) (codec : Codec (List T) C) (w : World) (e : Chunk T D C)
    (chunk : List T) : Prop :=
  (e.value = none ∨ e.value = some chunk) ∧ StoredBy spec codec w e chunk

/-- With no failing call, the entry loads this chunk. -/
def Loads (ops : PathDisk D) (codec : Codec (List T) C) (w : World) (e : Chunk T D C)
    (chunk : List T) : Prop :=
  ∃ w', loadEntry ops codec e w.calm = .ok (.ok chunk, w')

/-- A load without the cache returns what the file decodes to. -/
theorem loads_unload_iff (h : Follows ops spec)
    (hsettled : ∀ bytes, w.tree.content (AsRefPath.path e.disk) = some bytes → spec.settled e.disk bytes) :
    Loads ops codec w e.unload chunk ↔ ∃ bytes out,
      w.tree.content (AsRefPath.path e.disk) = some bytes ∧ spec.reads e.disk bytes = some out ∧
        codec.decode e.coder out = some chunk := by
  have hrun : Meets (loadEntry ops codec e.unload) w.calm
      (sure (∃ bytes out, w.tree.content (AsRefPath.path e.disk) = some bytes ∧
          spec.reads e.disk bytes = some out ∧ codec.decode e.coder out ≠ none)
        (fun v _ => ∃ bytes out, w.tree.content (AsRefPath.path e.disk) = some bytes ∧
          spec.reads e.disk bytes = some out ∧ codec.decode e.coder out = some v) fun _ => True) := by
    have hweaker : (∃ bytes out, w.tree.content (AsRefPath.path e.disk) = some bytes ∧
        spec.reads e.disk bytes = some out ∧ codec.decode e.coder out ≠ none) →
        w.calm.tree.faults = [] ∧ ∃ bytes, w.calm.tree.content (AsRefPath.path e.disk) = some bytes ∧
          spec.reads e.disk bytes ≠ none := by
      rintro ⟨bytes, out, hc, hout, -⟩
      refine ⟨rfl, bytes, hc, ?_⟩
      rw [hout]
      nofun
    refine ((h.read e.disk w.calm hsettled).assume hweaker).andThen fun out u hu => ?_
    obtain ⟨-, bytes, hc, hout⟩ := hu
    have hc' : w.tree.content (AsRefPath.path e.disk) = some bytes := hc
    show Meets (decodeBytes codec e.coder out) u _
    unfold decodeBytes
    rcases hd : codec.decode e.coder out with _ | v
    · refine ⟨?_, trivial⟩
      rintro ⟨bytes', out', hb, hout', hne⟩
      have heq : bytes' = bytes := Option.some.inj (hb.symm.trans hc')
      rw [heq, hout] at hout'
      rw [← Option.some.inj hout', hd] at hne
      exact hne rfl
    · exact ⟨bytes, out, hc', hout, hd⟩
  constructor
  · rintro ⟨w', hload⟩
    exact hrun.ok hload
  · rintro ⟨bytes, out, hc, hout, hd⟩
    obtain ⟨v, w', hload⟩ := hrun.returns ⟨bytes, out, hc, hout, by rw [hd]; nofun⟩
    obtain ⟨bytes', out', hc', hout', hd'⟩ := hrun.ok hload
    have heq : bytes' = bytes := Option.some.inj (hc'.symm.trans hc)
    rw [heq, hout] at hout'
    rw [← Option.some.inj hout', hd] at hd'
    rw [← Option.some.inj hd'] at hload
    exact ⟨w', hload⟩

end Loading

/-! ## Moving a directory -/

section Moving

variable {T D C : Type} [AsRefPath D] {ops : PathDisk D} {spec : DiskSpec D} {codec : Codec (List T) C}
variable {a : DirectoryBackedArray T D C} {newRoot : Path String} {w w' : World} {chunks : List (List T)}

/-- **`MovedTo ops codec newRoot a a' chunks w'`** — `a'` is `a` in another directory: the tables are those
of `a`, every file is in the new directory, and after `clear_memory` every chunk loads. -/
structure MovedTo (ops : PathDisk D) (codec : Codec (List T) C) (newRoot : Path String)
    (a a' : DirectoryBackedArray T D C) (chunks : List (List T)) (w' : World) : Prop where
  keyStarts : a'.array.keyStarts = a.array.keyStarts
  keyEnds : a'.array.keyEnds = a.array.keyEnds
  len : a'.array.len = a.array.len
  inPlace : ∀ e ∈ a'.array.entries, InPlace newRoot (AsRefPath.path e.disk)
  loads : WellFormed (Loads ops codec w') a'.array.clearMemory chunks

/-- What the file of a chunk is when the directory has been moved. -/
def movedFile (spec : DiskSpec D) (directoryRoot newRoot : Path String) (tree : FileTree String)
    (bytes : List UInt8) : Option (List UInt8) :=
  if CopiedOntoItself directoryRoot newRoot tree then if spec.creates then some [] else none
  else some bytes

/-- A chunk whose disk has been rebuilt: its file, and which of its states belong to it. -/
structure Resettled (spec : DiskSpec D) (directoryRoot newRoot : Path String) (w w' : World)
    (chunk : Chunk T D C × Nat) (chunk' : Chunk T D C) : Prop extends Rerooted newRoot chunk.1 chunk' where
  reads : spec.reads chunk'.disk = spec.fresh (w.secrets chunk.2)
  settled : ∀ bytes, w'.tree.content (AsRefPath.path chunk'.disk) = some bytes →
    spec.settled chunk'.disk bytes
  file : ∀ bytes, w.tree.content (AsRefPath.path chunk.1.disk) = some bytes →
    w'.tree.content (AsRefPath.path chunk'.disk) = movedFile spec directoryRoot newRoot w.tree bytes

/-- **`move_root`, when it returns `Ok`**, on disks of which nothing is left to be written. -/
theorem moveRoot_resettled (h : Follows ops spec)
    (hplace : ∀ e ∈ a.array.entries, InPlace a.directoryRoot (AsRefPath.path e.disk))
    (hsettled : ∀ e ∈ a.array.entries, ∃ bytes, spec.settled e.disk bytes) :
    Meets (a.moveRoot ops newRoot) w (onSuccess fun r w' => r.1 = .ok () →
      r.2.array.keyStarts = a.array.keyStarts ∧ r.2.array.keyEnds = a.array.keyEnds ∧
        List.Forall₂ (Resettled spec a.directoryRoot newRoot w w') a.array.entries.zipIdx
          r.2.array.entries) := by
  unfold DirectoryBackedArray.moveRoot
  rw [meets_bind, meets_onFiles]
  refine (relocate_files hplace).mono (fun _ t hfiles => ?_) (fun _ _ _ => nofun) fun _ hp => hp
  unfold DirectoryBackedArray.updateRoot
  show Meets (updateChunks ops newRoot a.array.entries >>= _) { w with tree := t } _
  rw [meets_bind]
  refine (updateChunks_rebuilt w.secrets 0 h hsettled fun _ i => ?_).mono
    (fun r w' hr => ?_) (fun _ _ he => he) fun _ hp => hp
  · rw [Nat.zero_add]
  obtain ⟨res, entries⟩ := r
  cases res with
  | error e => exact nofun
  | ok _ =>
      obtain ⟨-, hdone⟩ := hr
      obtain ⟨-, hrebuilt⟩ := hdone rfl
      intro _
      refine ⟨rfl, rfl, ?_⟩
      have hmem : ∀ c ∈ a.array.entries.zipIdx, c.1 ∈ a.array.entries :=
        fun c hc => List.fst_mem_of_mem_zipIdx hc
      refine ((List.forall₂_and_left _ _).mpr ⟨hmem, hrebuilt⟩).imp fun c chunk' hc => ?_
      obtain ⟨hc, hb⟩ := hc
      refine ⟨hb.toRerooted, hb.reads, hb.settled, fun bytes hbytes => ?_⟩
      obtain ⟨name, hname, hpath⟩ := Option.map_eq_some_iff.mp hb.target
      have hmoved := hfiles c.1 hc name bytes hname hbytes
      have hfile := hb.file
      rw [← hpath] at hfile ⊢
      rw [hfile]
      show (if spec.creates then some ((t.content (newRoot.join name)).getD []) else
        t.content (newRoot.join name)) = _
      rw [hmoved]
      unfold movedFile
      by_cases hself : CopiedOntoItself a.directoryRoot newRoot w.tree
      · simp only [if_pos hself, Option.getD_none]
      · simp only [if_neg hself, Option.getD_some, ite_self]

/-- Two relations to the members of one list, compared through another list that both are related to. -/
theorem forall₂_iff_of_forall₂ {α β γ : Type} {R : α → β → Prop} {S : α → γ → Prop} {P : β → γ → Prop}
    {O : α → γ → Prop} {xs : List α} {ys : List β} {zs : List γ} (hR : List.Forall₂ R xs ys)
    (hS : List.Forall₂ S xs zs) (h : ∀ x y z, R x y → S x z → (P y z ↔ O x z)) :
    List.Forall₂ P ys zs ↔ List.Forall₂ O xs zs := by
  induction hR generalizing zs with
  | nil =>
      cases hS
      exact ⟨fun _ => .nil, fun _ => .nil⟩
  | cons hxy _ ih =>
      cases hS with
      | cons hxz hrest =>
          rw [List.forall₂_cons, List.forall₂_cons, h _ _ _ hxy hxz, ih hrest]

theorem forall₂_congr_of {α γ : Type} {S P O : α → γ → Prop} {xs : List α} {zs : List γ}
    (hS : List.Forall₂ S xs zs) (h : ∀ x z, S x z → (P x z ↔ O x z)) :
    List.Forall₂ P xs zs ↔ List.Forall₂ O xs zs := by
  have hrefl : List.Forall₂ Eq xs xs := List.forall₂_refl xs
  refine forall₂_iff_of_forall₂ hrefl hS fun x y z heq hs => ?_
  rw [← heq]
  exact h x z hs

theorem forall₂_zipIdx {α β : Type} {R : α → β → Prop} {xs : List α} {ys : List β}
    (h : List.Forall₂ R xs ys) : List.Forall₂ (fun c y => R (Prod.fst c) y) xs.zipIdx ys := by
  rw [← List.zipIdx_map_fst 0 xs, List.forall₂_map_left_iff] at h
  exact h

/-- What a newly built disk reads from where the file is decodes to the chunk. -/
def Rereads (spec : DiskSpec D) (codec : Codec (List T) C) (directoryRoot newRoot : Path String) (w : World)
    (chunk : Chunk T D C × Nat) (elements : List T) : Prop :=
  ∃ bytes moved out, w.tree.content (AsRefPath.path chunk.1.disk) = some bytes ∧
    movedFile spec directoryRoot newRoot w.tree bytes = some moved ∧
    spec.fresh (w.secrets chunk.2) moved = some out ∧ codec.decode chunk.1.coder out = some elements

/-- The rebuilt entries load the chunks exactly when the new disks read them. -/
theorem movedTo_iff (h : Follows ops spec) {a' : DirectoryBackedArray T D C}
    (ha : WellFormed (BackedBy spec codec w) a.array chunks)
    (hstarts : a'.array.keyStarts = a.array.keyStarts) (hends : a'.array.keyEnds = a.array.keyEnds)
    (hentries : List.Forall₂ (Resettled spec a.directoryRoot newRoot w w') a.array.entries.zipIdx
      a'.array.entries) :
    MovedTo ops codec newRoot a a' chunks w' ↔
      List.Forall₂ (Rereads spec codec a.directoryRoot newRoot w) a.array.entries.zipIdx chunks := by
  have hloads : List.Forall₂ (Loads ops codec w') a'.array.clearMemory.entries chunks ↔
      List.Forall₂ (Rereads spec codec a.directoryRoot newRoot w) a.array.entries.zipIdx chunks := by
    show List.Forall₂ _ (a'.array.entries.map BackedEntry.unload) _ ↔ _
    rw [List.forall₂_map_left_iff]
    refine forall₂_iff_of_forall₂ hentries (forall₂_zipIdx ha.entries) fun c e chunk hc hb => ?_
    obtain ⟨-, bytes, -, hbytes, -⟩ := hb
    rw [loads_unload_iff h hc.settled, hc.file bytes hbytes, hc.reads, hc.coder]
    constructor
    · rintro ⟨moved, out, hmoved, hout, hd⟩
      exact ⟨bytes, moved, out, hbytes, hmoved, hout, hd⟩
    · rintro ⟨bytes', moved, out, hbytes', hmoved, hout, hd⟩
      rw [hbytes] at hbytes'
      rw [← Option.some.inj hbytes'] at hmoved
      exact ⟨moved, out, hmoved, hout, hd⟩
  rw [← hloads]
  refine ⟨fun hm => hm.loads.entries, fun hl => ⟨hstarts, hends, ?_, ?_, ?_, hl⟩⟩
  · unfold BackedArray.len
    rw [hends]
  · have hin : List.Forall₂ (fun (e : Chunk T D C) (_ : Chunk T D C × Nat) =>
        InPlace newRoot (AsRefPath.path e.disk) ∧ True) a'.array.entries a.array.entries.zipIdx := by
      refine hentries.flip.imp fun e c hc => ⟨?_, trivial⟩
      obtain ⟨name, -, hpath⟩ := Option.map_eq_some_iff.mp hc.target
      rw [← hpath]
      exact (inPlace_iff (Path.fileName_join _ _)).mpr rfl
    exact ((List.forall₂_and_left _ _).mp hin).1
  · show Logic.Ranges.Consecutive a'.array.keyStarts a'.array.keyEnds _
    rw [hstarts, hends]
    exact ha.keys

end Moving

/-- **`Survives crates t codec newRoot a chunks w`** — nothing that a disk carries beside its path is needed,
and no file is copied onto itself: the secrets that will be drawn for the disks of an `Encrypted` directory
read its files as the old ones did, and the directory is not its own target unless `rename` succeeds (or,
for `Mmap`, which creates its files again, every chunk is what an empty file decodes to). -/
structure Survives {T C : Type} (crates : Crates) (t : DiskType) (codec : Codec (List T) C)
    (newRoot : Path String) (a : DirectoryBackedArray T t.Disk C) (chunks : List (List T)) (w : World) :
    Prop where
  secrets : t = .encrypted → ¬CopiedOntoItself a.directoryRoot newRoot w.tree →
    List.Forall₂ (fun c chunk => ∃ bytes out, w.tree.content (AsRefPath.path c.1.disk) = some bytes ∧
      unsealed crates.aes (w.secrets c.2) bytes = some out ∧ codec.decode c.1.coder out = some chunk)
      a.array.entries.zipIdx chunks
  distinct : CopiedOntoItself a.directoryRoot newRoot w.tree →
    List.Forall₂ (fun c chunk => t = .mmap ∧ codec.decode c.1.coder [] = some chunk)
      a.array.entries.zipIdx chunks

section Surviving

variable {T C : Type} {crates : Crates} {t : DiskType} {codec : Codec (List T) C}
variable {a : DirectoryBackedArray T t.Disk C} {chunks : List (List T)} {newRoot : Path String} {w : World}

/-- A chunk of a directory that is copied onto itself. -/
theorem rereads_copied_iff {c : Chunk T t.Disk C × Nat} {chunk : List T}
    (hb : BackedBy (t.spec crates) codec w c.1 chunk)
    (hself : CopiedOntoItself a.directoryRoot newRoot w.tree) :
    Rereads (t.spec crates) codec a.directoryRoot newRoot w c chunk ↔
      t = .mmap ∧ codec.decode c.1.coder [] = some chunk := by
  obtain ⟨-, bytes, -, hbytes, -⟩ := hb
  unfold Rereads movedFile
  simp only [if_pos hself]
  constructor
  · rintro ⟨-, moved, out, -, hmoved, hout, hd⟩
    split at hmoved
    next hcreates =>
      have ht := (t.creates_iff crates).mp hcreates
      subst ht
      cases hmoved
      cases hout
      exact ⟨rfl, hd⟩
    next => cases hmoved
  · rintro ⟨rfl, hd⟩
    exact ⟨bytes, [], [], hbytes, rfl, rfl, hd⟩

/-- A chunk whose file is at its target. -/
theorem rereads_moved_iff {c : Chunk T t.Disk C × Nat} {chunk : List T}
    (hb : BackedBy (t.spec crates) codec w c.1 chunk)
    (hself : ¬CopiedOntoItself a.directoryRoot newRoot w.tree) :
    Rereads (t.spec crates) codec a.directoryRoot newRoot w c chunk ↔
      (t = .encrypted → ∃ bytes out, w.tree.content (AsRefPath.path c.1.disk) = some bytes ∧
        unsealed crates.aes (w.secrets c.2) bytes = some out ∧
        codec.decode c.1.coder out = some chunk) := by
  obtain ⟨-, bytes, out, hbytes, -, hreads, hd⟩ := hb
  unfold Rereads movedFile
  simp only [if_neg hself]
  constructor
  · rintro ⟨bytes', moved, out', hbytes', hmoved, hout', hd'⟩ rfl
    cases hmoved
    exact ⟨bytes', out', hbytes', hout', hd'⟩
  · intro h
    by_cases ht : t = .encrypted
    · obtain ⟨bytes', out', hbytes', hout', hd'⟩ := h ht
      subst ht
      exact ⟨bytes', bytes', out', hbytes', rfl, hout', hd'⟩
    · have hplain : (t.spec crates).seals = false := by
        rw [Bool.eq_false_iff]
        exact fun hseals => ht ((t.seals_iff crates).mp hseals)
      rw [(t.follows crates).plain hplain c.1.disk (w.secrets c.2)] at hreads
      exact ⟨bytes, bytes, out, hbytes, rfl, hreads, hd⟩

/-- The new disks read the chunks exactly when the directory survives. -/
theorem rereads_iff_survives (ha : WellFormed (BackedBy (t.spec crates) codec w) a.array chunks) :
    List.Forall₂ (Rereads (t.spec crates) codec a.directoryRoot newRoot w) a.array.entries.zipIdx chunks ↔
      Survives crates t codec newRoot a chunks w := by
  have hbacked := forall₂_zipIdx ha.entries
  by_cases hself : CopiedOntoItself a.directoryRoot newRoot w.tree
  · rw [forall₂_congr_of hbacked fun c chunk hb => rereads_copied_iff hb hself]
    exact ⟨fun h => ⟨fun _ hno => absurd hself hno, fun _ => h⟩, fun h => h.distinct hself⟩
  · rw [forall₂_congr_of hbacked fun c chunk hb => rereads_moved_iff hb hself]
    constructor
    · intro h
      exact ⟨fun ht _ => h.imp fun _ _ hc => hc ht, fun hyes => absurd hyes hself⟩
    · intro h
      by_cases ht : t = .encrypted
      · exact (h.secrets ht hself).imp fun _ _ hc _ => hc
      · exact hbacked.imp fun _ _ _ hyes => absurd hyes ht

end Surviving

/-- **When a moved directory still loads.**  The chunk files of `a` lie directly in its root, and each
entry loads its chunk.  If `move_root` returns `Ok`, then `a` is in the new directory, with the same
tables, and every chunk loads from there after `clear_memory`, exactly when the directory survives. -/
theorem moveRoot_exact {T C : Type} (crates : Crates) (t : DiskType) (codec : Codec (List T) C)
    (a a' : DirectoryBackedArray T t.Disk C) (chunks : List (List T)) (newRoot : Path String) (w w' : World)
    (ha : WellFormed (BackedBy (t.spec crates) codec w) a.array chunks)
    (hplace : ∀ e ∈ a.array.entries, InPlace a.directoryRoot (AsRefPath.path e.disk))
    (hrun : a.moveRoot (t.ops crates) newRoot w = .ok (.ok (.ok (), a'), w')) :
    MovedTo (t.ops crates) codec newRoot a a' chunks w' ↔ Survives crates t codec newRoot a chunks w := by
  have hfollows := t.follows crates
  have hsettled : ∀ e ∈ a.array.entries, ∃ bytes, (t.spec crates).settled e.disk bytes := by
    have hall : List.Forall₂ (fun e (_ : List T) => (∃ bytes, (t.spec crates).settled e.disk bytes) ∧ True)
        a.array.entries chunks := ha.entries.imp fun e chunk he => by
      obtain ⟨-, bytes, -, -, hs, -⟩ := he
      exact ⟨⟨bytes, hs⟩, trivial⟩
    exact ((List.forall₂_and_left _ _).mp hall).1
  obtain ⟨hstarts, hends, hentries⟩ := (moveRoot_resettled hfollows hplace hsettled).ok hrun rfl
  rw [movedTo_iff hfollows ha hstarts hends hentries]
  exact rereads_iff_survives ha

/-! ### A directory of one chunk -/

/-- The cipher on its test vectors, and a compression that does nothing. -/
def vectorCrates : Crates where
  zstd := { compress := fun _ bytes => bytes, decompress := some }
  aes := vectorAes

/-- The format of one block: what is behind it is not looked at. -/
def blockFormat : Codec (List UInt8) Unit where
  encode _ block := block
  decode _ bytes := if 16 ≤ bytes.length then some (bytes.take 16) else none

/-- A directory of one chunk, on this disk. -/
def oneBlock {D : Type} (disk : D) : DirectoryBackedArray UInt8 D Unit where
  array := { keyStarts := [0], keyEnds := [16], entries := [.new disk ()] }
  directoryRoot := [.rootDir, .normal "a"]

/-- The file of the chunk, with these bytes in it, and the secrets that will be drawn. -/
def oneFile (bytes : List UInt8) (drawn : KeyNonce) : World where
  tree :=
    { files := (∅ : AList fun _ : Path String => List UInt8).insert
        [.rootDir, .normal "a", .normal "x"] bytes
      dirs := [[.rootDir], [.rootDir, .normal "a"]]
      faults := [] }
  holes := []
  secrets _ := drawn
  uses := []

/-- Another key than the one the file is sealed under. -/
def otherSecrets : KeyNonce := { key := .replicate 32 1, nonce := .replicate 12 0 }

theorem oneBlock_keys : Logic.Ranges.Consecutive [0] [16] ([zeroBlock.flatten].map List.length) :=
  Logic.Ranges.consecutive_iff.mpr ⟨rfl, rfl⟩

/-- `move_root` renames the directory of an encrypted chunk and returns `Ok`; the disk in the new directory
has other secrets, and does not open the file. -/
theorem sealedBlock_unreadable :
    let disk : DiskType.encrypted.Disk := ⟨⟨[.rootDir, .normal "a", .normal "x"]⟩, zeroSecrets⟩
    let ops := DiskType.encrypted.ops vectorCrates
    WellFormed (BackedBy (DiskType.encrypted.spec vectorCrates) blockFormat
        (oneFile zeroBlockSealed otherSecrets)) (oneBlock disk).array [zeroBlock.flatten] ∧
      (∀ e ∈ (oneBlock disk).array.entries, InPlace (oneBlock disk).directoryRoot (AsRefPath.path e.disk)) ∧
      ∃ a' w', (oneBlock disk).moveRoot ops [.rootDir, .normal "b"] (oneFile zeroBlockSealed otherSecrets) =
          .ok (.ok (.ok (), a'), w') ∧
        ¬MovedTo ops blockFormat [.rootDir, .normal "b"] (oneBlock disk) a' [zeroBlock.flatten] w' := by
  refine ⟨⟨oneBlock_keys, .cons ⟨Or.inl rfl, _, _, rfl, trivial, rfl, rfl⟩ .nil⟩, by decide, _, _, rfl, ?_⟩
  intro h
  cases h.loads.entries with
  | cons hload _ =>
      obtain ⟨w, hw⟩ := hload
      cases hw

/-- A plain chunk is moved, and loads. -/
theorem moveRoot_exact_plain :
    let disk : (DiskType.plain .plainfile).Disk := (⟨[.rootDir, .normal "a", .normal "x"]⟩ : Plainfile)
    let ops := (DiskType.plain .plainfile).ops vectorCrates
    ∃ a' w', (oneBlock disk).moveRoot ops [.rootDir, .normal "b"] (oneFile zeroBlock.flatten otherSecrets) =
        .ok (.ok (.ok (), a'), w') ∧
      MovedTo ops blockFormat [.rootDir, .normal "b"] (oneBlock disk) a' [zeroBlock.flatten] w' := by
  intro disk ops
  have hexact := moveRoot_exact vectorCrates (.plain .plainfile) blockFormat (oneBlock disk) _
    [zeroBlock.flatten] [.rootDir, .normal "b"] (oneFile zeroBlock.flatten otherSecrets) _
    ⟨oneBlock_keys, .cons ⟨Or.inl rfl, _, _, rfl, trivial, rfl, rfl⟩ .nil⟩ (by decide) rfl
  exact ⟨_, _, rfl, hexact.mpr ⟨nofun, fun hself => absurd hself.1 (by decide)⟩⟩

end BackedData.Directory
