/-
# BackedData.Directory.Branches — the two branches of `move_root`, against each other

`move_root` renames the directory as a whole, or, where that fails, copies and removes the files that the
index names.  The first moves whatever is in the directory, `meta.dat` among it; the second moves the files
of the chunks (`Copied`) and leaves every other one where it was.  `moveRoot_branches_exact` says when one
cannot tell from the array and its files which of them has run: when there is no `meta.dat`, or the index
names it as the file of a chunk.
-/
import BackedData.Directory.SaveLoad

namespace BackedData.Directory

open Logic.Files
open Logic.Outcome
open Logic.Stateful
open BackedData.Entry
open BackedData.Array
open BackedData.Disks (zeroBlock)

set_option autoImplicit false

/-! ## Rebuilding disks that are paths -/

section Rebuilding

variable {T C : Type}

/-- The loop of `update_root` reads and changes no file. -/
theorem updateChunks_plain (newRoot : Path String) (chunks : List (Chunk T Plainfile C)) :
    ∃ x, updateChunks plainfileDisk newRoot chunks = .ofExec x := by
  induction chunks with
  | nil => exact ⟨.ok (.ok (), []), rfl⟩
  | cons chunk chunks ih =>
      obtain ⟨x, hx⟩ := ih
      unfold updateChunks
      rw [hx]
      rcases (AsRefPath.path chunk.disk).fileName with _ | name
      · exact ⟨.error .unwrapNone, rfl⟩
      · refine ⟨x >>= fun r => .ok (r.1, { chunk with disk := ⟨newRoot.join name⟩ } :: r.2), ?_⟩
        funext w
        rcases x with p | r
        · rfl
        · rfl

theorem updateRoot_plain (self : DirectoryBackedArray T Plainfile C) (newRoot : Path String) :
    ∃ x, self.updateRoot plainfileDisk newRoot = .ofExec x := by
  obtain ⟨x, hx⟩ := updateChunks_plain newRoot self.array.entries
  unfold DirectoryBackedArray.updateRoot
  rw [hx]
  rcases x with p | ⟨e | _, entries⟩
  · exact ⟨.error p, rfl⟩
  · exact ⟨.ok (.error (.diskErr e), { self with array := { self.array with entries } }), rfl⟩
  · exact ⟨.ok (.ok (), { array := { self.array with entries }, directoryRoot := newRoot }), rfl⟩

/-- `move_root`, when it returns `Ok`: the files have been moved, and the array is one that does not depend
on them. -/
theorem moveRoot_run {self moved : DirectoryBackedArray T Plainfile C} {newRoot : Path String} {w w' : World}
    (h : self.moveRoot plainfileDisk newRoot w = .ok (.ok (.ok (), moved), w')) :
    self.relocate newRoot w.tree = .ok (.ok (), w'.tree) ∧
      ∀ u, self.updateRoot plainfileDisk newRoot u = .ok (.ok (.ok (), moved), u) := by
  -- what `update_root` computes
  obtain ⟨x, hx⟩ := updateRoot_plain self newRoot
  have hrun : Meets (self.moveRoot plainfileDisk newRoot) w (onSuccess fun r u => r.1 = .ok () →
      self.relocate newRoot w.tree = .ok (.ok (), u.tree) ∧ x = .ok r) := by
    unfold DirectoryBackedArray.moveRoot
    rw [meets_bind, meets_onFiles]
    rcases hfiles : self.relocate newRoot w.tree with p | ⟨e | _, t⟩
    · unfold Meets
      rw [hfiles]
      exact id
    · unfold Meets
      rw [hfiles]
      exact nofun
    · unfold Meets
      rw [hfiles]
      show Meets (self.updateRoot plainfileDisk newRoot) { w with tree := t } _
      rw [hx]
      refine (ofExec_onSuccess x).imp (fun r u hr _ => ?_) fun _ _ => trivial
      rw [← hr.2]
      exact ⟨rfl, hr.1⟩
  obtain ⟨hfiles, hok⟩ := hrun.ok h rfl
  refine ⟨hfiles, fun u => ?_⟩
  rw [hx, hok]
  rfl

end Rebuilding

/-! ## The files of the second branch -/

section Copying

variable {T C : Type} {directoryRoot newRoot : Path String} {names : List String} {name : String}
variable {before middle after : FileTree String}

/-- **`Copied directoryRoot newRoot names before after`** — the files of these names have been moved from
one directory to the other, and nothing else has changed. -/
structure Copied (directoryRoot newRoot : Path String) (names : List String)
    (before after : FileTree String) : Prop where
  moved : ∀ n ∈ names, ∃ bytes, before.content (directoryRoot.join n) = some bytes ∧
    after.content (newRoot.join n) = some bytes
  gone : ∀ n ∈ names, after.content (directoryRoot.join n) = none
  kept : ∀ q, (∀ n ∈ names, q ≠ directoryRoot.join n ∧ q ≠ newRoot.join n) →
    after.content q = before.content q

/-- A name that is not among them keeps its file, in both directories. -/
theorem Copied.others (h : Copied directoryRoot newRoot names before after) (hne : newRoot ≠ directoryRoot)
    (hname : name ∉ names) :
    after.content (directoryRoot.join name) = before.content (directoryRoot.join name) ∧
      after.content (newRoot.join name) = before.content (newRoot.join name) := by
  have hnot : ∀ n ∈ names, name ≠ n := fun n hn heq => hname (heq ▸ hn)
  constructor
  · refine h.kept _ fun n hn => ⟨fun heq => hnot n hn (Path.join_inj heq).2, fun heq => ?_⟩
    exact hne (Path.join_inj heq).1.symm
  · refine h.kept _ fun n hn => ⟨fun heq => ?_, fun heq => hnot n hn (Path.join_inj heq).2⟩
    exact hne (Path.join_inj heq).1

/-- A first file, and then the others. -/
theorem Copied.cons (h : Copied directoryRoot newRoot [name] before middle)
    (hrest : Copied directoryRoot newRoot names middle after) (hne : newRoot ≠ directoryRoot) :
    Copied directoryRoot newRoot (name :: names) before after := by
  -- the file of the first one is gone, so that no later one can have its name
  have hnew : name ∉ names := by
    intro hmem
    obtain ⟨bytes, hbytes, -⟩ := hrest.moved name hmem
    rw [h.gone name (List.mem_singleton_self _)] at hbytes
    cases hbytes
  obtain ⟨hfrom, hto⟩ := hrest.others hne hnew
  refine ⟨fun n hn => ?_, fun n hn => ?_, fun q hq => ?_⟩
  · rcases List.mem_cons.mp hn with rfl | hn
    · obtain ⟨bytes, hbytes, hmoved⟩ := h.moved n (List.mem_singleton_self _)
      exact ⟨bytes, hbytes, hto.trans hmoved⟩
    · obtain ⟨bytes, hbytes, hmoved⟩ := hrest.moved n hn
      have hother : n ∉ [name] := by
        intro hmem
        exact hnew (List.mem_singleton.mp hmem ▸ hn)
      exact ⟨bytes, (h.others hne hother).1.symm.trans hbytes, hmoved⟩
  · rcases List.mem_cons.mp hn with rfl | hn
    · exact hfrom.trans (h.gone n (List.mem_singleton_self _))
    · exact hrest.gone n hn
  · have hlater := hrest.kept q fun n hn => hq n (List.mem_cons_of_mem _ hn)
    refine hlater.trans (h.kept q fun n hn => ?_)
    rw [List.mem_singleton.mp hn]
    exact hq name List.mem_cons_self

theorem copyChunk_copied (hne : newRoot ≠ directoryRoot) {chunk : Chunk T Plainfile C}
    (hpath : chunk.disk.path = directoryRoot.join name) :
    Meets (copyChunk newRoot chunk) before
      (onSuccess fun _ t => Copied directoryRoot newRoot [name] before t) := by
  unfold copyChunk
  simp only [show AsRefPath.path chunk.disk = directoryRoot.join name from hpath, Path.fileName_join]
  have hdiffer : directoryRoot.join name ≠ newRoot.join name := fun heq => hne (Path.join_inj heq).1.symm
  rw [meets_bind, meets_ofCall]
  refine ⟨fun _ u hcopy => ?_, fun _ _ _ => ⟨id, trivial⟩⟩
  show Meets (Method.ofCall (FileTree.removeFile (directoryRoot.join name))) u _
  rw [meets_ofCall]
  refine ⟨fun _ v hremove => ?_, fun _ _ _ => ⟨id, trivial⟩⟩
  obtain ⟨hgone, hothers⟩ := FileTree.removeFile_ok hremove
  obtain ⟨bytes, hbytes⟩ := FileTree.copy_src hcopy
  refine ⟨fun n hn => ?_, fun n hn => ?_, fun q hq => ?_⟩
  · rw [List.mem_singleton.mp hn]
    refine ⟨bytes, hbytes, ?_⟩
    rw [hothers _ hdiffer.symm, FileTree.copy_ok hcopy hdiffer, hbytes]
  · rw [List.mem_singleton.mp hn]
    exact hgone
  · obtain ⟨hsource, htarget⟩ := hq name (List.mem_singleton_self _)
    have hcontent := FileTree.copy_content (directoryRoot.join name) before htarget
    rw [hcopy] at hcontent
    exact (hothers q hsource).trans hcontent

/-- The names of the files that the index knows. -/
def chunkNames (self : DirectoryBackedArray T Plainfile C) : List String :=
  self.array.entries.filterMap fun e => e.disk.path.fileName

theorem copyChunks_copied (hne : newRoot ≠ directoryRoot) {chunks : List (Chunk T Plainfile C)}
    (hplace : ∀ e ∈ chunks, InPlace directoryRoot e.disk.path) :
    Meets (Method.forEach (copyChunk newRoot) chunks) before (onSuccess fun _ t =>
      Copied directoryRoot newRoot (chunks.filterMap fun e => e.disk.path.fileName) before t) := by
  -- along the index, from whatever the chunks before have left
  induction chunks generalizing before with
  | nil => exact ⟨nofun, nofun, fun _ _ => rfl⟩
  | cons chunk chunks ih =>
      obtain ⟨name, hname, hpath⟩ := Option.map_eq_some_iff.mp (hplace chunk List.mem_cons_self)
      refine (copyChunk_copied hne hpath.symm).seq fun _ u hu => ?_
      refine (ih fun e he => hplace e (List.mem_cons_of_mem _ he)).imp (fun _ t ht => ?_) fun _ h => h
      have hnames : (chunk :: chunks).filterMap (fun e => e.disk.path.fileName) =
          name :: chunks.filterMap fun e => e.disk.path.fileName := List.filterMap_cons_some hname
      rw [hnames]
      exact hu.cons ht hne

end Copying

/-! ## One branch and the other -/

section Branches

variable {T C : Type} {self : DirectoryBackedArray T Plainfile C} {newRoot : Path String}
variable {tree t renamed copied : FileTree String}

/-- The first branch is the rename. -/
theorem relocate_renamed (h : (tree.renameDir self.directoryRoot newRoot).1 = .ok ())
    (hrun : self.relocate newRoot tree = .ok (.ok (), t)) :
    tree.renameDir self.directoryRoot newRoot = (.ok (), t) := by
  have hends : Meets (self.relocate newRoot) tree (onSuccess fun _ u =>
      tree.renameDir self.directoryRoot newRoot = (.ok (), u)) := by
    unfold DirectoryBackedArray.relocate
    rw [meets_bind, meets_attempt, meets_ofCall]
    refine ⟨fun _ u hu => hu, fun e u hu => ?_⟩
    rw [hu] at h
    cases h
  exact hends.ok hrun

/-- The second one copies the files that the index names. -/
theorem relocate_copied (hne : newRoot ≠ self.directoryRoot)
    (hplace : ∀ e ∈ self.array.entries, InPlace self.directoryRoot e.disk.path)
    (h : (tree.renameDir self.directoryRoot newRoot).1 ≠ .ok ())
    (hrun : self.relocate newRoot tree = .ok (.ok (), t)) :
    Copied self.directoryRoot newRoot (chunkNames self) tree t := by
  have hends : Meets (self.relocate newRoot) tree (onSuccess fun _ u =>
      Copied self.directoryRoot newRoot (chunkNames self) tree u) := by
    unfold DirectoryBackedArray.relocate
    rw [meets_bind, meets_attempt, meets_ofCall]
    refine ⟨fun _ u hu => absurd (congrArg Prod.fst hu) h, fun e u hu => ?_⟩
    have hsame := FileTree.renameDir_error hu
    show Meets (Method.ofCall (FileTree.createDirAll newRoot) >>= fun _ =>
      Method.forEach (copyChunk newRoot) self.array.entries) u _
    rw [meets_bind, meets_ofCall]
    refine ⟨fun _ v hcreate => ?_, fun _ _ _ => ⟨id, trivial⟩⟩
    have hv : ∀ q, v.content q = tree.content q := by
      intro q
      have hdirs := FileTree.createDirAll_content newRoot q u
      rw [hcreate] at hdirs
      exact hdirs.trans (hsame q)
    refine (copyChunks_copied hne hplace).imp (fun _ t ht => ?_) fun _ h => h
    refine ⟨fun n hn => ?_, ht.gone, fun q hq => (ht.kept q hq).trans (hv q)⟩
    rw [← hv]
    exact ht.moved n hn
  exact hends.ok hrun

/-- **Nothing is at a path, nor below it.** -/
structure Fresh (newRoot : Path String) (tree : FileTree String) : Prop where
  noDir : newRoot ∉ tree.dirs
  noFile : ∀ rest, tree.content (newRoot ++ rest) = none

/-- **What the branches make of one name**: they leave the same files of it, under the old root and under
the new one, exactly when the index names it or there is no such file. -/
theorem branches_agree_iff (hfresh : Fresh newRoot tree)
    (hrename : tree.renameDir self.directoryRoot newRoot = (.ok (), renamed))
    (hcopied : Copied self.directoryRoot newRoot (chunkNames self) tree copied) (name : String) :
    (renamed.content (self.directoryRoot.join name) = copied.content (self.directoryRoot.join name) ∧
        renamed.content (newRoot.join name) = copied.content (newRoot.join name)) ↔
      tree.content (self.directoryRoot.join name) = none ∨ name ∈ chunkNames self := by
  have hsource : self.directoryRoot ∈ tree.dirs := FileTree.renameDir_source hrename
  have hne : newRoot ≠ self.directoryRoot := by
    intro heq
    rw [← heq] at hsource
    exact hfresh.noDir hsource
  have hto : renamed.content (newRoot.join name) = tree.content (self.directoryRoot.join name) :=
    FileTree.renameDir_ok hrename [.normal name]
  have hgone : renamed.content (self.directoryRoot.join name) = none :=
    FileTree.renameDir_gone hrename hne.symm [.normal name]
  by_cases hname : name ∈ chunkNames self
  · refine ⟨fun _ => Or.inr hname, fun _ => ⟨?_, ?_⟩⟩
    · rw [hgone, hcopied.gone name hname]
    · obtain ⟨bytes, hbytes, hmoved⟩ := hcopied.moved name hname
      rw [hto, hbytes, hmoved]
  · -- it is not copied
    obtain ⟨hfrom, hnew⟩ := hcopied.others hne hname
    have hempty : tree.content (newRoot.join name) = none := hfresh.noFile [.normal name]
    rw [hgone, hto, hfrom, hnew, hempty]
    exact ⟨fun h => Or.inl h.2, fun h => ⟨(h.resolve_right hname).symm, h.resolve_right hname⟩⟩

end Branches

/-! ## `move_root` -/

section Moves

variable {T C K : Type}

/-- The same files under another schedule of failing calls. -/
def World.scheduled (w : World) (faults : List Bool) : World := { w with tree := { w.tree with faults } }

/-- `load` finds no `meta.dat` in this directory. -/
def MetaMissing (T : Type) (format : Codec (Saved C) K) (coder : K) (root : Path String) (w : World) :
    Prop :=
  ∃ w', (DirectoryBackedArray.load plainfileDisk format coder root :
    Method DiskReadErr World (DirectoryBackedArray T Plainfile C)) w.calm =
      .ok (.error (.ioErr (.file .notFound)), w')

/-- A disk that is a path is opened as its file is. -/
theorem readDisk_calm (path : Path String) (w : World) :
    plainfileDisk.readDisk ⟨path⟩ w.calm =
      if w.tree.content path = none then .ok (.error (.file .notFound), w.calm)
      else .ok (.ok path, w.calm) := by
  show (onTree (FileTree.openRead path) >>= fun _ => (pure path : DiskM (Path String))) w.calm = _
  rcases hc : w.tree.content path with _ | bytes
  · have hopen : w.calm.tree.openRead path = (.error .notFound, w.calm.tree) :=
      FileTree.openRead_missing rfl hc
    simp only [bind, Method.bind, onTree, hopen, if_true]
    rfl
  · have hopen : w.calm.tree.openRead path = (.ok (), w.calm.tree) := FileTree.openRead_calm rfl hc
    simp only [bind, Method.bind, onTree, hopen, reduceCtorEq, if_false]
    rfl

theorem metaMissing_iff {format : Codec (Saved C) K} {coder : K} {root : Path String} {w : World} :
    MetaMissing T format coder root w ↔ w.tree.content (root.join metaFile) = none := by
  have hread := readDisk_calm (root.join metaFile) w
  constructor
  · rintro ⟨w', hrun⟩
    by_contra hsome
    rw [if_neg hsome] at hread
    -- once `meta.dat` is open, every error is reported as one of the disk
    have hload : Meets (DirectoryBackedArray.load plainfileDisk format coder root :
        Method DiskReadErr World (DirectoryBackedArray T Plainfile C)) w.calm
        { ok := fun _ _ => True, error := fun e _ => ∃ d, e = .diskErr d, panic := fun _ => True } := by
      unfold DirectoryBackedArray.load
      show Meets (Method.mapError DiskReadErr.ioErr (plainfileDisk.readDisk ⟨root.join metaFile⟩) >>= _) _ _
      rw [meets_bind, meets_mapError]
      unfold Meets
      rw [hread]
      show Meets (Method.mapError DiskReadErr.diskErr _) w.calm _
      rw [meets_mapError]
      exact (meets_any _ _).mono (fun _ _ _ => trivial) (fun e _ _ => ⟨e, rfl⟩) fun _ _ => trivial
    obtain ⟨d, hd⟩ := hload.error hrun
    cases hd
  · intro hnone
    rw [if_pos hnone] at hread
    refine ⟨w.calm, ?_⟩
    unfold DirectoryBackedArray.load
    show (Method.mapError DiskReadErr.ioErr (plainfileDisk.readDisk ⟨root.join metaFile⟩) >>= _) w.calm = _
    simp only [bind, Method.bind, Method.mapError, hread]
    rfl

/-- **`SameOutcome format coder a newRoot w renamed copied`** — the array, its files under both roots,
and whether `load` finds a `meta.dat` under the new one, do not tell one branch from the other. -/
structure SameOutcome (format : Codec (Saved C) K) (coder : K) (a : DirectoryBackedArray T Plainfile C)
    (newRoot : Path String) (w : World) (renamed copied : DirectoryBackedArray T Plainfile C × World) :
    Prop where
  array : renamed.1 = copied.1
  files : ∀ name, name = metaFile ∨ name ∈ chunkNames a →
    renamed.2.tree.content (a.directoryRoot.join name) =
        copied.2.tree.content (a.directoryRoot.join name) ∧
      renamed.2.tree.content (newRoot.join name) = copied.2.tree.content (newRoot.join name)
  found : ∀ moved, moved = renamed ∨ moved = copied →
    (MetaMissing T format coder newRoot moved.2 ↔ MetaMissing T format coder a.directoryRoot w)

/-- **When the branches of `move_root` cannot be told apart.**  The chunk files of `self` lie directly in
its root, and nothing is at `new_root`.  One call of `move_root` (or `a_move_root`) renames the directory;
another one, on the same files, fails to and falls back to copying; both return `Ok`.  They have the same
outcome exactly when there was no `meta.dat`, or the index names it as the file of a chunk. -/
theorem moveRoot_branches_exact (format : Codec (Saved C) K) (coder : K)
    (move : PathDisk Plainfile → DirectoryBackedArray T Plainfile C → Path String →
      DiskM (Except DiskCreateErr Unit × DirectoryBackedArray T Plainfile C))
    (hmove : move = DirectoryBackedArray.moveRoot ∨ move = DirectoryBackedArray.aMoveRoot)
    (self : DirectoryBackedArray T Plainfile C) (newRoot : Path String) (w : World)
    (succeeds fails : List Bool) (renamed copied : DirectoryBackedArray T Plainfile C × World)
    (hplace : ∀ e ∈ self.array.entries, InPlace self.directoryRoot e.disk.path)
    (hfresh : Fresh newRoot w.tree)
    (hrename : ((w.scheduled succeeds).tree.renameDir self.directoryRoot newRoot).1 = .ok ())
    (hfallback : ((w.scheduled fails).tree.renameDir self.directoryRoot newRoot).1 ≠ .ok ())
    (hrenamed : move plainfileDisk self newRoot (w.scheduled succeeds) =
      .ok (.ok (.ok (), renamed.1), renamed.2))
    (hcopied : move plainfileDisk self newRoot (w.scheduled fails) =
      .ok (.ok (.ok (), copied.1), copied.2)) :
    SameOutcome format coder self newRoot w renamed copied ↔
      w.tree.content (self.directoryRoot.join metaFile) = none ∨ metaFile ∈ chunkNames self := by
  have hmove : move = DirectoryBackedArray.moveRoot := by
    rcases hmove with h | h
    · exact h
    · rw [h]
      funext ops a
      exact a.aMoveRoot_eq ops
  subst hmove
  obtain ⟨hfirst, hupdate⟩ := moveRoot_run hrenamed
  obtain ⟨hsecond, hupdate'⟩ := moveRoot_run hcopied
  have hsource := relocate_renamed hrename hfirst
  have hne : newRoot ≠ self.directoryRoot := by
    intro heq
    have hdir : self.directoryRoot ∈ (w.scheduled succeeds).tree.dirs :=
      FileTree.renameDir_source hsource
    rw [← heq] at hdir
    exact hfresh.noDir hdir
  have hfiles := relocate_copied hne hplace hfallback hsecond
  have hstart : Fresh newRoot (w.scheduled succeeds).tree := ⟨hfresh.noDir, hfresh.noFile⟩
  have hcopy : Copied self.directoryRoot newRoot (chunkNames self) (w.scheduled succeeds).tree
      copied.2.tree := ⟨hfiles.moved, hfiles.gone, hfiles.kept⟩
  have hagree := branches_agree_iff hstart hsource hcopy
  constructor
  · intro h
    exact (hagree metaFile).mp (h.files metaFile (Or.inl rfl))
  · intro hmeta
    have hsame := (hagree metaFile).mpr hmeta
    have hnew : renamed.2.tree.content (newRoot.join metaFile) =
        w.tree.content (self.directoryRoot.join metaFile) :=
      FileTree.renameDir_ok hsource [.normal metaFile]
    refine ⟨?_, fun name hname => ?_, fun moved hmoved => ?_⟩
    · -- both have run `update_root`, which looks at no file
      have heq := Except.ok.inj ((hupdate w).symm.trans (hupdate' w))
      exact congrArg Prod.snd (Except.ok.inj (congrArg Prod.fst heq))
    · rcases hname with rfl | hname
      · exact hsame
      · exact (hagree name).mpr (Or.inr hname)
    · rw [metaMissing_iff, metaMissing_iff]
      rcases hmoved with rfl | rfl
      · rw [hnew]
      · rw [← hsame.2, hnew]

end Moves

/-! ### A directory of one chunk, saved and not -/

/-- The directory, with its description in `meta.dat`. -/
def savedBlock : World :=
  let w := oneFile zeroBlock.flatten otherSecrets
  { w with
    tree := { w.tree with
      files := w.tree.files.insert [.rootDir, .normal "a", .normal metaFile] (.replicate 16 0) } }

/-- `save`, and then `move_root`: one branch takes `meta.dat` to the new root, the other one leaves it. -/
theorem savedBlock_branches_differ :
    let self : DirectoryBackedArray UInt8 Plainfile Unit := oneBlock ⟨[.rootDir, .normal "a", .normal "x"]⟩
    let newRoot : Path String := [.rootDir, .normal "b"]
    self.save plainfileDisk countingFormat () (oneFile zeroBlock.flatten otherSecrets) =
        .ok (.ok (), savedBlock) ∧
      (∀ e ∈ self.array.entries, InPlace self.directoryRoot e.disk.path) ∧
      Fresh newRoot savedBlock.tree ∧
      ((savedBlock.scheduled []).tree.renameDir self.directoryRoot newRoot).1 = .ok () ∧
      ((savedBlock.scheduled [true]).tree.renameDir self.directoryRoot newRoot).1 ≠ .ok () ∧
      ∃ renamed copied : DirectoryBackedArray UInt8 Plainfile Unit × World,
        self.moveRoot plainfileDisk newRoot (savedBlock.scheduled []) =
          .ok (.ok (.ok (), renamed.1), renamed.2) ∧
        self.moveRoot plainfileDisk newRoot (savedBlock.scheduled [true]) =
          .ok (.ok (.ok (), copied.1), copied.2) ∧
        ¬SameOutcome countingFormat () self newRoot savedBlock renamed copied := by
  refine ⟨rfl, by decide, ⟨by decide, fun _ => rfl⟩, rfl, by decide, ⟨_, _⟩, ⟨_, _⟩, rfl, rfl, fun h => ?_⟩
  have hmeta := (h.files metaFile (Or.inl rfl)).2
  cases hmeta

/-- Not saved, it is moved to the same by both. -/
theorem moveRoot_branches_exact_unsaved :
    let self : DirectoryBackedArray UInt8 Plainfile Unit := oneBlock ⟨[.rootDir, .normal "a", .normal "x"]⟩
    let newRoot : Path String := [.rootDir, .normal "b"]
    let w := oneFile zeroBlock.flatten otherSecrets
    ∃ renamed copied : DirectoryBackedArray UInt8 Plainfile Unit × World,
      self.moveRoot plainfileDisk newRoot (w.scheduled []) = .ok (.ok (.ok (), renamed.1), renamed.2) ∧
      self.moveRoot plainfileDisk newRoot (w.scheduled [true]) =
        .ok (.ok (.ok (), copied.1), copied.2) ∧
      SameOutcome countingFormat () self newRoot w renamed copied := by
  refine ⟨⟨_, _⟩, ⟨_, _⟩, rfl, rfl, ?_⟩
  exact (moveRoot_branches_exact countingFormat () DirectoryBackedArray.moveRoot (Or.inl rfl) _ _ _ [] [true]
    _ _ (by decide) ⟨by decide, fun _ => rfl⟩ rfl (by decide) rfl rfl).mpr (Or.inl rfl)

end BackedData.Directory
