/-
# BackedData.Directory.RerootErrors — what `update_root` and `move_root` leave when they fail

Neither operation is undone when it fails half way.  An error of moving the files leaves the array as it
was; an error of building a disk leaves the root as it was, with the entries before that disk rebuilt and
the others untouched (`updateChunks_rerooted`).  The files are never lost: each is where it was, or at its
place in the new directory (`relocate_kept`).  The new directory is another one, and not the old one under
another spelling or behind a link, which no two paths are here.
-/
import BackedData.Directory.Reroot

namespace BackedData.Directory

open Logic.Files
open Logic.Outcome
open Logic.Stateful
open BackedData.Entry
open BackedData.Array
open BackedData.Disks (zeroBlock)

set_option autoImplicit false

section Errors

variable {T D C : Type} [AsRefPath D] {ops : PathDisk D} {spec : DiskSpec D}
variable {a a' : DirectoryBackedArray T D C} {newRoot directoryRoot : Path String} {w w' : World}
variable {tree t : FileTree String}

/-! ## The entries -/

/-- **The loop of `update_root`, wherever it ends**: the entries before that have been rebuilt at their new
paths, and the others have not been touched. -/
theorem updateChunks_rerooted (h : Follows ops spec) (chunks : List (Chunk T D C)) :
    Meets (updateChunks ops newRoot chunks) w (onSuccess fun r _ => ∃ done rest done',
      chunks = done ++ rest ∧ r.2 = done' ++ rest ∧ List.Forall₂ (Rerooted newRoot) done done' ∧
        (r.1 = .ok () ↔ rest = [])) := by
  induction chunks generalizing w with
  | nil => exact ⟨[], [], [], rfl, rfl, .nil, fun _ => rfl, fun _ => rfl⟩
  | cons chunk chunks ih =>
      unfold updateChunks
      rcases hname : (AsRefPath.path chunk.disk).fileName with _ | name
      · rw [meets_bind]
        exact fun hno => hno
      rw [meets_bind, meets_ofExec_ok (unwrap_some name)]
      show Meets ((ops.tryFrom (newRoot.join name)).attempt >>= _) w _
      rw [meets_bind, meets_attempt]
      refine (h.tryFrom (newRoot.join name) w).mono (fun disk w₁ hb => ?_)
        (fun e w₁ _ => ⟨[], chunk :: chunks, [], rfl, rfl, .nil, fun hok => (by cases hok),
          fun hnil => absurd hnil (List.cons_ne_nil _ _)⟩) fun _ _ => id
      show Meets (ops.drop chunk.disk >>= fun _ => updateChunks ops newRoot chunks >>= _) w₁ _
      apply (meets_any (ops.drop chunk.disk) w₁).seq
      intro _ w₂ _
      rw [meets_bind]
      refine (ih (w := w₂)).mono (fun r w₃ hr => ?_) (fun _ _ he => he) fun _ hp => hp
      obtain ⟨done, rest, done', hchunks, hr, hdone, hend⟩ := hr
      have hhead : Rerooted newRoot chunk { chunk with disk } := by
        refine ⟨rfl, rfl, ?_⟩
        rw [hname, hb.named]
        rfl
      refine ⟨chunk :: done, rest, { chunk with disk } :: done', ?_, ?_, .cons hhead hdone, hend⟩
      · rw [hchunks]
        rfl
      · show { chunk with disk } :: r.2 = _
        rw [hr]
        rfl

/-- **`PartlyRerooted newRoot a a'`** — the root and the tables are those of `a`, a part of the entries
from the first one on has been rebuilt, and at least one entry has not. -/
structure PartlyRerooted (newRoot : Path String) (a a' : DirectoryBackedArray T D C) : Prop where
  directoryRoot : a'.directoryRoot = a.directoryRoot
  keyStarts : a'.array.keyStarts = a.array.keyStarts
  keyEnds : a'.array.keyEnds = a.array.keyEnds
  entries : ∃ done rest done', a.array.entries = done ++ rest ∧ rest ≠ [] ∧
    a'.array.entries = done' ++ rest ∧ List.Forall₂ (Rerooted newRoot) done done'

/-- An error of `update_root`. -/
theorem updateRoot_error (h : Follows ops spec) :
    Meets (a.updateRoot ops newRoot) w (onSuccess fun r _ => ∀ e, r.1 = .error e →
      (∃ e', e = .diskErr e') ∧ PartlyRerooted newRoot a r.2) := by
  unfold DirectoryBackedArray.updateRoot
  rw [meets_bind]
  refine (updateChunks_rerooted h a.array.entries).mono (fun r w' hr => ?_) (fun _ _ he => he)
    fun _ hp => hp
  obtain ⟨res, entries⟩ := r
  obtain ⟨done, rest, done', hentries, hres, hdone, hend⟩ := hr
  cases res with
  | ok _ => exact nofun
  | error e' =>
      intro e he
      cases he
      have hrest : rest ≠ [] := fun hnil => nomatch hend.mpr hnil
      exact ⟨⟨e', rfl⟩, rfl, rfl, rfl, done, rest, done', hentries, hrest, hres, hdone⟩

/-- `update_root` changes no file that exists, also when it fails. -/
theorem updateRoot_grows (h : Follows ops spec)
    (hsettled : ∀ e ∈ a.array.entries, ∃ bytes, spec.settled e.disk bytes) :
    Meets (a.updateRoot ops newRoot) w (onSuccess fun _ w' => Grows w w') := by
  unfold DirectoryBackedArray.updateRoot
  rw [meets_bind]
  refine (updateChunks_rebuilt w.secrets 0 h hsettled fun _ i => ?_).mono
    (fun r w' hr => ?_) (fun _ _ he => he) fun _ hp => hp
  · rw [Nat.zero_add]
  · obtain ⟨res, entries⟩ := r
    cases res with
    | ok _ => exact hr.1
    | error e => exact hr.1

/-! ## The files -/

/-- Every file of the directory is where it was, or at its place in the new one. -/
def Somewhere (directoryRoot newRoot : Path String) (before t : FileTree String) : Prop :=
  ∀ name, t.content (directoryRoot.join name) = before.content (directoryRoot.join name) ∨
    t.content (newRoot.join name) = before.content (directoryRoot.join name)

theorem Safe.somewhere (h : Safe directoryRoot newRoot tree t) : Somewhere directoryRoot newRoot tree t :=
  fun name => (h name).imp id And.right

/-- **Moving the files loses none**, also when it fails. -/
theorem relocate_kept (hne : newRoot ≠ a.directoryRoot)
    (hplace : ∀ e ∈ a.array.entries, InPlace a.directoryRoot (AsRefPath.path e.disk)) :
    Meets (a.relocate newRoot) tree (sure False (fun _ => Somewhere a.directoryRoot newRoot tree)
      (Somewhere a.directoryRoot newRoot tree)) := by
  unfold DirectoryBackedArray.relocate
  rw [meets_bind, meets_attempt, meets_ofCall]
  refine ⟨fun _ t hrename name => Or.inr (FileTree.renameDir_ok hrename [.normal name]),
    fun e u hrename => ?_⟩
  have hsame := FileTree.renameDir_error hrename
  have hstart : Safe a.directoryRoot newRoot tree (u.createDirAll newRoot).2 := by
    intro name
    rw [FileTree.createDirAll_content, hsame]
    exact Or.inl rfl
  show Meets (Method.ofCall (FileTree.createDirAll newRoot) >>= fun _ =>
    Method.forEach (copyChunk newRoot) a.array.entries) u _
  rw [meets_bind, meets_ofCall]
  refine ⟨fun _ v hcreate => ?_, fun e v hcreate => ⟨id, ?_⟩⟩
  · rw [hcreate] at hstart
    exact (copyChunks_safe hne hplace hstart).imp (fun _ _ ht => ht.somewhere) fun _ ht => ht.somewhere
  · rw [hcreate] at hstart
    exact hstart.somewhere

/-- Files that are somewhere still are when files have been created. -/
theorem Somewhere.grows (h : Somewhere directoryRoot newRoot tree w.tree) (hgrows : Grows w w')
    {name : String} {bytes : List UInt8} (hbytes : tree.content (directoryRoot.join name) = some bytes) :
    w'.tree.content (directoryRoot.join name) = some bytes ∨
      w'.tree.content (newRoot.join name) = some bytes := by
  rcases h name with hhere | hmoved
  · exact Or.inl (hgrows.kept _ _ (hhere.trans hbytes))
  · exact Or.inr (hgrows.kept _ _ (hmoved.trans hbytes))

/-- An error of `move_root`. -/
theorem moveRoot_error (h : Follows ops spec) :
    Meets (a.moveRoot ops newRoot) w (onSuccess fun r _ => ∀ e, r.1 = .error e →
      match e with
      | .ioErr _ => r.2 = a
      | .diskErr _ => PartlyRerooted newRoot a r.2) := by
  unfold DirectoryBackedArray.moveRoot
  apply meets_last
  intro r w₁
  cases r with
  | error e =>
      intro e' he
      cases he
      rfl
  | ok _ =>
      refine (updateRoot_error h).imp (fun r w' hr e he => ?_) fun _ h => h
      obtain ⟨⟨e', rfl⟩, hpart⟩ := hr e he
      exact hpart

/-- `move_root` loses no file, also when it fails. -/
theorem moveRoot_kept (h : Follows ops spec) (hne : newRoot ≠ a.directoryRoot)
    (hplace : ∀ e ∈ a.array.entries, InPlace a.directoryRoot (AsRefPath.path e.disk))
    (hsettled : ∀ e ∈ a.array.entries, ∃ bytes, spec.settled e.disk bytes) :
    Meets (a.moveRoot ops newRoot) w (onSuccess fun _ w' => ∀ name bytes,
      w.tree.content (a.directoryRoot.join name) = some bytes →
        w'.tree.content (a.directoryRoot.join name) = some bytes ∨
          w'.tree.content (newRoot.join name) = some bytes) := by
  unfold DirectoryBackedArray.moveRoot
  rw [meets_bind, meets_onFiles]
  refine (relocate_kept hne hplace).mono (fun _ t ht => ?_) (fun e t ht name bytes hbytes => ?_)
    fun _ hp => hp
  · exact (updateRoot_grows h hsettled).imp
      (fun _ _ hgrows name bytes hbytes => ht.grows (w := { w with tree := t }) hgrows hbytes) fun _ h => h
  · have hhere : Somewhere a.directoryRoot newRoot w.tree t := ht.2
    exact hhere.grows (w := { w with tree := t }) (.refl _) hbytes

end Errors

/-- **What an error leaves.**  If `update_root` fails, the root and the tables are as before, and so are
the entries from the disk on that could not be built; those before it have been rebuilt.  If `move_root`
fails in moving the files, the array is as before; otherwise it is left as by `update_root`.  Where no disk
holds anything unwritten, no file is lost: `update_root` keeps all of them, and after `move_root` from
another directory, in which the chunks lie, each is where it was or at its place in the new directory. -/
theorem reroot_errors {T C : Type} (crates : Crates) (t : DiskType) (a a' : DirectoryBackedArray T t.Disk C)
    (newRoot : Path String) (w w' : World) (e : DiskCreateErr) :
    (a.updateRoot (t.ops crates) newRoot w = .ok (.ok (.error e, a'), w') →
        PartlyRerooted newRoot a a' ∧
        ((∀ c ∈ a.array.entries, ∃ bytes, (t.spec crates).settled c.disk bytes) →
          ∀ path bytes, w.tree.content path = some bytes → w'.tree.content path = some bytes)) ∧
      (a.moveRoot (t.ops crates) newRoot w = .ok (.ok (.error e, a'), w') →
        (match e with
          | .ioErr _ => a' = a
          | .diskErr _ => PartlyRerooted newRoot a a') ∧
        (newRoot ≠ a.directoryRoot →
          (∀ c ∈ a.array.entries, InPlace a.directoryRoot (AsRefPath.path c.disk)) →
          (∀ c ∈ a.array.entries, ∃ bytes, (t.spec crates).settled c.disk bytes) →
          ∀ name bytes, w.tree.content (a.directoryRoot.join name) = some bytes →
            w'.tree.content (a.directoryRoot.join name) = some bytes ∨
              w'.tree.content (newRoot.join name) = some bytes)) := by
  have hfollows := t.follows crates
  refine ⟨fun hrun => ⟨?_, fun hsettled => ?_⟩, fun hrun => ⟨?_, fun hne hplace hsettled => ?_⟩⟩
  · exact ((updateRoot_error hfollows).ok hrun e rfl).2
  · exact ((updateRoot_grows hfollows hsettled).ok hrun).kept
  · exact (moveRoot_error hfollows).ok hrun e rfl
  · exact (moveRoot_kept hfollows hne hplace hsettled).ok hrun

/-! ### Two mapped chunks -/

/-- A mapped block, between two sessions. -/
def mappedBlock (name : String) : MmapDisk where
  path := [.rootDir, .normal "a", .normal name]
  mmap := .readMmap (.nonEmpty 16) 0

/-- Two of them in one directory. -/
def twoBlocks : DirectoryBackedArray UInt8 DiskType.mmap.Disk Unit where
  array :=
    { keyStarts := [0, 16], keyEnds := [16, 32]
      entries := [.new (mappedBlock "x") (), .new (mappedBlock "y") ()] }
  directoryRoot := [.rootDir, .normal "a"]

/-- Their files, beside an empty directory; the third call to come fails, which opens the second file. -/
def thirdFails : World where
  tree :=
    { files := ((∅ : AList fun _ : Path String => List UInt8).insert
        [.rootDir, .normal "a", .normal "x"] zeroBlock.flatten).insert
        [.rootDir, .normal "a", .normal "y"] zeroBlock.flatten
      dirs := [[.rootDir], [.rootDir, .normal "a"], [.rootDir, .normal "b"]]
      faults := [false, false, true] }
  holes := []
  secrets _ := otherSecrets
  uses := []

/-- `update_root` fails at the second chunk: the first entry is at its new path, where an empty file has
been created, and does not load any more. -/
theorem twoBlocks_halfway :
    WellFormed (BackedBy (DiskType.mmap.spec vectorCrates) blockFormat thirdFails) twoBlocks.array
        [zeroBlock.flatten, zeroBlock.flatten] ∧
      ∃ a' w', twoBlocks.updateRoot (DiskType.mmap.ops vectorCrates) [.rootDir, .normal "b"] thirdFails =
          .ok (.ok (.error (.diskErr (.file .failed)), a'), w') ∧
        (a'.array.entries.map fun c => AsRefPath.path c.disk) =
          [[.rootDir, .normal "b", .normal "x"], [.rootDir, .normal "a", .normal "y"]] ∧
        ∀ c ∈ a'.array.entries.head?,
          ¬Loads (DiskType.mmap.ops vectorCrates) blockFormat w' c zeroBlock.flatten := by
  have hidle : Disks.Idle zeroBlock.flatten false (.readMmap (.nonEmpty 16) 0) := .reading rfl
  refine ⟨⟨Logic.Ranges.consecutive_iff.mpr ⟨rfl, rfl⟩, ?_⟩, _, _, rfl, rfl, ?_⟩
  · exact .cons ⟨Or.inl rfl, _, _, rfl, ⟨false, hidle⟩, rfl, rfl⟩
      (.cons ⟨Or.inl rfl, _, _, rfl, ⟨false, hidle⟩, rfl, rfl⟩ .nil)
  · rintro c hc ⟨w, hw⟩
    cases hc
    cases hw

/-- The error of `update_root` on the two blocks: both files are still there. -/
theorem reroot_errors_halfway :
    ∃ a' w', twoBlocks.updateRoot (DiskType.mmap.ops vectorCrates) [.rootDir, .normal "b"] thirdFails =
        .ok (.ok (.error (.diskErr (.file .failed)), a'), w') ∧
      PartlyRerooted [.rootDir, .normal "b"] twoBlocks a' ∧
      ∀ path bytes, thirdFails.tree.content path = some bytes → w'.tree.content path = some bytes := by
  have hidle : Disks.Idle zeroBlock.flatten false (.readMmap (.nonEmpty 16) 0) := .reading rfl
  have herror := (reroot_errors vectorCrates .mmap twoBlocks _ [.rootDir, .normal "b"] thirdFails _
    (.diskErr (.file .failed))).1 rfl
  refine ⟨_, _, rfl, herror.1, herror.2 fun c hc => ?_⟩
  rcases List.mem_cons.mp hc with rfl | hc
  · exact ⟨_, false, hidle⟩
  · rw [List.mem_singleton] at hc
    rw [hc]
    exact ⟨_, false, hidle⟩

end BackedData.Directory
