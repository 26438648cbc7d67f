/-
# BackedData.Directory.Cleanup — what the operations that consume an array leave of its directory

`delete` removes the chunk files one by one and then the directory; `append_dir` moves the chunk files away
and then removes the directory of `rhs`.  Both ignore whether that last call succeeds, so that a file that
is left keeps the directory, and nobody is told.  `Cleared` says what is left of a directory when its chunk
files are gone, and `Leftover` which file that can be: `meta.dat`, that `append_dir` removes and the other
three operations do not.  A call on the directory that fails by itself, or that is refused because the root
ends in no name, keeps it too.
-/
import BackedData.Directory.Grow

namespace BackedData.Directory

open Logic.Files
open Logic.Outcome
open Logic.Stateful
open BackedData.Entry
open BackedData.Array

set_option autoImplicit false

variable {T D C : Type} [AsRefPath D]

/-! ## The operations -/

namespace DirectoryBackedArray

/-- `a_remove`. -/
def aRemove (self : DirectoryBackedArray T D C) (entryIdx : Nat) : FilesM (DirectoryBackedArray T D C) := do
  match self.array.entries[entryIdx]? with
  | some chunk => .ofCall (FileTree.removeFile (AsRefPath.path chunk.disk))
  | none => pure ()
  let array ← .ofExec (self.array.remove entryIdx)
  pure { self with array }

/-- `while !self.is_empty() { self.remove(0)?; }`, for a number of rounds; `none` is a loop that goes on. -/
def removeAll (remove : DirectoryBackedArray T D C → Nat → FilesM (DirectoryBackedArray T D C)) :
    Nat → DirectoryBackedArray T D C → FilesM (Option (DirectoryBackedArray T D C))
  | 0, _ => pure none
  | rounds + 1, self =>
      if self.array.isEmpty then pure (some self)
      else do
        let self ← remove self 0
        removeAll remove rounds self

/-- `delete`; `none` is a loop that goes on. -/
def delete (rounds : Nat) (self : DirectoryBackedArray T D C) : FilesM (Option Unit) := do
  match ← removeAll remove rounds self with
  | none => pure none
  | some self => do
      let _ ← (Method.ofCall (FileTree.removeDir self.directoryRoot)).attempt
      pure (some ())

/-- `a_delete`. -/
def aDelete (rounds : Nat) (self : DirectoryBackedArray T D C) : FilesM (Option Unit) := do
  match ← removeAll aRemove rounds self with
  | none => pure none
  | some self => do
      let _ ← (Method.ofCall (FileTree.removeDir self.directoryRoot)).attempt
      pure (some ())

theorem aDelete_eq (rounds : Nat) (self : DirectoryBackedArray T D C) :
    self.aDelete rounds = self.delete rounds := rfl

end DirectoryBackedArray

/-! ## The files of one directory -/

section Clearing

variable {root : Path String} {paths others all : List (Path String)} {p : Path String}
variable {before middle after : FileTree String}

/-- **`Cleared root paths before after`** — of the files that are directly in this directory those at the
paths are gone, and the others are as they were. -/
structure Cleared (root : Path String) (paths : List (Path String)) (before after : FileTree String) :
    Prop where
  dirs : after.dirs = before.dirs
  gone : ∀ q ∈ paths, q.parent = root → after.content q = none
  kept : ∀ q ∉ paths, q.parent = root → after.content q = before.content q

theorem Cleared.refl (root : Path String) (tree : FileTree String) : Cleared root [] tree tree :=
  ⟨rfl, nofun, fun _ _ _ => rfl⟩

/-- One clearing after another. -/
theorem Cleared.trans (h : Cleared root paths before middle) (h' : Cleared root others middle after)
    (hall : ∀ q, q ∈ all ↔ q ∈ paths ∨ q ∈ others) : Cleared root all before after := by
  refine ⟨h'.dirs.trans h.dirs, fun q hq hparent => ?_, fun q hq hparent => ?_⟩
  · by_cases hlater : q ∈ others
    · exact h'.gone q hlater hparent
    · have hfirst := ((hall q).mp hq).resolve_right hlater
      rw [h'.kept q hlater hparent]
      exact h.gone q hfirst hparent
  · have hnot : ¬(q ∈ paths ∨ q ∈ others) := fun hor => hq ((hall q).mpr hor)
    obtain ⟨hfirst, hlater⟩ := not_or.mp hnot
    rw [h'.kept q hlater hparent]
    exact h.kept q hfirst hparent

/-- Where nothing changes, nothing is cleared. -/
theorem Cleared.unchanged (hdirs : after.dirs = middle.dirs)
    (hcontent : ∀ q, after.content q = middle.content q) (h : Cleared root paths before middle) :
    Cleared root paths before after :=
  ⟨hdirs.trans h.dirs, fun q hq hparent => (hcontent q).trans (h.gone q hq hparent),
    fun q hq hparent => (hcontent q).trans (h.kept q hq hparent)⟩

/-- A file that is removed, or was not there. -/
theorem Cleared.attempted (h : before.failsNext = false) :
    Cleared root [p] before (before.removeFile p).2 := by
  refine ⟨(FileTree.removeFile_rest p before).1, fun q hq _ => ?_, fun q hq _ => ?_⟩
  · rw [FileTree.removeFile_content, if_pos ⟨List.mem_singleton.mp hq, h⟩]
  · rw [FileTree.removeFile_content]
    exact if_neg fun hc => hq (List.mem_singleton.mpr hc.1)

/-- **`Removed paths before after`** — the files at these paths have been removed, and that is all. -/
structure Removed (paths : List (Path String)) (before after : FileTree String) : Prop where
  dirs : after.dirs = before.dirs
  content : after.content = fun q => if q ∈ paths then none else before.content q

theorem Removed.cleared (h : Removed paths before after) : Cleared root paths before after := by
  refine ⟨h.dirs, fun q hq _ => ?_, fun q hq _ => ?_⟩
  · rw [h.content]
    exact if_pos hq
  · rw [h.content]
    exact if_neg hq

theorem Removed.cons (hremove : before.removeFile p = (.ok (), middle)) (h : Removed paths middle after) :
    Removed (p :: paths) before after := by
  obtain ⟨hgone, hrest⟩ := FileTree.removeFile_ok hremove
  have hdirs := (FileTree.removeFile_rest p before).1
  rw [hremove] at hdirs
  refine ⟨h.dirs.trans hdirs, funext fun q => ?_⟩
  rw [h.content]
  dsimp only
  by_cases hq : q ∈ paths
  · rw [if_pos hq, if_pos (List.mem_cons_of_mem _ hq)]
  rw [if_neg hq]
  by_cases hp : q = p
  · rw [hp, if_pos List.mem_cons_self, hgone]
  · rw [if_neg fun h => (List.mem_cons.mp h).elim hp hq, hrest q hp]

/-- The contents after the file at `disk` has been moved into a directory. -/
def relocated (directoryRoot disk : Path String) (content : Path String → Option (List UInt8))
    (q : Path String) : Option (List UInt8) :=
  if disk.fileName.map directoryRoot.join = some q then content disk
  else if q = disk then none
  else content q

theorem relocated_name {directoryRoot disk : Path String} {name : String} (hname : disk.fileName = some name)
    (content : Path String → Option (List UInt8)) (q : Path String) :
    relocated directoryRoot disk content q =
      if directoryRoot.join name = q then content disk else if q = disk then none else content q := by
  simp only [relocated, hname, Option.map_some, Option.some.injEq]

/-- **One chunk that is moved**, in either way. -/
theorem moveChunk_relocated {directoryRoot : Path String} (chunk : Chunk T D C) :
    Meets (moveChunk directoryRoot chunk) before (onSuccess fun _ t => t.dirs = before.dirs ∧
      t.content = relocated directoryRoot (AsRefPath.path chunk.disk) before.content) := by
  generalize hdisk : AsRefPath.path chunk.disk = disk
  unfold moveChunk
  simp only [hdisk]
  rcases hname : disk.fileName with _ | name
  · rw [meets_bind]
    exact fun h => h
  rw [meets_bind, meets_ofExec_ok (unwrap_some name)]
  by_cases hne : disk ≠ directoryRoot.join name
  · have hmoved : ∀ u : FileTree String, u.content (directoryRoot.join name) = before.content disk →
        u.content disk = none →
        (∀ q, q ≠ disk → q ≠ directoryRoot.join name → u.content q = before.content q) →
        u.content = relocated directoryRoot disk before.content := by
      intro u htarget hgone hrest
      funext q
      rw [relocated_name hname]
      by_cases hq : directoryRoot.join name = q
      · rw [if_pos hq, ← hq, htarget]
      rw [if_neg hq]
      by_cases hsrc : q = disk
      · rw [if_pos hsrc, hsrc, hgone]
      · rw [if_neg hsrc, hrest q hsrc (Ne.symm hq)]
    simp only [if_pos hne]
    rw [meets_bind, meets_attempt, meets_ofCall]
    refine ⟨fun _ t hrename => ?_, fun e t hrename => ?_⟩
    · obtain ⟨htarget, hgone, hrest⟩ := FileTree.rename_ok hrename hne
      have hdirs := FileTree.rename_dirs disk (directoryRoot.join name) before
      rw [hrename] at hdirs
      exact ⟨hdirs, hmoved t htarget hgone hrest⟩
    · have hsame := FileTree.rename_error hrename
      have hdirs := FileTree.rename_dirs disk (directoryRoot.join name) before
      rw [hrename] at hdirs
      simp only [meets_bind, meets_ofCall]
      refine ⟨fun _ u hcopy => ⟨fun _ v hremove => ?_, fun _ _ _ => ⟨id, trivial⟩⟩,
        fun _ _ _ => ⟨id, trivial⟩⟩
      have hrest : ∀ q, q ≠ directoryRoot.join name → u.content q = t.content q := by
        intro q hq
        have hcontent := FileTree.copy_content disk t hq
        rw [hcopy] at hcontent
        exact hcontent
      obtain ⟨hgone, hothers⟩ := FileTree.removeFile_ok hremove
      have hsecond := (FileTree.removeFile_rest disk u).1
      rw [hremove] at hsecond
      refine ⟨hsecond.trans ((FileTree.copy_dirs hcopy).trans hdirs), hmoved v ?_ hgone fun q hsrc hdst => ?_⟩
      · rw [hothers _ hne.symm, FileTree.copy_ok hcopy hne, hsame]
      · rw [hothers q hsrc, hrest q hdst, hsame]
  · simp only [if_neg hne]
    refine ⟨rfl, funext fun q => ?_⟩
    rw [relocated_name hname, ← Decidable.not_not.mp hne]
    by_cases hq : disk = q
    · rw [if_pos hq, hq]
    · rw [if_neg hq, if_neg (Ne.symm hq)]

/-- A file that is moved into another directory is gone from its own. -/
theorem Cleared.relocated {directoryRoot : Path String} (hne : directoryRoot ≠ root)
    (hdirs : after.dirs = before.dirs)
    (hcontent : after.content = relocated directoryRoot p before.content) :
    Cleared root [p] before after := by
  -- the target is in the other directory
  have hout : ∀ q : Path String, q.parent = root → p.fileName.map directoryRoot.join ≠ some q := by
    intro q hparent htarget
    obtain ⟨name, -, rfl⟩ := Option.map_eq_some_iff.mp htarget
    exact hne ((List.dropLast_concat).symm.trans hparent)
  refine ⟨hdirs, fun q hq hparent => ?_, fun q hq hparent => ?_⟩
  · rw [hcontent, Directory.relocated, if_neg (hout q hparent), if_pos (List.mem_singleton.mp hq)]
  · rw [hcontent, Directory.relocated, if_neg (hout q hparent), if_neg fun h => hq (List.mem_singleton.mpr h)]

/-- The paths of the files of some chunks. -/
def chunkPaths (chunks : List (Chunk T D C)) : List (Path String) :=
  chunks.map fun e => AsRefPath.path e.disk

/-- The moves of all chunks leave the same in every run: the calls that fail make no difference. -/
theorem moveChunks_relocated {directoryRoot : Path String} (chunks : List (Chunk T D C)) :
    Meets (Method.forEach (moveChunk directoryRoot) chunks) before (onSuccess fun _ t =>
      t.dirs = before.dirs ∧
        t.content = (chunkPaths chunks).foldl (fun c p => relocated directoryRoot p c) before.content) := by
  induction chunks generalizing before with
  | nil => exact ⟨rfl, rfl⟩
  | cons chunk chunks ih =>
      refine (moveChunk_relocated chunk).seq fun _ u hu => ?_
      refine ih.imp (fun _ t ht => ⟨ht.1.trans hu.1, ?_⟩) fun _ h => h
      rw [ht.2, hu.2]
      rfl

theorem moveChunks_cleared {directoryRoot : Path String} (hne : directoryRoot ≠ root)
    (chunks : List (Chunk T D C)) :
    Meets (Method.forEach (moveChunk directoryRoot) chunks) before
      (onSuccess fun _ t => Cleared root (chunkPaths chunks) before t) := by
  induction chunks generalizing before with
  | nil => exact .refl root before
  | cons chunk chunks ih =>
      refine (moveChunk_relocated chunk).seq fun _ u hu => ?_
      refine ih.imp (fun _ t ht => (Cleared.relocated hne hu.1 hu.2).trans ht fun q => ?_) fun _ h => h
      show q ∈ AsRefPath.path chunk.disk :: chunkPaths chunks ↔ _
      rw [List.mem_cons, List.mem_singleton]

/-- **Whether the directory goes with its files**: if those that are cleared are all that is in it, its path
ends in a name, and the call does not fail by itself. -/
theorem Cleared.removeDir_iff (h : Cleared root paths before after) (hdir : root ∈ before.dirs)
    (honce : before.dirs.Nodup) (hflat : ∀ q ∈ before.dirs, q ≠ [] → q.parent ≠ root) :
    root ∉ (after.removeDir root).2.dirs ↔ after.failsNext = false ∧ root.fileName ≠ none ∧
      ∀ q ∈ before.files.keys, q ≠ [] → q.parent = root → q ∈ paths := by
  rw [FileTree.removeDir_gone_iff (h.dirs ▸ hdir) (h.dirs ▸ honce)]
  refine and_congr_right fun _ => and_congr_right fun _ => ?_
  constructor
  · intro hempty q hq hne hparent
    by_contra hmem
    have hkept := h.kept q hmem hparent
    have hkey : q ∈ after.files.keys := by
      rw [FileTree.mem_keys_iff, hkept]
      exact FileTree.mem_keys_iff.mp hq
    exact hempty q (List.mem_append_left _ hkey) hne hparent
  · intro hall q hq hne hparent
    rcases List.mem_append.mp hq with hkey | hsub
    · by_cases hmem : q ∈ paths
      · exact FileTree.mem_keys_iff.mp hkey (h.gone q hmem hparent)
      · have hbefore : q ∈ before.files.keys := by
          rw [FileTree.mem_keys_iff, ← h.kept q hmem hparent]
          exact FileTree.mem_keys_iff.mp hkey
        exact hmem (hall q hbefore hne hparent)
    · rw [h.dirs] at hsub
      exact hflat q hsub hne hparent

end Clearing

/-! ## Removing all chunks -/

section Deleting

open DirectoryBackedArray (removeAll)

variable {self left : DirectoryBackedArray T D C} {root : Path String} {tree t : FileTree String}

/-- One round of the loop: the file of the first chunk has been removed, and its entry, unless a key is
missing. -/
theorem remove_first :
    Meets (self.remove 0) tree (onSuccess fun self' t => self'.directoryRoot = self.directoryRoot ∧
      ∀ e es, self.array.entries = e :: es → tree.removeFile (AsRefPath.path e.disk) = (.ok (), t) ∧
        (self'.array.entries = es ∨ self'.array.entries = e :: es)) := by
  unfold DirectoryBackedArray.remove
  rcases hentries : self.array.entries with _ | ⟨e, es⟩
  · rw [List.getElem?_nil]
    simp only [meets_bind, meets_pure]
    refine meets_ofExec (fun array _ => ⟨rfl, fun e es heq => ?_⟩) fun _ _ => id
    cases heq
  · rw [List.getElem?_cons_zero]
    simp only [meets_bind, meets_pure, meets_ofCall]
    refine ⟨fun _ u hremove => ?_, fun _ _ _ => ⟨id, trivial⟩⟩
    refine meets_ofExec (fun array harray => ⟨rfl, ?_⟩) fun _ _ => id
    rintro e' es' heq
    cases heq
    refine ⟨hremove, ?_⟩
    rcases remove_inv harray with herased | ⟨rfl, -⟩
    · rw [hentries] at herased
      exact Or.inl herased
    · exact Or.inr hentries

/-- Where the file of the first chunk is missing, the loop does not end well. -/
theorem removeAll_missing {e : Chunk T D C} {es : List (Chunk T D C)} (hentries : self.array.entries = e :: es)
    (hmissing : tree.content (AsRefPath.path e.disk) = none) (rounds : Nat) :
    Meets (removeAll DirectoryBackedArray.remove rounds self) tree (onSuccess fun r _ => r = none) := by
  cases rounds with
  | zero => exact rfl
  | succ rounds =>
      unfold removeAll
      rw [if_neg fun hempty => by rw [BackedArray.isEmpty, hentries] at hempty; cases hempty]
      refine remove_first.seq fun self' u hu => ?_
      exact absurd hmissing (FileTree.removeFile_there (hu.2 e es hentries).1)

/-- **The loop, when it ends**: the chunk files are gone, and there was one call for each. -/
theorem removeAll_removed (rounds : Nat) :
    Meets (removeAll DirectoryBackedArray.remove rounds self) tree (onSuccess fun r t =>
      ∀ left, r = some left → left.directoryRoot = self.directoryRoot ∧
        Removed (chunkPaths self.array.entries) tree t ∧
        t.faults = tree.faults.drop self.array.entries.length) := by
  -- a round leaves another array and other files
  induction rounds generalizing self tree with
  | zero => exact nofun
  | succ rounds ih =>
      unfold removeAll
      by_cases hempty : self.array.isEmpty = true
      · rw [if_pos hempty]
        rintro left ⟨⟩
        have hnil : self.array.entries = [] := List.isEmpty_iff.mp hempty
        rw [hnil]
        exact ⟨rfl, ⟨rfl, rfl⟩, rfl⟩
      · rw [if_neg hempty]
        obtain ⟨e, es, hentries⟩ := List.exists_cons_of_ne_nil fun hnil => hempty (List.isEmpty_iff.mpr hnil)
        refine remove_first.seq fun self' u hu => ?_
        obtain ⟨hroot, hfirst⟩ := hu
        obtain ⟨hremove, hleft⟩ := hfirst e es hentries
        rcases hleft with hleft | hleft
        · refine ih.imp (fun r t ht left hr => ?_) fun _ h => h
          obtain ⟨hroot', hremoved, hfaults⟩ := ht left hr
          have hrest := FileTree.removeFile_rest (AsRefPath.path e.disk) tree
          rw [hremove] at hrest
          rw [hleft] at hremoved hfaults
          rw [hentries]
          refine ⟨hroot'.trans hroot, .cons hremove hremoved, ?_⟩
          rw [hfaults, hrest.2, List.drop_tail, List.length_cons]
        · -- the entry is still there, and its file is not: the next round fails
          refine (removeAll_missing hleft (FileTree.removeFile_ok hremove).1 rounds).imp
            (fun r t hr left heq => ?_) fun _ h => h
          rw [hr] at heq
          cases heq

/-- Every round removes a file, so that more rounds than there are files are enough. -/
theorem removeAll_ends {rounds : Nat} (h : tree.files.keys.length < rounds) :
    Meets (removeAll DirectoryBackedArray.remove rounds self) tree (onSuccess fun r _ => r ≠ none) := by
  induction rounds generalizing self tree with
  | zero => omega
  | succ rounds ih =>
      unfold removeAll
      by_cases hempty : self.array.isEmpty = true
      · rw [if_pos hempty]
        exact nofun
      · rw [if_neg hempty]
        obtain ⟨e, es, hentries⟩ := List.exists_cons_of_ne_nil fun hnil => hempty (List.isEmpty_iff.mpr hnil)
        refine remove_first.seq fun self' u hu => ih ?_
        have hfewer := FileTree.removeFile_fewer (hu.2 e es hentries).1
        omega

end Deleting

/-! ## The directory of a consumed array -/

section Consuming

variable {a self s : DirectoryBackedArray T D C} {rounds more : Nat} {tree moved t t' u : FileTree String}

/-- **`OnlyChunks a tree`** — the directory of the array is there, and in it is nothing but chunk files of
the array and perhaps a `meta.dat`. -/
structure OnlyChunks (a : DirectoryBackedArray T D C) (tree : FileTree String) : Prop where
  isDir : a.directoryRoot ∈ tree.dirs
  once : tree.dirs.Nodup
  flat : ∀ q ∈ tree.dirs, q ≠ [] → q.parent ≠ a.directoryRoot
  files : ∀ q ∈ tree.files.keys, q ≠ [] → q.parent = a.directoryRoot →
    q ∈ chunkPaths a.array.entries ∨ q = a.directoryRoot.join metaFile

/-- There is a `meta.dat`, and it is not the file of a chunk. -/
def Leftover (a : DirectoryBackedArray T D C) (tree : FileTree String) : Prop :=
  tree.content (a.directoryRoot.join metaFile) ≠ none ∧
    a.directoryRoot.join metaFile ∉ chunkPaths a.array.entries

/-- When the chunk files are gone, nothing else than a leftover keeps the directory. -/
theorem OnlyChunks.removeDir_iff (h : OnlyChunks a tree)
    (hcleared : Cleared a.directoryRoot (chunkPaths a.array.entries) tree u) :
    a.directoryRoot ∉ (u.removeDir a.directoryRoot).2.dirs ↔
      u.failsNext = false ∧ a.directoryRoot.fileName ≠ none ∧ ¬Leftover a tree := by
  rw [hcleared.removeDir_iff h.isDir h.once h.flat]
  refine and_congr_right fun _ => and_congr_right fun _ => ?_
  constructor
  · rintro hall ⟨hmeta, hnot⟩
    exact hnot (hall _ (FileTree.mem_keys_iff.mpr hmeta) (List.concat_ne_nil _ _) List.dropLast_concat)
  · intro hno q hq hne hparent
    rcases h.files q hq hne hparent with hchunk | rfl
    · exact hchunk
    · by_contra hnot
      exact hno ⟨FileTree.mem_keys_iff.mp hq, hnot⟩

/-- **`delete`, when it returns `Ok`**: whether the directory is gone, and what is left if it is. -/
theorem delete_left (h : OnlyChunks a tree) (hrun : a.delete rounds tree = .ok (.ok (some ()), t)) :
    (a.directoryRoot ∉ t.dirs ↔ tree.failsAt a.array.entries.length = false ∧
        a.directoryRoot.fileName ≠ none ∧ ¬Leftover a tree) ∧
      (a.directoryRoot ∉ t.dirs → t.dirs = tree.dirs.erase a.directoryRoot) ∧
      t.content = fun q => if q ∈ chunkPaths a.array.entries then none else tree.content q := by
  have hends : Meets (a.delete rounds) tree (onSuccess fun r t => r = some () →
      (a.directoryRoot ∉ t.dirs ↔ tree.failsAt a.array.entries.length = false ∧
          a.directoryRoot.fileName ≠ none ∧ ¬Leftover a tree) ∧
        (a.directoryRoot ∉ t.dirs → t.dirs = tree.dirs.erase a.directoryRoot) ∧
        t.content = fun q => if q ∈ chunkPaths a.array.entries then none else tree.content q) := by
    unfold DirectoryBackedArray.delete
    refine (removeAll_removed rounds).seq fun r u hu => ?_
    rcases r with _ | left
    · exact nofun
    · obtain ⟨hroot, hremoved, hfaults⟩ := hu left rfl
      show Meets (_ >>= _) _ _
      rw [meets_bind, meets_attempt_ofCall]
      intro _
      rw [hroot]
      refine ⟨?_, fun hgone => ?_, ?_⟩
      · rw [← FileTree.failsNext_drop hfaults]
        exact h.removeDir_iff hremoved.cleared
      · rw [FileTree.removeDir_erased (hremoved.dirs ▸ h.isDir) hgone, hremoved.dirs]
      · rw [← hremoved.content]
        exact funext fun q => FileTree.removeDir_content _ q u
  exact hends.ok hrun rfl

/-- Its loop ends. -/
theorem delete_ends (h : tree.files.keys.length < rounds) :
    Meets (a.delete rounds) tree (onSuccess fun r _ => r = some ()) := by
  unfold DirectoryBackedArray.delete
  refine (removeAll_ends h).seq fun r u hr => ?_
  rcases r with _ | left
  · exact absurd rfl hr
  · show Meets (_ >>= _) _ _
    rw [meets_bind, meets_attempt_ofCall]
    exact rfl

/-- **`append_dir`**, when the chunks have been moved. -/
theorem appendDir_run (hroots : self.directoryRoot ≠ a.directoryRoot)
    (hmoves : Method.forEach (moveChunk self.directoryRoot) a.array.entries tree = .ok (.ok (), moved))
    (hrun : self.appendDir a tree = .ok (.ok s, t)) :
    s = { self with array := merged self.array a.array } ∧
      t = ((moved.removeFile (a.directoryRoot.join metaFile)).2.removeDir a.directoryRoot).2 := by
  have hends : Meets (self.appendDir a) tree (onSuccess fun s t =>
      s = { self with array := merged self.array a.array } ∧
        t = ((moved.removeFile (a.directoryRoot.join metaFile)).2.removeDir a.directoryRoot).2) := by
    unfold DirectoryBackedArray.appendDir
    simp only [if_pos hroots]
    rw [meets_bind_of_eq hmoves, meets_bind, meets_attempt_ofCall]
    show Meets (_ >>= _) _ _
    rw [meets_bind, meets_attempt_ofCall]
    exact merge_spec _
  exact hends.ok hrun

theorem aAppendDir_run (hroots : self.directoryRoot ≠ a.directoryRoot)
    (hmoves : Method.forEach (moveChunk self.directoryRoot) a.array.entries tree = .ok (.ok (), moved))
    (hrun : self.aAppendDir a tree = .ok (.ok s, t)) :
    s = { self with array := merged self.array a.array } ∧ t = (moved.removeDir a.directoryRoot).2 := by
  have hends : Meets (self.aAppendDir a) tree (onSuccess fun s t =>
      s = { self with array := merged self.array a.array } ∧
        t = (moved.removeDir a.directoryRoot).2) := by
    unfold DirectoryBackedArray.aAppendDir
    simp only [if_pos hroots]
    rw [meets_bind_of_eq hmoves, meets_bind, meets_attempt_ofCall]
    exact merge_spec _
  exact hends.ok hrun

/-- `append_dir` removes `meta.dat` too, and so the directory, unless one of its two last calls fails. -/
theorem appendDir_gone_iff (h : OnlyChunks a tree) (hroots : self.directoryRoot ≠ a.directoryRoot)
    (hmoves : Method.forEach (moveChunk self.directoryRoot) a.array.entries tree = .ok (.ok (), moved))
    (hrun : self.appendDir a tree = .ok (.ok s, t)) :
    a.directoryRoot ∉ t.dirs ↔ moved.failsAt 1 = false ∧ a.directoryRoot.fileName ≠ none ∧
      (Leftover a tree → moved.failsNext = false) := by
  have hmoved : Cleared a.directoryRoot (chunkPaths a.array.entries) tree moved :=
    (moveChunks_cleared hroots a.array.entries).ok hmoves
  obtain ⟨hdirs, hfaults⟩ := FileTree.removeFile_rest (a.directoryRoot.join metaFile) moved
  have hsecond : (moved.removeFile (a.directoryRoot.join metaFile)).2.failsNext = moved.failsAt 1 :=
    FileTree.failsNext_drop (hfaults.trans List.drop_one.symm)
  rw [(appendDir_run hroots hmoves hrun).2, ← hsecond]
  by_cases hfirst : moved.failsNext = false
  · have hcleared : Cleared a.directoryRoot
        (chunkPaths a.array.entries ++ [a.directoryRoot.join metaFile]) tree
        (moved.removeFile (a.directoryRoot.join metaFile)).2 :=
      hmoved.trans (.attempted hfirst) fun q => List.mem_append
    rw [hcleared.removeDir_iff h.isDir h.once h.flat]
    refine and_congr_right fun _ => and_congr_right fun _ => ⟨fun _ _ => hfirst, fun _ q hq hne hparent => ?_⟩
    rcases h.files q hq hne hparent with hchunk | hmeta
    · exact List.mem_append_left _ hchunk
    · exact List.mem_append_right _ (List.mem_singleton.mpr hmeta)
  · -- `meta.dat` stays, if there is one
    have hcleared : Cleared a.directoryRoot (chunkPaths a.array.entries) tree
        (moved.removeFile (a.directoryRoot.join metaFile)).2 := by
      refine hmoved.unchanged hdirs fun q => ?_
      rw [FileTree.removeFile_content]
      exact if_neg fun hc => hfirst hc.2
    rw [h.removeDir_iff hcleared]
    refine and_congr_right fun _ => and_congr_right fun _ => ?_
    exact ⟨fun hno hleft => absurd hleft hno, fun himp hleft => hfirst (himp hleft)⟩

/-- **`SameFiles t t'`** — the same directories, and the same files with the same bytes. -/
structure SameFiles (t t' : FileTree String) : Prop where
  dirs : t.dirs = t'.dirs
  content : t.content = t'.content

/-- **`CleanedUp a t t'`** — after both forms of an operation the directory of `a` is gone, and the files
are the same. -/
structure CleanedUp (a : DirectoryBackedArray T D C) (t t' : FileTree String) : Prop where
  gone : a.directoryRoot ∉ t.dirs
  aGone : a.directoryRoot ∉ t'.dirs
  same : SameFiles t t'

end Consuming

/-- **When a consumed array leaves no directory.**  In the directory of `a` are only its chunk files, and
perhaps a `meta.dat`; each form of an operation runs on the same files, with calls of its own that fail.
Once `delete` and `a_delete`, or `append_dir` and `a_append_dir` with `a` on the right, have returned `Ok`, the
directory is gone and both forms have left the same files and the same array exactly when there is no
`meta.dat` that is not the file of a chunk, the root ends in a name, and in neither form does the call of
`remove_dir` fail by itself: that call is the one behind a `remove_file` for each chunk, the second one
behind the moves of `append_dir`, and the first one behind those of `a_append_dir`. -/
theorem consumed_exact (a : DirectoryBackedArray T D C) (tree : FileTree String) (faults : List Bool)
    (h : OnlyChunks a tree) :
    (∀ rounds rounds' t t', a.delete rounds tree = .ok (.ok (some ()), t) →
      a.aDelete rounds' { tree with faults } = .ok (.ok (some ()), t') →
        (CleanedUp a t t' ↔ ¬Leftover a tree ∧ a.directoryRoot.fileName ≠ none ∧
          tree.failsAt a.array.entries.length = false ∧
          FileTree.failsAt a.array.entries.length { tree with faults } = false)) ∧
      ∀ (self s s' : DirectoryBackedArray T D C) (moved moved' t t' : FileTree String),
        self.directoryRoot ≠ a.directoryRoot →
        Method.forEach (moveChunk self.directoryRoot) a.array.entries tree = .ok (.ok (), moved) →
        Method.forEach (moveChunk self.directoryRoot) a.array.entries { tree with faults } =
          .ok (.ok (), moved') →
        self.appendDir a tree = .ok (.ok s, t) →
        self.aAppendDir a { tree with faults } = .ok (.ok s', t') →
          (CleanedUp a t t' ∧ s = s' ↔ ¬Leftover a tree ∧ a.directoryRoot.fileName ≠ none ∧
            moved.failsAt 1 = false ∧ moved'.failsNext = false) := by
  have h' : OnlyChunks a { tree with faults } := ⟨h.isDir, h.once, h.flat, h.files⟩
  constructor
  · intro rounds rounds' t t' hrun hrun'
    rw [a.aDelete_eq rounds'] at hrun'
    obtain ⟨hgone, hdirs, hcontent⟩ := delete_left h hrun
    obtain ⟨hgone', hdirs', hcontent'⟩ := delete_left h' hrun'
    constructor
    · intro hclean
      obtain ⟨hcall, hname, hno⟩ := hgone.mp hclean.gone
      exact ⟨hno, hname, hcall, (hgone'.mp hclean.aGone).1⟩
    · rintro ⟨hno, hname, hcall, hcall'⟩
      have hleft := hgone.mpr ⟨hcall, hname, hno⟩
      have hleft' := hgone'.mpr ⟨hcall', hname, hno⟩
      exact ⟨hleft, hleft', (hdirs hleft).trans (hdirs' hleft').symm, hcontent.trans hcontent'.symm⟩
  · intro self s s' moved moved' t t' hroots hmoves hmoves' hrun hrun'
    have hmoved : Cleared a.directoryRoot (chunkPaths a.array.entries) tree moved :=
      (moveChunks_cleared hroots a.array.entries).ok hmoves
    have hmoved' : Cleared a.directoryRoot (chunkPaths a.array.entries) { tree with faults } moved' :=
      (moveChunks_cleared hroots a.array.entries).ok hmoves'
    have hgone := appendDir_gone_iff h hroots hmoves hrun
    obtain ⟨hs, ht⟩ := appendDir_run hroots hmoves hrun
    obtain ⟨hs', ht'⟩ := aAppendDir_run hroots hmoves' hrun'
    have hgone' := h'.removeDir_iff hmoved'
    rw [← ht'] at hgone'
    constructor
    · rintro ⟨hclean, -⟩
      obtain ⟨hcall, hname, -⟩ := hgone.mp hclean.gone
      obtain ⟨hcall', -, hno⟩ := hgone'.mp hclean.aGone
      exact ⟨hno, hname, hcall, hcall'⟩
    · rintro ⟨hno, hname, hcall, hcall'⟩
      have hleft := hgone.mpr ⟨hcall, hname, fun hmeta => absurd hmeta hno⟩
      have hleft' := hgone'.mpr ⟨hcall', hname, hno⟩
      refine ⟨⟨hleft, hleft', ?_, ?_⟩, hs.trans hs'.symm⟩
      · obtain ⟨hdirs, -⟩ := FileTree.removeFile_rest (a.directoryRoot.join metaFile) moved
        rw [ht] at hleft ⊢
        rw [ht'] at hleft' ⊢
        rw [FileTree.removeDir_erased (by rw [hdirs, hmoved.dirs]; exact h.isDir) hleft,
          FileTree.removeDir_erased (hmoved'.dirs ▸ h.isDir) hleft', hdirs, hmoved.dirs, hmoved'.dirs]
      · -- what `append_dir` removes first is not there any more
        have hmissing : moved.content (a.directoryRoot.join metaFile) = none := by
          by_cases hchunk : a.directoryRoot.join metaFile ∈ chunkPaths a.array.entries
          · exact hmoved.gone _ hchunk List.dropLast_concat
          · rw [hmoved.kept _ hchunk List.dropLast_concat]
            by_contra hmeta
            exact hno ⟨hmeta, hchunk⟩
        have hmoves := ((moveChunks_relocated a.array.entries).ok hmoves).2
        have hmoves' := ((moveChunks_relocated a.array.entries).ok hmoves').2
        funext q
        rw [ht, ht', FileTree.removeDir_content, FileTree.removeDir_content,
          FileTree.removeFile_missing hmissing, hmoves, hmoves']
        rfl

/-! ### A directory with and without `meta.dat` -/

/-- Two directories with a file each, the second of them saved. -/
def savedDirectories : FileTree String :=
  { twoDirectories with
    files := twoDirectories.files.insert (Path.join [.rootDir, .normal "b"] metaFile) [0] }

/-- `delete` removes the chunk of a saved directory, returns `Ok` and leaves the directory; `append_dir`
removes it, and `a_append_dir` does not. -/
theorem savedDirectories_left :
    let a := oneChunk "b" "b" "x" [3]
    let self := oneChunk "a" "a" "y" [1, 2]
    OnlyChunks a savedDirectories ∧
      (∃ t, a.delete 2 savedDirectories = .ok (.ok (some ()), t) ∧ a.directoryRoot ∈ t.dirs) ∧
      ∃ s t t', self.appendDir a savedDirectories = .ok (.ok s, t) ∧
        self.aAppendDir a savedDirectories = .ok (.ok s, t') ∧
        a.directoryRoot ∉ t.dirs ∧ a.directoryRoot ∈ t'.dirs := by
  refine ⟨⟨by decide, by decide, by decide, by decide⟩, ⟨_, rfl, by decide⟩, _, _, _, rfl, rfl, ?_, ?_⟩
  · decide
  · decide

/-- A directory that was not saved is cleaned up by all four, also where a move has failed and the file
has been copied. -/
theorem consumed_exact_unsaved :
    let a := oneChunk "b" "b" "x" [3]
    let self := oneChunk "a" "a" "y" [1, 2]
    let tree := twoDirectories
    (∃ t t', a.delete 2 tree = .ok (.ok (some ()), t) ∧
        a.aDelete 2 { tree with faults := [false] } = .ok (.ok (some ()), t') ∧ CleanedUp a t t') ∧
      ∃ s s' t t', self.appendDir a tree = .ok (.ok s, t) ∧
        self.aAppendDir a { tree with faults := [true] } = .ok (.ok s', t') ∧ CleanedUp a t t' ∧ s = s' := by
  intro a self tree
  have hno : ¬Leftover a tree := fun h => h.1 rfl
  have honly : OnlyChunks a tree := ⟨by decide, by decide, by decide, by decide⟩
  refine ⟨⟨_, _, rfl, rfl, ?_⟩, _, _, _, _, rfl, rfl, ?_⟩
  · exact ((consumed_exact a tree [false] honly).1 2 2 _ _ rfl rfl).mpr ⟨hno, nofun, rfl, rfl⟩
  · exact ((consumed_exact a tree [true] honly).2 self _ _ _ _ _ _ (by decide) rfl rfl rfl rfl).mpr
      ⟨hno, nofun, rfl, rfl⟩

end BackedData.Directory
