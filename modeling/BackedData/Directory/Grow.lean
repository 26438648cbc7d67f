/-
# BackedData.Directory.Grow — `append`, `append_memory` and `remove` keep index and directory in step

The operations of `directory/sync_impl.rs` that change one chunk, and its file with it.  `append` writes
the file first and pushes the entry only then; `remove` deletes the file first and drops the entry only
then.  In between either may stop with an error.  `Housed` is the invariant: the files of the entries hold
the chunks that the tables lay out, and the entries are named by different draws of the random source, all
of them made already, so that the next draw names a file that no entry has.
-/
import BackedData.Directory.Append
import BackedData.Logic.Trace

namespace BackedData.Directory

open Logic.Files
open Logic.Outcome
open Logic.Stateful
open Logic.Trace
open BackedData.Entry
open BackedData.Array

set_option autoImplicit false

variable {T D C : Type}

/-! ## The operations -/

namespace DirectoryBackedArray

/-- `new`. -/
def new (directoryRoot : Path String) (tree : FileTree String) :
    Except FileError (DirectoryBackedArray T D C) × FileTree String :=
  match tree.createDirAll directoryRoot with
  | (.error e, tree) => (.error e, tree)
  | (.ok (), tree) => (.ok { array := .new, directoryRoot }, tree)

/-- `next_target`, with the name that `Uuid::new_v4` gives.  A `Plainfile` is made of any path. -/
def nextTarget (self : DirectoryBackedArray T Plainfile C) (uuid : String) : Plainfile :=
  ⟨self.directoryRoot.join uuid⟩

/-- `append`. -/
def append [Inhabited C] (codec : Codec (List T) C) (self : DirectoryBackedArray T Plainfile C)
    (values : List T) (uuid : String) (tree : FileTree String) :
    Exec (Except PlainError Unit × DirectoryBackedArray T Plainfile C × FileTree String) := do
  let nextTarget := self.nextTarget uuid
  let (r, array, tree) ← self.array.append (plainfile codec) values nextTarget default tree
  pure (r, { self with array }, tree)

/-- `append_memory`. -/
def appendMemory [Inhabited C] (codec : Codec (List T) C) (self : DirectoryBackedArray T Plainfile C)
    (values : List T) (uuid : String) (tree : FileTree String) :
    Exec (Except PlainError Unit × DirectoryBackedArray T Plainfile C × FileTree String) := do
  let nextTarget := self.nextTarget uuid
  let (r, array, tree) ← self.array.appendMemory (plainfile codec) values nextTarget default tree
  pure (r, { self with array }, tree)

/-- `remove`: what `self` is afterwards; an error leaves it as it was. -/
def remove [AsRefPath D] (self : DirectoryBackedArray T D C) (entryIdx : Nat) :
    FilesM (DirectoryBackedArray T D C) := do
  match self.array.entries[entryIdx]? with
  | some chunk => .ofCall (FileTree.removeFile (AsRefPath.path chunk.disk))
  | none => pure ()
  let array ← .ofExec (self.array.remove entryIdx)
  pure { self with array }

end DirectoryBackedArray

/-- A directory in use: the array, the files, and how many names have been drawn. -/
structure DirState (T C : Type) where
  dir : DirectoryBackedArray T Plainfile C
  tree : FileTree String
  drawn : Nat

/-- The operations on one chunk. -/
inductive DirOp (T : Type) where
  | append (values : List T)
  | appendMemory (values : List T)
  | remove (entryIdx : Nat)
  deriving DecidableEq, Repr

/-- The operation: its result, and the directory it leaves. -/
def DirOp.apply [Inhabited C] (codec : Codec (List T) C) (uuids : Nat → String) (st : DirState T C) :
    DirOp T → Exec (Except PlainError Unit × DirState T C)
  | .append values => do
      let (r, dir, tree) ← st.dir.append codec values (uuids st.drawn) st.tree
      pure (r, { dir, tree, drawn := st.drawn + 1 })
  | .appendMemory values => do
      let (r, dir, tree) ← st.dir.appendMemory codec values (uuids st.drawn) st.tree
      pure (r, { dir, tree, drawn := st.drawn + 1 })
  | .remove entryIdx =>
      match st.dir.remove entryIdx st.tree with
      | .error p => .error p
      | .ok (.error e, tree) => .ok (.error (.file e), { st with tree })
      | .ok (.ok dir, tree) => .ok (.ok (), { st with dir, tree })

/-- The directory as a system that answers operations; one that panics is not taken. -/
def dirNext [Inhabited C] (codec : Codec (List T) C) (uuids : Nat → String) (st : DirState T C)
    (op : DirOp T) : Option (Except PlainError Unit × DirState T C) :=
  (op.apply codec uuids st).toOption

/-! ## What one operation does -/

section Calls

variable {codec : Codec (List T) C} {arr arr' : BackedArray (Chunk T Plainfile C)}
  {tree tree' : FileTree String} {r : Except PlainError Unit} {values : List T} {target : Plainfile}
  {coder : C}

/-- Writing a file: it has the bytes if the write succeeded, and no other one has changed. -/
theorem encodeToDisk_plainfile {e e' : Chunk T Plainfile C} {val : List T}
    (h : e.encodeToDisk (plainfile codec) val tree = (r, e', tree')) :
    e' = e ∧ (∀ q, q ≠ e.disk.path → tree'.content q = tree.content q) ∧
      (r = .ok () → tree'.content e.disk.path = some (codec.encode e.coder val)) := by
  unfold BackedEntry.encodeToDisk plainfile at h
  simp only at h
  rcases hopen : tree.openWrite e.disk.path with ⟨err | _, t⟩
  · simp only [hopen] at h
    cases h
    refine ⟨rfl, fun q hq => ?_, nofun⟩
    have := FileTree.openWrite_content tree hq
    rwa [hopen] at this
  · have hother : ∀ q, q ≠ e.disk.path → t.content q = tree.content q := by
      intro q hq
      have := FileTree.openWrite_content tree hq
      rwa [hopen] at this
    simp only [hopen] at h
    rcases hwrite : t.write e.disk.path (codec.encode e.coder val) with ⟨err | _, u⟩
    · simp only [hwrite] at h
      cases h
      refine ⟨rfl, fun q hq => ?_, nofun⟩
      have := FileTree.write_content (codec.encode e.coder val) t hq
      rw [hwrite] at this
      exact this.trans (hother q hq)
    · simp only [hwrite] at h
      cases h
      refine ⟨rfl, fun q hq => ?_, fun _ => FileTree.write_ok hwrite⟩
      have := FileTree.write_content (codec.encode e.coder val) t hq
      rw [hwrite] at this
      exact this.trans (hother q hq)

/-- **`Appends codec values target coder arr tree r arr' tree'`** — what the two `append`s of the array
come to: nothing but the file at the target may have changed, and an entry for it has been pushed if it
was written. -/
inductive Appends (codec : Codec (List T) C) (values : List T) (target : Plainfile) (coder : C)
    (arr : BackedArray (Chunk T Plainfile C)) (tree : FileTree String) :
    Except PlainError Unit → BackedArray (Chunk T Plainfile C) → FileTree String → Prop where
  | failed {e : PlainError} {tree' : FileTree String}
      (hothers : ∀ q, q ≠ target.path → tree'.content q = tree.content q) :
      Appends codec values target coder arr tree (.error e) arr tree'
  | pushed {entry : Chunk T Plainfile C} {arr' : BackedArray (Chunk T Plainfile C)}
      {tree' : FileTree String} (hdisk : entry.disk = target) (hcoder : entry.coder = coder)
      (hpush : arr.pushEntry entry values.length = .ok arr')
      (hothers : ∀ q, q ≠ target.path → tree'.content q = tree.content q)
      (hwritten : tree'.content target.path = some (codec.encode coder values)) :
      Appends codec values target coder arr tree (.ok ()) arr' tree'

/-- **`WroteFile codec values target coder tree w`** — what writing a new entry for the target comes to. -/
structure WroteFile (codec : Codec (List T) C) (values : List T) (target : Plainfile) (coder : C)
    (tree : FileTree String) (w : Except PlainError Unit × Chunk T Plainfile C × FileTree String) : Prop where
  disk_eq : w.2.1.disk = target
  coder_eq : w.2.1.coder = coder
  others : ∀ q, q ≠ target.path → w.2.2.content q = tree.content q
  written : w.1 = .ok () → w.2.2.content target.path = some (codec.encode coder values)

theorem writeUnload_wrote :
    WroteFile codec values target coder tree
      ((BackedEntry.new target coder).writeUnload (plainfile codec) values tree) := by
  unfold BackedEntry.writeUnload
  rcases hw : (BackedEntry.new target coder : Chunk T Plainfile C).unload.encodeToDisk (plainfile codec)
    values tree with ⟨r, entry, t⟩
  obtain ⟨rfl, hothers, hwritten⟩ := encodeToDisk_plainfile hw
  exact ⟨rfl, rfl, hothers, hwritten⟩

theorem write_wrote :
    WroteFile codec values target coder tree
      ((BackedEntry.new target coder).write (plainfile codec) values tree) := by
  unfold BackedEntry.write
  rcases hw : (BackedEntry.new target coder : Chunk T Plainfile C).encodeToDisk (plainfile codec)
    values tree with ⟨r, entry, t⟩
  obtain ⟨rfl, hothers, hwritten⟩ := encodeToDisk_plainfile hw
  cases r with
  | error e => exact ⟨rfl, rfl, hothers, hwritten⟩
  | ok _ => exact ⟨rfl, rfl, hothers, hwritten⟩

/-- The push that follows the write, however the entry was written. -/
theorem WroteFile.pushed {entry : Chunk T Plainfile C} {t : FileTree String}
    (hw : WroteFile codec values target coder tree (.ok (), entry, t))
    (h : (do
        let arr ← arr.pushEntry entry values.length
        pure (.ok (), arr, t)) = (.ok (r, arr', tree') : Exec _)) :
    Appends codec values target coder arr tree r arr' tree' := by
  obtain ⟨pushed, hpush, h⟩ := exec_bind_inv h
  cases h
  exact .pushed hw.disk_eq hw.coder_eq hpush hw.others (hw.written rfl)

theorem append_appends
    (h : arr.append (plainfile codec) values target coder tree = .ok (r, arr', tree')) :
    Appends codec values target coder arr tree r arr' tree' := by
  unfold BackedArray.append at h
  have hw : WroteFile codec values target coder tree _ := writeUnload_wrote
  rcases hwrite : (BackedEntry.new target coder).writeUnload (plainfile codec) values tree with
    ⟨err | _, entry, t⟩
  · rw [hwrite] at h hw
    cases h
    exact .failed hw.others
  · rw [hwrite] at h hw
    exact hw.pushed h

theorem appendMemory_appends
    (h : arr.appendMemory (plainfile codec) values target coder tree = .ok (r, arr', tree')) :
    Appends codec values target coder arr tree r arr' tree' := by
  unfold BackedArray.appendMemory at h
  have hw : WroteFile codec values target coder tree _ := write_wrote
  rcases hwrite : (BackedEntry.new target coder).write (plainfile codec) values tree with
    ⟨err | _, entry, t⟩
  · rw [hwrite] at h hw
    cases h
    exact .failed hw.others
  · rw [hwrite] at h hw
    exact hw.pushed h

end Calls

/-! ## The invariant -/

/-- The path that an entry records. -/
def recorded (e : Chunk T Plainfile C) : Path String := e.disk.path

/-- **`Housed codec uuids st chunks draws`** — the files of the entries hold these chunks, laid out by the
tables, and are named by these draws: all different, and all made. -/
structure Housed (codec : Codec (List T) C) (uuids : Nat → String) (st : DirState T C)
    (chunks : List (List T)) (draws : List Nat) : Prop where
  wellFormed : WellFormed (Stored codec st.tree) st.dir.array chunks
  paths : st.dir.array.entries.map recorded = draws.map fun k => st.dir.directoryRoot.join (uuids k)
  nodup : draws.Nodup
  made : ∀ k ∈ draws, k < st.drawn

section Invariant

variable {codec : Codec (List T) C} {uuids : Nat → String} {st : DirState T C}
  {chunks : List (List T)} {draws : List Nat} {tree' : FileTree String}

/-- Files that have not changed hold what they held. -/
theorem stored_wellFormed {arr : BackedArray (Chunk T Plainfile C)}
    (h : WellFormed (Stored codec st.tree) arr chunks)
    (hsame : ∀ e ∈ arr.entries, tree'.content (recorded e) = st.tree.content (recorded e)) :
    WellFormed (Stored codec tree') arr chunks :=
  ⟨h.keys, (stored_iff_kept h.entries fun e he => Or.inl (hsame e he)).mpr hsame⟩

/-- The next draw names a file that no entry has. -/
theorem Housed.fresh (h : Housed codec uuids st chunks draws) (huuids : Function.Injective uuids)
    {e : Chunk T Plainfile C} (he : e ∈ st.dir.array.entries) :
    recorded e ≠ (st.dir.nextTarget (uuids st.drawn)).path := by
  intro heq
  have hmem : recorded e ∈ st.dir.array.entries.map recorded := List.mem_map_of_mem he
  rw [h.paths] at hmem
  obtain ⟨k, hk, hpath⟩ := List.mem_map.mp hmem
  have hname : uuids k = uuids st.drawn := (Path.join_inj (hpath.trans heq)).2
  have := h.made k hk
  have := huuids hname
  omega

/-- **An append** houses one chunk more, or leaves everything. -/
theorem Housed.appends [Inhabited C] (h : Housed codec uuids st chunks draws)
    (hcodec : ∀ v, codec.decode default (codec.encode default v) = some v)
    (huuids : Function.Injective uuids) {values : List T} {r : Except PlainError Unit}
    {array : BackedArray (Chunk T Plainfile C)}
    (happ : Appends codec values (st.dir.nextTarget (uuids st.drawn)) default st.dir.array st.tree r array
      tree') :
    ∃ chunks' draws',
      Housed codec uuids { dir := { st.dir with array }, tree := tree', drawn := st.drawn + 1 } chunks'
        draws' ∧
      ∀ e, r = .error e → array = st.dir.array ∧
        ∀ e ∈ st.dir.array.entries, tree'.content (recorded e) = st.tree.content (recorded e) := by
  have hothers : (∀ q, q ≠ (st.dir.nextTarget (uuids st.drawn)).path →
      tree'.content q = st.tree.content q) →
      ∀ e ∈ st.dir.array.entries, tree'.content (recorded e) = st.tree.content (recorded e) :=
    fun hq e he => hq _ (h.fresh huuids he)
  cases happ with
  | failed hq =>
      have hsame := hothers hq
      refine ⟨chunks, draws, ⟨stored_wellFormed h.wellFormed hsame, h.paths, h.nodup, ?_⟩,
        fun _ _ => ⟨rfl, hsame⟩⟩
      exact fun k hk => Nat.lt_succ_of_lt (h.made k hk)
  | @pushed entry array tree' hdisk hcoder hpush hq hwritten =>
      have hkept := stored_wellFormed h.wellFormed (hothers hq)
      have hstored : Stored codec tree' entry values := by
        refine ⟨codec.encode default values, ?_, ?_⟩
        · rw [hdisk]
          exact hwritten
        · rw [hcoder]
          exact hcodec values
      obtain ⟨hwf, hentries⟩ := pushEntry_returned hkept hstored hpush
      refine ⟨chunks ++ [values], draws ++ [st.drawn], ⟨hwf, ?_, ?_, ?_⟩, nofun⟩
      · show array.entries.map recorded = _
        rw [hentries, List.map_append, List.map_append, h.paths]
        show _ ++ [entry.disk.path] = _
        rw [hdisk]
        rfl
      · apply List.Nodup.append h.nodup (List.nodup_singleton _)
        intro k hk hmem
        have := h.made k hk
        have := List.mem_singleton.mp hmem
        omega
      · intro k hk
        show k < st.drawn + 1
        rcases List.mem_append.mp hk with hk | hk
        · have := h.made k hk
          omega
        · have := List.mem_singleton.mp hk
          omega

/-- **`remove`** unlinks the file of the entry at most, and drops the entry only then; an error leaves
every file. -/
theorem remove_meets (dir : DirectoryBackedArray T Plainfile C) (entryIdx : Nat)
    (tree : FileTree String) :
    Meets (dir.remove entryIdx) tree
      { ok := fun dir' t => (∃ array, dir.array.remove entryIdx = .ok array ∧ dir' = { dir with array }) ∧
          ∀ q, (∀ e, dir.array.entries[entryIdx]? = some e → q ≠ recorded e) → t.content q = tree.content q
        error := fun _ t => ∀ q, t.content q = tree.content q
        panic := fun _ => True } := by
  unfold DirectoryBackedArray.remove
  rcases he : dir.array.entries[entryIdx]? with _ | e
  · simp only [meets_bind, meets_pure]
    refine meets_ofExec (fun array harray => ⟨⟨array, harray, rfl⟩, fun q _ => rfl⟩) fun _ _ => trivial
  · simp only [meets_bind, meets_pure, meets_ofCall]
    refine ⟨fun _ t hremove => ?_, fun err t hremove q => FileTree.removeFile_error hremove q⟩
    refine meets_ofExec (fun array harray => ⟨⟨array, harray, rfl⟩, ?_⟩) fun _ _ => trivial
    intro q hq
    exact (FileTree.removeFile_ok hremove).2 q (hq e rfl)

/-- **A removal** houses one chunk less. -/
theorem Housed.removed (h : Housed codec uuids st chunks draws) {entryIdx : Nat}
    {array : BackedArray (Chunk T Plainfile C)} (hremove : st.dir.array.remove entryIdx = .ok array)
    (hothers : ∀ q, (∀ e, st.dir.array.entries[entryIdx]? = some e → q ≠ recorded e) →
      tree'.content q = st.tree.content q)
    (huuids : Function.Injective uuids) :
    Housed codec uuids { st with dir := { st.dir with array }, tree := tree' } (chunks.eraseIdx entryIdx)
      (draws.eraseIdx entryIdx) := by
  obtain ⟨array', hremove', hwf⟩ := remove_wellFormed h.wellFormed entryIdx
  obtain rfl : array = array' := Except.ok.inj (hremove.symm.trans hremove')
  have hentries := remove_entries h.wellFormed hremove
  have hdistinct : (st.dir.array.entries.map recorded).Nodup := by
    rw [h.paths]
    refine h.nodup.map ?_
    intro k k' hpath
    exact huuids (Path.join_inj hpath).2
  refine ⟨stored_wellFormed hwf ?_, ?_, h.nodup.eraseIdx entryIdx, ?_⟩
  · -- no other entry has the file that was unlinked
    intro e he
    rw [hentries] at he
    obtain ⟨j, hj, hat⟩ := List.mem_eraseIdx_iff_getElem?.mp he
    apply hothers
    intro e₀ he₀ hsame
    have hpath : (st.dir.array.entries.map recorded)[j]? =
        (st.dir.array.entries.map recorded)[entryIdx]? := by
      rw [List.getElem?_map, List.getElem?_map, hat, he₀, Option.map_some, Option.map_some, hsame]
    have hlt : j < (st.dir.array.entries.map recorded).length := by
      rw [List.length_map]
      exact (List.getElem?_eq_some_iff.mp hat).1
    exact hj ((List.getElem?_inj hlt hdistinct).mp hpath)
  · show array.entries.map recorded = _
    rw [hentries, ← List.eraseIdx_map, h.paths, List.eraseIdx_map]
  · intro k hk
    exact h.made k (List.mem_of_mem_eraseIdx hk)

end Invariant

/-! ## Runs -/

/-- **`InStep codec root st`** — index and directory agree: every entry's path is the root joined with a
name of its own, and the file there decodes to as many elements as the range of the entry is wide. -/
structure InStep (codec : Codec (List T) C) (root : Path String) (st : DirState T C) : Prop where
  root : st.dir.directoryRoot = root
  named : ∃ names : List String, names.Nodup ∧
    st.dir.array.entries.map recorded = names.map st.dir.directoryRoot.join
  keyStarts : st.dir.array.keyStarts.length = st.dir.array.entries.length
  keyEnds : st.dir.array.keyEnds.length = st.dir.array.entries.length
  files : ∀ (i start stop : Nat) e, st.dir.array.entries[i]? = some e → st.dir.array.keyStarts[i]? = some start →
    st.dir.array.keyEnds[i]? = some stop →
      ∃ chunk, Stored codec st.tree e chunk ∧ start + chunk.length = stop

/-- A step that returned `Err` left the chunk list and the keys, and the files of the chunks. -/
def ErrLeaves (st : DirState T C) (l : DirOp T × Except PlainError Unit) (st' : DirState T C) : Prop :=
  ∀ e, l.2 = .error e → st'.dir = st.dir ∧
    ∀ chunk ∈ st.dir.array.entries, st'.tree.content (recorded chunk) = st.tree.content (recorded chunk)

section Runs

variable {codec : Codec (List T) C} {uuids : Nat → String} {root : Path String}
  {st st' : DirState T C}

/-- Somewhere the chunks are housed, in this directory. -/
def Kept (codec : Codec (List T) C) (uuids : Nat → String) (root : Path String) (st : DirState T C) : Prop :=
  st.dir.directoryRoot = root ∧ ∃ chunks draws, Housed codec uuids st chunks draws

theorem Kept.inStep (h : Kept codec uuids root st) (huuids : Function.Injective uuids) :
    InStep codec root st := by
  obtain ⟨hroot, chunks, draws, hh⟩ := h
  have hlen := hh.wellFormed.entries_length
  refine ⟨hroot, ⟨draws.map uuids, hh.nodup.map huuids, ?_⟩, ?_, ?_, ?_⟩
  · rw [hh.paths, List.map_map]
    rfl
  · rw [hh.wellFormed.keys.starts_length, List.length_map, hlen]
  · rw [hh.wellFormed.keys.ends_length, List.length_map, hlen]
  · intro i start stop e he hstart hstop
    obtain ⟨chunk, hchunk, hstored⟩ := hh.wellFormed.chunk he
    refine ⟨chunk, hstored, (hh.wellFormed.keys.width i start stop _ hstart hstop ?_).symm⟩
    rw [List.getElem?_map, hchunk]
    rfl

variable [Inhabited C]

/-- An append keeps the chunks housed, and leaves the directory when it fails. -/
theorem Kept.appends (h : Kept codec uuids root st)
    (hcodec : ∀ v, codec.decode default (codec.encode default v) = some v)
    (huuids : Function.Injective uuids) {op : DirOp T} {values : List T} {r : Except PlainError Unit}
    {array : BackedArray (Chunk T Plainfile C)} {tree' : FileTree String}
    (happ : Appends codec values (st.dir.nextTarget (uuids st.drawn)) default st.dir.array st.tree r array
      tree') :
    Kept codec uuids root { dir := { st.dir with array }, tree := tree', drawn := st.drawn + 1 } ∧
      ErrLeaves st (op, r) { dir := { st.dir with array }, tree := tree', drawn := st.drawn + 1 } := by
  obtain ⟨hroot, chunks, draws, hh⟩ := h
  obtain ⟨chunks', draws', hh', herr⟩ := hh.appends hcodec huuids happ
  refine ⟨⟨hroot, chunks', draws', hh'⟩, ?_⟩
  intro e he
  obtain ⟨rfl, hsame⟩ := herr e he
  exact ⟨rfl, hsame⟩

omit [Inhabited C] in
/-- A call that has changed no file leaves the chunks housed. -/
theorem Kept.untouched (h : Kept codec uuids root st) {l : DirOp T × Except PlainError Unit}
    {tree' : FileTree String} (hsame : ∀ q, tree'.content q = st.tree.content q) :
    Kept codec uuids root { st with tree := tree' } ∧ ErrLeaves st l { st with tree := tree' } := by
  obtain ⟨hroot, chunks, draws, hh⟩ := h
  have hkept := stored_wellFormed hh.wellFormed fun e _ => hsame (recorded e)
  exact ⟨⟨hroot, chunks, draws, hkept, hh.paths, hh.nodup, hh.made⟩, fun _ _ =>
    ⟨rfl, fun e _ => hsame (recorded e)⟩⟩

/-- **The step lemma.** -/
theorem dirNext_kept (hcodec : ∀ v, codec.decode default (codec.encode default v) = some v)
    (huuids : Function.Injective uuids) {l : DirOp T × Except PlainError Unit}
    (h : Kept codec uuids root st) (hstep : Reacts (dirNext codec uuids) st l st') :
    Kept codec uuids root st' ∧ ErrLeaves st l st' := by
  obtain ⟨op, r⟩ := l
  have happly : op.apply codec uuids st = .ok (r, st') := by
    unfold Reacts dirNext at hstep
    rcases ha : op.apply codec uuids st with p | x
    · rw [ha] at hstep
      cases hstep
    · rw [ha] at hstep
      exact congrArg Except.ok (Option.some.inj hstep)
  cases op with
  | append values =>
      obtain ⟨⟨r', dir, tree⟩, hrun, happly⟩ := exec_bind_inv happly
      cases happly
      obtain ⟨⟨r'', array, tree'⟩, harr, hrun⟩ := exec_bind_inv hrun
      cases hrun
      exact h.appends hcodec huuids (append_appends harr)
  | appendMemory values =>
      obtain ⟨⟨r', dir, tree⟩, hrun, happly⟩ := exec_bind_inv happly
      cases happly
      obtain ⟨⟨r'', array, tree'⟩, harr, hrun⟩ := exec_bind_inv hrun
      cases hrun
      exact h.appends hcodec huuids (appendMemory_appends harr)
  | remove entryIdx =>
      unfold DirOp.apply at happly
      rcases hrun : st.dir.remove entryIdx st.tree with p | ⟨err | dir, tree⟩
      · simp only [hrun] at happly
        cases happly
      · simp only [hrun] at happly
        cases happly
        exact h.untouched (Meets.error (remove_meets st.dir entryIdx st.tree) hrun)
      · simp only [hrun] at happly
        cases happly
        obtain ⟨⟨array, hremove, rfl⟩, hothers⟩ := Meets.ok (remove_meets st.dir entryIdx st.tree) hrun
        obtain ⟨hroot, chunks, draws, hh⟩ := h
        exact ⟨⟨hroot, _, _, hh.removed hremove hothers huuids⟩, nofun⟩

/-- **Index and directory stay in step.**  From `new`, along every run of `append`, `append_memory` and
`remove` over plain files, whichever calls on the files fail: in every state each entry has a file of its
own in the directory, which decodes to as many elements as its range is wide; and a step that returned
`Err` left the chunks, the keys and their files.  The format reads back what it writes, and the random
source does not repeat itself. -/
theorem directory_inStep (codec : Codec (List T) C)
    (hcodec : ∀ v, codec.decode default (codec.encode default v) = some v) (uuids : Nat → String)
    (huuids : Function.Injective uuids) (root : Path String) (tree tree' : FileTree String)
    (dir : DirectoryBackedArray T Plainfile C)
    (hnew : DirectoryBackedArray.new root tree = (.ok dir, tree'))
    (tr : List ((DirOp T × Except PlainError Unit) × DirState T C))
    (htr : IsTrace (Reacts (dirNext codec uuids)) { dir, tree := tree', drawn := 0 } tr) :
    StatesMeet (InStep codec root) { dir, tree := tree', drawn := 0 } tr ∧
      StepsMeet ErrLeaves { dir, tree := tree', drawn := 0 } tr := by
  have h0 : Kept codec uuids root { dir, tree := tree', drawn := 0 } := by
    unfold DirectoryBackedArray.new at hnew
    rcases hcreate : tree.createDirAll root with ⟨e | _, t⟩
    · rw [hcreate] at hnew
      cases hnew
    · rw [hcreate] at hnew
      cases hnew
      exact ⟨rfl, [], [], wellFormed_new _, rfl, List.nodup_nil, nofun⟩
  have hstep : ∀ st l st', Kept codec uuids root st → Reacts (dirNext codec uuids) st l st' →
      Kept codec uuids root st' ∧ ErrLeaves st l st' :=
    fun st l st' h hs => dirNext_kept hcodec huuids h hs
  constructor
  · have hall := invariant (fun st l st' h hs => (hstep st l st' h hs).1) h0 htr
    exact ⟨hall.1.inStep huuids, fun x hx => (hall.2 x hx).inStep huuids⟩
  · exact stepsMeet_of_invariant (fun st l st' h hs => (hstep st l st' h hs).1)
      (fun st l st' h hs => (hstep st l st' h hs).2) h0 htr

end Runs

/-- A format for chunks of bytes: as they are. -/
def asBytes : Codec (List UInt8) Unit where
  encode _ chunk := chunk
  decode _ bytes := some bytes

/-- Names of growing length. -/
def lengthNames (k : Nat) : String := .ofList (List.replicate k 'u')

theorem lengthNames_injective : Function.Injective lengthNames := by
  intro k k' h
  have hlen := congrArg List.length (String.ofList_injective h)
  rwa [List.length_replicate, List.length_replicate] at hlen

/-- The calls on the files that fail: the write of the second chunk, and the first removal. -/
def faultyTree : FileTree String :=
  { files := ∅, dirs := [[.rootDir]], faults := [false, false, false, false, false, true, false, false, true] }

/-- The directory `/a`, just created. -/
def newDirectory : DirState UInt8 Unit where
  dir := { array := .new, directoryRoot := [.rootDir, .normal "a"] }
  tree := (faultyTree.createDirAll [.rootDir, .normal "a"]).2
  drawn := 0

/-- Two appends of which the second fails, one more, and a removal that fails before it succeeds. -/
def faultyRun : List ((DirOp UInt8 × Except PlainError Unit) × DirState UInt8 Unit) :=
  react (dirNext asBytes lengthNames) newDirectory
    [.append [1, 2], .append [3], .appendMemory [4], .remove 0, .remove 0]

theorem directory_inStep_faulty :
    StatesMeet (InStep asBytes [.rootDir, .normal "a"]) newDirectory faultyRun ∧
      StepsMeet ErrLeaves newDirectory faultyRun :=
  directory_inStep asBytes (fun _ => rfl) lengthNames lengthNames_injective [.rootDir, .normal "a"]
    faultyTree _ _ rfl faultyRun (isTrace_react _ _ _)

example : faultyRun.map (fun x => (x.1.2.toBool, x.2.dir.array.keyEnds)) =
    [(true, [2]), (false, [2]), (true, [2, 3]), (false, [2, 3]), (true, [1])] := by
  decide

end BackedData.Directory
