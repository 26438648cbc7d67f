/-
# BackedData.Directory.Shared — several arrays over one file tree, each as if it were alone

A program holds several `DirectoryBackedArray`s at a time, and nothing stops it from giving two of them one
directory: that is how an array is built in parts and joined, and how a block is encoded anew beside the
old one.  What keeps them apart is the random name of each file.  `Site` is such a program's arrays with
the files below them, and `siteNext` the operations of `directory/sync_impl.rs` on them; `Shelf` is the
same with no files at all, a list of chunks for each array.  `Shelved` relates the two, and a run over the
files is a run over the lists, whichever calls on the files fail: no operation on one array is seen in
another, a chunk that was appended is read back until its own array removes it, and an array that takes in
another has its chunks behind its own.
-/
import BackedData.Array.Residency
import BackedData.Directory.Cleanup
import BackedData.Logic.Simulation

namespace BackedData.Directory

open Logic.Files
open Logic.Outcome
open Logic.Simulation
open Logic.Stateful
open Logic.Trace
open BackedData.Entry
open BackedData.Array

set_option autoImplicit false

variable {T C : Type}

/-! ## Arrays over one file tree -/

/-- **`Site T C`** — the arrays that the variables of a program hold, over one file tree. -/
structure Site (T C : Type) where
  dirs : Nat → Option (DirectoryBackedArray T Plainfile C)
  tree : FileTree String
  drawn : Nat

/-- A variable gets an array, or loses the one it holds. -/
def Site.put (s : Site T C) (i : Nat) (dir : Option (DirectoryBackedArray T Plainfile C))
    (tree : FileTree String) : Site T C :=
  { s with dirs := Function.update s.dirs i dir, tree }

/-- The ways to take in another array. -/
inductive Joining where
  | appendDir
  | aAppendDir
  | appendArray
  deriving DecidableEq, Repr

/-- The call. -/
def Joining.run (self rhs : DirectoryBackedArray T Plainfile C) :
    Joining → FilesM (DirectoryBackedArray T Plainfile C)
  | .appendDir => self.appendDir rhs
  | .aAppendDir => self.aAppendDir rhs
  | .appendArray => self.appendArray rhs.array

/-- The operations on the arrays, named by the variables that hold them. -/
inductive SiteOp (T : Type) where
  | new (i : Nat) (directoryRoot : Path String)
  | change (i : Nat) (op : DirOp T)
  | chunk (i entryIdx : Nat)
  | clearMemory (i : Nat)
  | join (how : Joining) (i j : Nat)
  | delete (i : Nat)
  deriving DecidableEq, Repr

/-- What an operation answers. -/
inductive Reply (T : Type) where
  | done
  | chunk (values : Option (List T))
  | failed (e : PlainError)
  deriving DecidableEq, Repr

/-- The answer of an operation that returns nothing. -/
def Reply.ofResult : Except PlainError Unit → Reply T
  | .ok () => .done
  | .error e => .failed e

/-- **The operations.**  One on a variable that holds no array is not taken, nor is one that panics.
`append_dir` and its kin consume `rhs`, `delete` consumes `self`, also when they fail. -/
def siteNext [Inhabited C] (codec : Codec (List T) C) (uuids : Nat → String) (s : Site T C) :
    SiteOp T → Option (Reply T × Site T C)
  | .new i directoryRoot =>
      match DirectoryBackedArray.new directoryRoot s.tree with
      | (.error e, tree) => some (.failed (.file e), { s with tree })
      | (.ok dir, tree) => some (.done, s.put i (some dir) tree)
  | .change i op => do
      let dir ← s.dirs i
      let (r, st) ← dirNext codec uuids { dir, tree := s.tree, drawn := s.drawn } op
      pure (.ofResult r, { s.put i (some st.dir) st.tree with drawn := st.drawn })
  | .chunk i entryIdx => do
      let dir ← s.dirs i
      match dir.array.chunkNext (plainfile codec) entryIdx s.tree with
      | (none, array, tree) => pure (.chunk none, s.put i (some { dir with array }) tree)
      | (some (.ok values), array, tree) =>
          pure (.chunk (some values), s.put i (some { dir with array }) tree)
      | (some (.error e), array, tree) => pure (.failed e, s.put i (some { dir with array }) tree)
  | .clearMemory i => do
      let dir ← s.dirs i
      pure (.done, s.put i (some { dir with array := dir.array.clearMemory }) s.tree)
  | .join how i j =>
      if i = j then none
      else do
        let self ← s.dirs i
        let rhs ← s.dirs j
        match ← (how.run self rhs s.tree).toOption with
        | (.error e, tree) => pure (.failed (.file e), s.put j none tree)
        | (.ok self, tree) => pure (.done, (s.put j none s.tree).put i (some self) tree)
  | .delete i => do
      let dir ← s.dirs i
      match ← (dir.delete (dir.array.entries.length + 1) s.tree).toOption with
      | (.error e, tree) => pure (.failed (.file e), s.put i none tree)
      | (.ok none, _) => none
      | (.ok (some ()), tree) => pure (.done, s.put i none tree)

/-! ## Lists of chunks -/

/-- **`Volume T`** — what an array is for: chunks under a root. -/
structure Volume (T : Type) where
  directoryRoot : Path String
  chunks : List (List T)
  deriving DecidableEq, Repr

/-- The volumes that the variables hold. -/
abbrev Shelf (T : Type) : Type := Nat → Option (Volume T)

/-- What an operation on one chunk does to the list. -/
def DirOp.onChunks (chunks : List (List T)) : DirOp T → List (List T)
  | .append values => chunks ++ [values]
  | .appendMemory values => chunks ++ [values]
  | .remove entryIdx => chunks.eraseIdx entryIdx

/-- **The errors an operation can end in.**  Where a file has to be made anything but the format can fail;
where it is there already, as it is whenever a chunk is read or removed, only the file system itself. -/
def SiteOp.MayFail : SiteOp T → PlainError → Prop
  | .new _ _, e => e ≠ .coder
  | .change _ (.append _), e => e ≠ .coder
  | .change _ (.appendMemory _), e => e ≠ .coder
  | .change _ (.remove _), e => e = .file .failed
  | .chunk _ _, e => e = .file .failed
  | .clearMemory _, _ => False
  | .join _ _ _, _ => False
  | .delete _, e => e = .file .failed

/-- What is left when an operation fails: `delete` has consumed its array. -/
def SiteOp.onFailure (shelf : Shelf T) : SiteOp T → Shelf T
  | .delete i => Function.update shelf i none
  | _ => shelf

/-- **`ShelfStep`** — the operations on lists of chunks.  An array is changed by its own operations only. -/
inductive ShelfStep : Shelf T → SiteOp T × Reply T → Shelf T → Prop where
  | new {shelf : Shelf T} {i : Nat} {directoryRoot : Path String} :
      ShelfStep shelf (.new i directoryRoot, .done) (Function.update shelf i (some ⟨directoryRoot, []⟩))
  | change {shelf : Shelf T} {i : Nat} {vol : Volume T} {op : DirOp T} (hi : shelf i = some vol) :
      ShelfStep shelf (.change i op, .done)
        (Function.update shelf i (some { vol with chunks := op.onChunks vol.chunks }))
  | chunk {shelf : Shelf T} {i entryIdx : Nat} {vol : Volume T} (hi : shelf i = some vol) :
      ShelfStep shelf (.chunk i entryIdx, .chunk vol.chunks[entryIdx]?) shelf
  | clearMemory {shelf : Shelf T} {i : Nat} {vol : Volume T} (hi : shelf i = some vol) :
      ShelfStep shelf (.clearMemory i, .done) shelf
  | join {shelf : Shelf T} {how : Joining} {i j : Nat} {vol rhs : Volume T} (hne : i ≠ j)
      (hi : shelf i = some vol) (hj : shelf j = some rhs) :
      ShelfStep shelf (.join how i j, .done)
        (Function.update (Function.update shelf j none) i
          (some { vol with chunks := vol.chunks ++ rhs.chunks }))
  | delete {shelf : Shelf T} {i : Nat} {vol : Volume T} (hi : shelf i = some vol) :
      ShelfStep shelf (.delete i, .done) (Function.update shelf i none)
  | failed {shelf : Shelf T} {op : SiteOp T} {e : PlainError} (hop : op.MayFail e) :
      ShelfStep shelf (op, .failed e) (op.onFailure shelf)

/-! ## Files of some draws -/

section Drawn

variable {codec : Codec (List T) C} {uuids : Nat → String} {before middle after : FileTree String}
  {P Q : Nat → Prop}

/-- **`Spares uuids P before after`** — only files named by these draws may have changed. -/
def Spares (uuids : Nat → String) (P : Nat → Prop) (before after : FileTree String) : Prop :=
  ∀ q : Path String, (∀ k, P k → q.fileName ≠ some (uuids k)) → after.content q = before.content q

theorem Spares.of_same (h : ∀ q, after.content q = before.content q) : Spares uuids P before after :=
  fun q _ => h q

theorem Spares.trans (h : Spares uuids P before middle) (h' : Spares uuids P middle after) :
    Spares uuids P before after :=
  fun q hq => (h' q hq).trans (h q hq)

theorem Spares.mono (h : Spares uuids P before after) (hPQ : ∀ k, P k → Q k) : Spares uuids Q before after :=
  fun q hq => h q fun k hk => hq k (hPQ k hk)

/-- A file named by another draw. -/
theorem Spares.drawn (h : Spares uuids P before after) (huuids : Function.Injective uuids) {k : Nat}
    (hk : ¬P k) (directoryRoot : Path String) :
    after.content (directoryRoot.join (uuids k)) = before.content (directoryRoot.join (uuids k)) := by
  apply h
  intro k' hk' hname
  rw [Path.fileName_join, Option.some.injEq] at hname
  exact hk (huuids hname ▸ hk')

/-- Entries whose files have not changed keep their chunks. -/
theorem backs_kept {es : List (Chunk T Plainfile C)} {chunks : List (List T)}
    (h : List.Forall₂ (Backs codec before) es chunks)
    (hsame : ∀ e ∈ es, after.content (recorded e) = before.content (recorded e)) :
    List.Forall₂ (Backs codec after) es chunks := by
  induction h with
  | nil => exact .nil
  | cons hbacks _ ih =>
      obtain ⟨hval, bytes, hbytes, hdecode⟩ := hbacks
      have hfirst := hsame _ List.mem_cons_self
      exact .cons ⟨hval, bytes, hfirst.trans hbytes, hdecode⟩ (ih fun e he => hsame e (List.mem_cons_of_mem _ he))

/-- What is left of a list after an erasure differs from what was erased, where all differ. -/
theorem ne_of_mem_eraseIdx {α β : Type} {f : α → β} {xs : List α} {i : Nat} {x x₀ : α} (h : (xs.map f).Nodup)
    (hx : x ∈ xs.eraseIdx i) (hx₀ : xs[i]? = some x₀) : f x ≠ f x₀ := by
  obtain ⟨j, hj, hat⟩ := List.mem_eraseIdx_iff_getElem?.mp hx
  intro hsame
  have hlookup : (xs.map f)[j]? = (xs.map f)[i]? := by
    rw [List.getElem?_map, List.getElem?_map, hat, hx₀, Option.map_some, Option.map_some, hsame]
  have hlt : j < (xs.map f).length := by
    rw [List.length_map]
    exact (List.getElem?_eq_some_iff.mp hat).1
  exact hj ((List.getElem?_inj hlt h).mp hlookup)

end Drawn

/-! ## One array -/

section OneArray

variable {codec : Codec (List T) C} {uuids : Nat → String} {tree tree' : FileTree String}
  {draws draws' : List Nat} {vol rhs : Volume T} {dir dir' : DirectoryBackedArray T Plainfile C}

/-- **`Houses codec uuids tree draws vol dir`** — the array has the chunks of the volume, in memory as far as
they are loaded and in the files that these draws name. -/
structure Houses (codec : Codec (List T) C) (uuids : Nat → String) (tree : FileTree String) (draws : List Nat)
    (vol : Volume T) (dir : DirectoryBackedArray T Plainfile C) : Prop where
  root : dir.directoryRoot = vol.directoryRoot
  wellFormed : WellFormed (Backs codec tree) dir.array vol.chunks
  paths : dir.array.entries.map recorded = draws.map fun k => vol.directoryRoot.join (uuids k)

theorem Houses.draw (h : Houses codec uuids tree draws vol dir) {e : Chunk T Plainfile C}
    (he : e ∈ dir.array.entries) : ∃ k ∈ draws, recorded e = vol.directoryRoot.join (uuids k) := by
  have hmem : recorded e ∈ dir.array.entries.map recorded := List.mem_map_of_mem he
  rw [h.paths] at hmem
  obtain ⟨k, hk, hpath⟩ := List.mem_map.mp hmem
  exact ⟨k, hk, hpath.symm⟩

/-- The files are all different. -/
theorem Houses.distinct (h : Houses codec uuids tree draws vol dir) (huuids : Function.Injective uuids)
    (hnodup : draws.Nodup) : (dir.array.entries.map recorded).Nodup := by
  rw [h.paths]
  apply hnodup.map
  intro k k' hpath
  exact huuids (Path.join_inj hpath).2

/-- **The frame.**  Changes of files of other draws are not seen. -/
theorem Houses.frame {P : Nat → Prop} (h : Houses codec uuids tree draws vol dir)
    (huuids : Function.Injective uuids) (hspares : Spares uuids P tree tree') (hP : ∀ k ∈ draws, ¬P k) :
    Houses codec uuids tree' draws vol dir := by
  refine ⟨h.root, ⟨h.wellFormed.keys, backs_kept h.wellFormed.entries fun e he => ?_⟩, h.paths⟩
  obtain ⟨k, hk, hpath⟩ := h.draw he
  rw [hpath]
  exact hspares.drawn huuids (hP k hk) _

/-! ### Appending -/

section Appending

variable {arr arr' : BackedArray (Chunk T Plainfile C)} {values : List T} {target : Plainfile} {coder : C}
  {r : Except PlainError Unit}

/-- Writing a file fails with an error of the file. -/
theorem encodeToDisk_file {e e' : Chunk T Plainfile C}
    (h : e.encodeToDisk (plainfile codec) values tree = (r, e', tree')) : r ≠ .error .coder := by
  unfold BackedEntry.encodeToDisk plainfile at h
  simp only at h
  rcases hopen : tree.openWrite e.disk.path with ⟨err | _, t⟩
  · simp only [hopen] at h
    cases h
    nofun
  · simp only [hopen] at h
    rcases hwrite : t.write e.disk.path (codec.encode e.coder values) with ⟨err | _, u⟩
    · simp only [hwrite] at h
      cases h
      nofun
    · simp only [hwrite] at h
      cases h
      nofun

/-- **`Remembers values arr r arr'`** — the entry that an append has pushed keeps nothing else in memory than
what was written, and an append does not fail by the format. -/
def Remembers (values : List T) (arr : BackedArray (Chunk T Plainfile C)) (r : Except PlainError Unit)
    (arr' : BackedArray (Chunk T Plainfile C)) : Prop :=
  r ≠ .error .coder ∧
    ∀ entry, arr'.entries = arr.entries ++ [entry] → entry.value = none ∨ entry.value = some values

/-- The push that follows the write. -/
theorem remembers_pushed {entry : Chunk T Plainfile C} {t : FileTree String}
    (hvalue : entry.value = none ∨ entry.value = some values)
    (h : (do
        let arr ← arr.pushEntry entry values.length
        pure (.ok (), arr, t)) = (.ok (r, arr', tree') : Exec _)) : Remembers values arr r arr' := by
  obtain ⟨pushed, hpush, h⟩ := exec_bind_inv h
  cases h
  unfold BackedArray.pushEntry at hpush
  obtain ⟨stop, -, hpush⟩ := exec_bind_inv hpush
  cases hpush
  refine ⟨nofun, fun entry' hentries => ?_⟩
  have hsame : entry = entry' := by
    have hlast : [entry] = [entry'] := List.append_cancel_left hentries
    exact (List.cons.inj hlast).1
  exact hsame ▸ hvalue

theorem remembers_failed {e : PlainError} (he : e ≠ .coder) : Remembers values arr (.error e) arr := by
  refine ⟨fun h => he (Except.error.inj h), fun entry hentries => ?_⟩
  have hlen := congrArg List.length hentries
  rw [List.length_append, List.length_singleton] at hlen
  omega

theorem append_remembers (h : arr.append (plainfile codec) values target coder tree = .ok (r, arr', tree')) :
    Remembers values arr r arr' := by
  unfold BackedArray.append BackedEntry.writeUnload at h
  rcases hwrite : (BackedEntry.new target coder : Chunk T Plainfile C).unload.encodeToDisk (plainfile codec)
    values tree with ⟨err | _, entry, t⟩
  · rw [hwrite] at h
    cases h
    exact remembers_failed fun he => encodeToDisk_file hwrite (congrArg Except.error he)
  · rw [hwrite] at h
    obtain ⟨rfl, -, -⟩ := encodeToDisk_plainfile hwrite
    exact remembers_pushed (Or.inl rfl) h

theorem appendMemory_remembers
    (h : arr.appendMemory (plainfile codec) values target coder tree = .ok (r, arr', tree')) :
    Remembers values arr r arr' := by
  unfold BackedArray.appendMemory BackedEntry.write at h
  rcases hwrite : (BackedEntry.new target coder : Chunk T Plainfile C).encodeToDisk (plainfile codec)
    values tree with ⟨err | _, entry, t⟩
  · rw [hwrite] at h
    cases h
    exact remembers_failed fun he => encodeToDisk_file hwrite (congrArg Except.error he)
  · rw [hwrite] at h
    exact remembers_pushed (Or.inr rfl) h

/-- The result of a change of one array: its own files only, and either all of it or nothing. -/
structure Changed (codec : Codec (List T) C) (uuids : Nat → String) (P : Nat → Prop) (vol' : Volume T)
    (draws' : List Nat) (dir : DirectoryBackedArray T Plainfile C) (tree : FileTree String)
    (r : Except PlainError Unit) (dir' : DirectoryBackedArray T Plainfile C) (tree' : FileTree String) :
    Prop where
  spares : Spares uuids P tree tree'
  ok : r = .ok () → Houses codec uuids tree' draws' vol' dir'
  error : ∀ e, r = .error e → dir' = dir

/-- **An append.** -/
theorem Houses.appends [Inhabited C] (h : Houses codec uuids tree draws vol dir)
    (hcodec : ∀ v, codec.decode default (codec.encode default v) = some v)
    (huuids : Function.Injective uuids) {k : Nat} (hk : k ∉ draws)
    (happ : Appends codec values (dir.nextTarget (uuids k)) default dir.array tree r arr' tree')
    (hmem : Remembers values dir.array r arr') :
    Changed codec uuids (fun l => l = k) { vol with chunks := vol.chunks ++ [values] } (draws ++ [k]) dir tree
      r { dir with array := arr' } tree' := by
  have hspares : (∀ q, q ≠ (dir.nextTarget (uuids k)).path → tree'.content q = tree.content q) →
      Spares uuids (fun l => l = k) tree tree' := by
    intro hothers q hq
    apply hothers
    rintro rfl
    exact hq k rfl (Path.fileName_join _ _)
  cases happ with
  | failed hothers => exact ⟨hspares hothers, nofun, fun _ _ => rfl⟩
  | @pushed entry _ _ hdisk hcoder hpush hothers hwritten =>
      refine ⟨hspares hothers, fun _ => ?_, nofun⟩
      have hkept := h.frame huuids (hspares hothers) fun l hl heq => hk (heq ▸ hl)
      have hstored : Stored codec tree' entry values := by
        refine ⟨codec.encode default values, ?_, ?_⟩
        · rw [hdisk]
          exact hwritten
        · rw [hcoder]
          exact hcodec values
      have hentries : arr'.entries = dir.array.entries ++ [entry] := by
        unfold BackedArray.pushEntry at hpush
        obtain ⟨stop, -, hpush⟩ := exec_bind_inv hpush
        cases hpush
        rfl
      have hbacks : Backs codec tree' entry values := ⟨hmem.2 entry hentries, hstored⟩
      refine ⟨hkept.root, (pushEntry_returned hkept.wellFormed hbacks hpush).1, ?_⟩
      show arr'.entries.map recorded = _
      rw [hentries, List.map_append, List.map_append, h.paths]
      show _ ++ [entry.disk.path] = _
      rw [hdisk]
      show _ ++ [dir.directoryRoot.join (uuids k)] = _
      rw [h.root]
      rfl

end Appending

/-! ### Removing -/

/-- **A removal**, and its failure. -/
theorem remove_houses (h : Houses codec uuids tree draws vol dir) (huuids : Function.Injective uuids)
    (hnodup : draws.Nodup) (entryIdx : Nat) :
    Meets (dir.remove entryIdx) tree
      { ok := fun dir' t => Spares uuids (· ∈ draws) tree t ∧
          Houses codec uuids t (draws.eraseIdx entryIdx)
            { vol with chunks := vol.chunks.eraseIdx entryIdx } dir' ∧
          dir'.array.entries = dir.array.entries.eraseIdx entryIdx
        error := fun e t => e = .failed ∧ ∀ q, t.content q = tree.content q
        panic := fun _ => True } := by
  have hdone : ∀ array t, dir.array.remove entryIdx = .ok array →
      (∀ q, (∀ e, dir.array.entries[entryIdx]? = some e → q ≠ recorded e) → t.content q = tree.content q) →
      Spares uuids (· ∈ draws) tree t ∧
        Houses codec uuids t (draws.eraseIdx entryIdx)
          { vol with chunks := vol.chunks.eraseIdx entryIdx } { dir with array } ∧
        array.entries = dir.array.entries.eraseIdx entryIdx := by
    intro array t harray hothers
    obtain ⟨array', harray', hwf⟩ := remove_wellFormed h.wellFormed entryIdx
    obtain rfl : array = array' := Except.ok.inj (harray.symm.trans harray')
    have hentries := remove_entries h.wellFormed harray
    refine ⟨fun q hq => hothers q fun e he heq => ?_, ⟨h.root, ⟨hwf.keys, ?_⟩, ?_⟩, hentries⟩
    · obtain ⟨k, hk, hpath⟩ := h.draw (List.mem_of_getElem? he)
      exact hq k hk (by rw [heq, hpath, Path.fileName_join])
    · -- no other entry has the file that was unlinked
      refine backs_kept hwf.entries fun e he => hothers _ fun e₀ he₀ => ?_
      rw [hentries] at he
      exact ne_of_mem_eraseIdx (h.distinct huuids hnodup) he he₀
    · show array.entries.map recorded = _
      rw [hentries, ← List.eraseIdx_map, h.paths, List.eraseIdx_map]
  unfold DirectoryBackedArray.remove
  rcases he : dir.array.entries[entryIdx]? with _ | e
  · simp only [meets_bind, meets_pure]
    exact meets_ofExec (fun array harray => hdone array tree harray fun _ _ => rfl) fun _ _ => trivial
  · simp only [meets_bind, meets_pure, meets_ofCall]
    refine ⟨fun _ t hremove => ?_, fun err t hremove => ⟨?_, FileTree.removeFile_error hremove⟩⟩
    · refine meets_ofExec (fun array harray => hdone array t harray fun q hq => ?_) fun _ _ => trivial
      exact (FileTree.removeFile_ok hremove).2 q (hq e he)
    · obtain ⟨chunk, -, -, bytes, hbytes, -⟩ := h.wellFormed.chunk he
      exact FileTree.removeFile_present hbytes hremove

/-- **The loop of `delete`.**  One round for each chunk is enough, and only files of the array go. -/
theorem removeAll_houses (rounds : Nat) {draws : List Nat} {vol : Volume T}
    {dir : DirectoryBackedArray T Plainfile C} {tree : FileTree String}
    (h : Houses codec uuids tree draws vol dir) (huuids : Function.Injective uuids) (hnodup : draws.Nodup)
    (hrounds : dir.array.entries.length < rounds) :
    Meets (DirectoryBackedArray.removeAll DirectoryBackedArray.remove rounds dir) tree
      { ok := fun r t => Spares uuids (· ∈ draws) tree t ∧ r ≠ none
        error := fun e t => e = .failed ∧ Spares uuids (· ∈ draws) tree t
        panic := fun _ => True } := by
  -- a round leaves another array, with the later draws
  induction rounds generalizing draws vol dir tree with
  | zero => omega
  | succ rounds ih =>
      unfold DirectoryBackedArray.removeAll
      by_cases hempty : dir.array.isEmpty = true
      · rw [if_pos hempty, meets_pure]
        exact ⟨.of_same fun _ => rfl, Option.some_ne_none _⟩
      · rw [if_neg hempty, meets_bind]
        have hpos : 0 < dir.array.entries.length :=
          List.length_pos_iff.mpr fun hnil => hempty (List.isEmpty_iff.mpr hnil)
        refine (remove_houses h huuids hnodup 0).mono (fun dir' t hok => ?_) (fun e t herr => ?_) fun _ hp => hp
        · obtain ⟨hspares, hhouses, hentries⟩ := hok
          have hfewer : dir'.array.entries.length < rounds := by
            rw [hentries, List.length_eraseIdx, if_pos hpos]
            omega
          have hsub : ∀ k ∈ draws.eraseIdx 0, k ∈ draws := fun k hk => List.mem_of_mem_eraseIdx hk
          refine (ih hhouses (hnodup.eraseIdx 0) hfewer).mono (fun r u hr => ?_) (fun e u he => ?_) fun _ hp => hp
          · exact ⟨hspares.trans (hr.1.mono hsub), hr.2⟩
          · exact ⟨he.1, hspares.trans (he.2.mono hsub)⟩
        · exact ⟨herr.1, .of_same herr.2⟩

/-- **`delete`.** -/
theorem delete_houses (h : Houses codec uuids tree draws vol dir) (huuids : Function.Injective uuids)
    (hnodup : draws.Nodup) :
    Meets (dir.delete (dir.array.entries.length + 1)) tree
      { ok := fun r t => Spares uuids (· ∈ draws) tree t ∧ r ≠ none
        error := fun e t => e = .failed ∧ Spares uuids (· ∈ draws) tree t
        panic := fun _ => True } := by
  unfold DirectoryBackedArray.delete
  rw [meets_bind]
  have hall := removeAll_houses _ h huuids hnodup (Nat.lt_succ_self dir.array.entries.length)
  refine hall.mono (fun r t hr => ?_) (fun _ _ he => he) fun _ hp => hp
  rcases r with _ | left
  · exact absurd rfl hr.2
  · simp only [meets_bind, meets_attempt_ofCall, meets_pure]
    exact ⟨hr.1.trans (.of_same fun q => FileTree.removeDir_content _ q t), Option.some_ne_none _⟩

/-! ### Reading -/

/-- A load of a chunk that is there: what it returns, and that it fails by the file system only. -/
theorem Backs.load {e e' : Chunk T Plainfile C} {chunk : List T} {r : Except PlainError (List T)}
    (h : Backs codec tree e chunk) (hload : e.load (plainfile codec) tree = (r, e', tree')) :
    (r = .ok chunk ∨ r = .error (.file .failed)) ∧ (e'.disk = e.disk ∧ e'.coder = e.coder) ∧
      Backs codec tree' e' chunk ∧ ∀ q, tree'.content q = tree.content q := by
  obtain ⟨hvalue, bytes, hbytes, hdecode⟩ := h
  unfold BackedEntry.load at hload
  rcases hv : e.value with _ | x
  · rw [hv] at hload
    unfold BackedEntry.decodeFromDisk plainfile at hload
    simp only at hload
    have hopened := fun q => FileTree.openRead_content e.disk.path q tree
    rcases hopen : tree.openRead e.disk.path with ⟨err | _, t⟩
    · simp only [hopen] at hload hopened
      cases hload
      refine ⟨Or.inr ?_, ⟨rfl, rfl⟩, ⟨Or.inl hv, bytes, (hopened _).trans hbytes, hdecode⟩, hopened⟩
      rw [FileTree.openRead_present hbytes hopen]
    · simp only [hopen] at hload hopened
      have hbytes' : t.content e.disk.path = some bytes := (hopened _).trans hbytes
      have hsame := fun q => (FileTree.read_content e.disk.path q t).trans (hopened q)
      rcases hread : t.read e.disk.path with ⟨err | out, u⟩
      · simp only [hread] at hload hsame
        cases hload
        refine ⟨Or.inr ?_, ⟨rfl, rfl⟩, ⟨Or.inl hv, bytes, (hsame _).trans hbytes, hdecode⟩, hsame⟩
        rw [FileTree.read_present hbytes' hread]
      · have hout : out = bytes := Option.some.inj ((FileTree.read_ok hread).symm.trans hbytes')
        subst hout
        simp only [hread, hdecode] at hload hsame
        cases hload
        exact ⟨Or.inl rfl, ⟨rfl, rfl⟩, ⟨Or.inr rfl, out, (hsame _).trans hbytes, hdecode⟩, hsame⟩
  · rw [hv] at hload
    cases hload
    have hx : x = chunk := by
      rcases hvalue with hnone | hsome
      · rw [hv] at hnone
        cases hnone
      · exact Option.some.inj (hv.symm.trans hsome)
    exact ⟨Or.inl (by rw [hx]), ⟨rfl, rfl⟩, ⟨hvalue, bytes, hbytes, hdecode⟩, fun _ => rfl⟩

/-- The files are where they were when entries have been replaced by others of the same disks. -/
theorem Houses.replaced (h : Houses codec uuids tree draws vol dir) {array : BackedArray (Chunk T Plainfile C)}
    (hwf : WellFormed (Backs codec tree') array vol.chunks)
    (hpaths : array.entries.map recorded = dir.array.entries.map recorded) :
    Houses codec uuids tree' draws vol { dir with array } :=
  ⟨h.root, hwf, hpaths.trans h.paths⟩

/-- **A step of the chunk iterator.** -/
theorem Houses.chunkNext (h : Houses codec uuids tree draws vol dir) {entryIdx : Nat}
    {r : Option (Except PlainError (List T))} {array : BackedArray (Chunk T Plainfile C)}
    (hnext : dir.array.chunkNext (plainfile codec) entryIdx tree = (r, array, tree')) :
    (r = vol.chunks[entryIdx]?.map .ok ∨ r = some (.error (.file .failed))) ∧
      Houses codec uuids tree' draws vol { dir with array } ∧ ∀ q, tree'.content q = tree.content q := by
  unfold BackedArray.chunkNext at hnext
  rcases he : dir.array.entries[entryIdx]? with _ | e
  · rw [he] at hnext
    cases hnext
    have hnone : vol.chunks[entryIdx]? = none := by
      rw [List.getElem?_eq_none_iff, ← h.wellFormed.entries_length]
      exact List.getElem?_eq_none_iff.mp he
    rw [hnone]
    exact ⟨Or.inl rfl, h, fun _ => rfl⟩
  · obtain ⟨chunk, hchunk, hbacks⟩ := h.wellFormed.chunk he
    rcases hload : e.load (plainfile codec) tree with ⟨r₀, e', t⟩
    simp only [he, hload] at hnext
    cases hnext
    obtain ⟨hr, ⟨hdisk, -⟩, hbacks', hsame⟩ := hbacks.load hload
    have hkept : WellFormed (Backs codec tree') dir.array vol.chunks :=
      ⟨h.wellFormed.keys, backs_kept h.wellFormed.entries fun e _ => hsame (recorded e)⟩
    refine ⟨?_, h.replaced (hkept.setEntry hchunk hbacks') ?_, hsame⟩
    · rw [hchunk]
      rcases hr with rfl | rfl
      · exact Or.inl rfl
      · exact Or.inr rfl
    · show (dir.array.entries.set entryIdx e').map recorded = _
      have hpath : (dir.array.entries.map recorded)[entryIdx]? = some (recorded e') := by
        rw [List.getElem?_map, he]
        exact congrArg (fun d : Plainfile => some d.path) hdisk.symm
      rw [List.map_set]
      obtain ⟨hlt, hget⟩ := List.getElem?_eq_some_iff.mp hpath
      rw [← hget, List.set_getElem_self]

/-- **`clear_memory`.** -/
theorem Houses.clearMemory (h : Houses codec uuids tree draws vol dir) :
    Houses codec uuids tree draws vol { dir with array := dir.array.clearMemory } := by
  refine h.replaced ⟨h.wellFormed.keys, ?_⟩ ?_
  · show List.Forall₂ _ (dir.array.entries.map BackedEntry.unload) _
    rw [List.forall₂_map_left_iff]
    exact h.wellFormed.entries.imp fun _ _ hbacks => ⟨Or.inl rfl, hbacks.2⟩
  · show (dir.array.entries.map BackedEntry.unload).map recorded = _
    rw [List.map_map]
    rfl

/-! ### Joining -/

/-- Files that are where they go are not moved. -/
theorem moveChunks_idle {directoryRoot : Path String} {es : List (Chunk T Plainfile C)}
    (h : ∀ e ∈ es, ∃ name, recorded e = directoryRoot.join name) :
    Method.forEach (moveChunk directoryRoot) es tree = .ok (.ok (), tree) := by
  induction es with
  | nil => rfl
  | cons e es ih =>
      have hfirst : moveChunk directoryRoot e tree = .ok (.ok (), tree) := by
        obtain ⟨name, hpath⟩ := h e List.mem_cons_self
        have hname : (AsRefPath.path e.disk).fileName = some name := by
          show (recorded e).fileName = _
          rw [hpath, Path.fileName_join]
        have hstay : ¬AsRefPath.path e.disk ≠ directoryRoot.join name := fun hne => hne hpath
        unfold moveChunk
        show Method.bind _ _ tree = _
        unfold Method.bind Method.ofExec
        rw [hname, unwrap_some]
        simp only [if_neg hstay]
        rfl
      show Method.bind _ _ tree = _
      unfold Method.bind
      rw [hfirst]
      exact ih fun e he => h e (List.mem_cons_of_mem _ he)

/-- **Taking in an array of the same directory** moves no file. -/
theorem join_houses (how : Joining) {self other : DirectoryBackedArray T Plainfile C}
    (h : Houses codec uuids tree draws vol self) (h' : Houses codec uuids tree draws' rhs other)
    (hroots : self.directoryRoot = other.directoryRoot) :
    Meets (how.run self other) tree
      { ok := fun dir' t => t = tree ∧
          Houses codec uuids t (draws ++ draws') { vol with chunks := vol.chunks ++ rhs.chunks } dir'
        error := fun _ _ => False
        panic := fun _ => True } := by
  have hvols : rhs.directoryRoot = vol.directoryRoot := by rw [← h.root, ← h'.root, hroots]
  have hmerge : Meets (do
      let array ← .ofExec (self.array.merge other.array)
      pure { self with array } : FilesM (DirectoryBackedArray T Plainfile C)) tree
      { ok := fun dir' t => t = tree ∧
          Houses codec uuids t (draws ++ draws') { vol with chunks := vol.chunks ++ rhs.chunks } dir'
        error := fun _ _ => False
        panic := fun _ => True } := by
    rw [meets_bind]
    refine meets_ofExec (fun array harray => ⟨rfl, h.root, ?_, ?_⟩) fun _ _ => trivial
    · rw [merge_inv harray]
      exact ⟨merged_keys h.wellFormed h'.wellFormed, List.rel_append h.wellFormed.entries h'.wellFormed.entries⟩
    · rw [merge_inv harray]
      show (self.array.entries ++ other.array.entries).map recorded = _
      rw [List.map_append, List.map_append, h.paths, h'.paths, hvols]
  have hsame : ¬self.directoryRoot ≠ other.directoryRoot := fun hne => hne hroots
  cases how with
  | appendDir =>
      show Meets (self.appendDir other) _ _
      unfold DirectoryBackedArray.appendDir
      simp only [if_neg hsame]
      exact hmerge
  | aAppendDir =>
      show Meets (self.aAppendDir other) _ _
      unfold DirectoryBackedArray.aAppendDir
      simp only [if_neg hsame]
      exact hmerge
  | appendArray =>
      show Meets (self.appendArray other.array) _ _
      unfold DirectoryBackedArray.appendArray
      have hplaced : ∀ e ∈ other.array.entries, ∃ name, recorded e = self.directoryRoot.join name := by
        intro e he
        obtain ⟨k, -, hpath⟩ := h'.draw he
        exact ⟨uuids k, by rw [hpath, hroots, h'.root]⟩
      rw [meets_bind_of_eq (moveChunks_idle hplaced)]
      exact hmerge

end OneArray

/-! ## All arrays -/

section AllArrays

variable {codec : Codec (List T) C} {uuids : Nat → String} {draws : Nat → List Nat} {shelf : Shelf T}
  {s t : Site T C}

/-- **`Shelved codec uuids draws shelf s`** — each variable holds the volume of the shelf, and no draw names
files of two chunks. -/
structure Shelved (codec : Codec (List T) C) (uuids : Nat → String) (draws : Nat → List Nat) (shelf : Shelf T)
    (s : Site T C) : Prop where
  slots : ∀ i, Option.Rel (Houses codec uuids s.tree (draws i)) (shelf i) (s.dirs i)
  nodup : ∀ i, (draws i).Nodup
  made : ∀ i, ∀ k ∈ draws i, k < s.drawn
  apart : ∀ i j, i ≠ j → ∀ k ∈ draws i, k ∉ draws j

theorem rel_imp {α β : Type} {R R' : α → β → Prop} {a : Option α} {b : Option β} (h : Option.Rel R a b)
    (himp : ∀ a b, R a b → R' a b) : Option.Rel R' a b := by
  cases h with
  | none => exact .none
  | some hab => exact .some (himp _ _ hab)

/-- A variable that holds an array. -/
theorem Shelved.held (h : Shelved codec uuids draws shelf s) {i : Nat}
    {dir : DirectoryBackedArray T Plainfile C} (hi : s.dirs i = some dir) :
    ∃ vol, shelf i = some vol ∧ Houses codec uuids s.tree (draws i) vol dir := by
  have hslot := h.slots i
  rw [hi] at hslot
  rcases hvol : shelf i with _ | vol
  · rw [hvol] at hslot
    cases hslot
  · rw [hvol] at hslot
    cases hslot with
    | some hhouses => exact ⟨vol, rfl, hhouses⟩

/-- **One variable changes**, and no file of the others. -/
theorem Shelved.put (h : Shelved codec uuids draws shelf s) (huuids : Function.Injective uuids) {i : Nat}
    {ds : List Nat} {vol : Option (Volume T)} {dir : Option (DirectoryBackedArray T Plainfile C)}
    {tree' : FileTree String} {drawn' : Nat} (hslot : Option.Rel (Houses codec uuids tree' ds) vol dir)
    (hspares : Spares uuids (fun k => ∀ j, j ≠ i → k ∉ draws j) s.tree tree') (hle : s.drawn ≤ drawn')
    (hnodup : ds.Nodup) (hmade : ∀ k ∈ ds, k < drawn') (hapart : ∀ k ∈ ds, ∀ j, j ≠ i → k ∉ draws j) :
    Shelved codec uuids (Function.update draws i ds) (Function.update shelf i vol)
      { s.put i dir tree' with drawn := drawn' } := by
  refine ⟨fun j => ?_, fun j => ?_, fun j k hk => ?_, fun j l hne k hk hl => ?_⟩
  · by_cases hj : j = i
    · subst hj
      simpa only [Site.put, Function.update_self] using hslot
    · simp only [Site.put, Function.update_of_ne hj]
      exact rel_imp (h.slots j) fun _ _ hhouses => hhouses.frame huuids hspares fun k hk hno => hno j hj hk
  · by_cases hj : j = i
    · subst hj
      simpa only [Function.update_self] using hnodup
    · simpa only [Function.update_of_ne hj] using h.nodup j
  · by_cases hj : j = i
    · subst hj
      rw [Function.update_self] at hk
      exact hmade k hk
    · rw [Function.update_of_ne hj] at hk
      exact Nat.lt_of_lt_of_le (h.made j k hk) hle
  · by_cases hj : j = i
    · subst hj
      rw [Function.update_self] at hk
      rw [Function.update_of_ne (Ne.symm hne)] at hl
      exact hapart k hk l (Ne.symm hne) hl
    · rw [Function.update_of_ne hj] at hk
      by_cases hli : l = i
      · subst hli
        rw [Function.update_self] at hl
        exact hapart k hl j hj hk
      · rw [Function.update_of_ne hli] at hl
        exact h.apart j l hne k hk hl

/-- Draws of one variable are no other's. -/
theorem Shelved.own (h : Shelved codec uuids draws shelf s) {i k : Nat} (hk : k ∈ draws i) :
    ∀ j, j ≠ i → k ∉ draws j :=
  fun j hj hmem => h.apart i j (Ne.symm hj) k hk hmem

/-- A draw not yet made is nobody's. -/
theorem Shelved.unmade (h : Shelved codec uuids draws shelf s) (j : Nat) : s.drawn ∉ draws j := by
  intro hmem
  have := h.made j _ hmem
  omega

/-- The variable keeps its draws. -/
theorem Shelved.refill (h : Shelved codec uuids draws shelf s) (huuids : Function.Injective uuids) {i : Nat}
    {vol : Volume T} {dir : DirectoryBackedArray T Plainfile C} {tree' : FileTree String}
    (hi : shelf i = some vol) (hhouses : Houses codec uuids tree' (draws i) vol dir)
    (hsame : ∀ q, tree'.content q = s.tree.content q) :
    Shelved codec uuids draws shelf (s.put i (some dir) tree') := by
  have hput := h.put huuids (.some hhouses) (.of_same hsame) le_rfl (h.nodup i) (h.made i) fun k hk => h.own hk
  rwa [Function.update_eq_self, ← hi, Function.update_eq_self] at hput

/-- The variable has lost its array, and at most files of it have gone. -/
theorem Shelved.lost (h : Shelved codec uuids draws shelf s) (huuids : Function.Injective uuids) {i : Nat}
    {tree' : FileTree String} (hspares : Spares uuids (· ∈ draws i) s.tree tree') :
    Shelved codec uuids (Function.update draws i []) (Function.update shelf i none) (s.put i none tree') :=
  h.put huuids .none (hspares.mono fun _ hk => h.own hk) le_rfl List.nodup_nil (by nofun) (by nofun)

/-- Only the tree is another. -/
theorem Shelved.untouched (h : Shelved codec uuids draws shelf s) (huuids : Function.Injective uuids)
    {tree' : FileTree String} (hsame : ∀ q, tree'.content q = s.tree.content q) :
    Shelved codec uuids draws shelf { s with tree := tree' } := by
  refine ⟨fun i => rel_imp (h.slots i) fun _ _ hhouses => ?_, h.nodup, h.made, h.apart⟩
  exact hhouses.frame (P := fun _ => False) huuids (.of_same hsame) fun _ _ => id

/-- A join is of arrays of one directory. -/
def JoinsOneRoot (s : Site T C) (l : SiteOp T × Reply T) (_ : Site T C) : Prop :=
  match l.1 with
  | .join _ i j => (s.dirs i).map DirectoryBackedArray.directoryRoot =
      (s.dirs j).map DirectoryBackedArray.directoryRoot
  | _ => True

instance (s : Site T C) : ∀ (l : SiteOp T × Reply T) (t : Site T C), Decidable (JoinsOneRoot s l t)
  | (.join _ i j, _), _ => inferInstanceAs (Decidable ((s.dirs i).map DirectoryBackedArray.directoryRoot =
      (s.dirs j).map DirectoryBackedArray.directoryRoot))
  | (.new _ _, _), _ => isTrue trivial
  | (.change _ _, _), _ => isTrue trivial
  | (.chunk _ _, _), _ => isTrue trivial
  | (.clearMemory _, _), _ => isTrue trivial
  | (.delete _, _), _ => isTrue trivial

/-- **`new`.** -/
theorem new_simulates (h : Shelved codec uuids draws shelf s) (huuids : Function.Injective uuids)
    {i : Nat} {directoryRoot : Path String} {r : Except FileError (DirectoryBackedArray T Plainfile C)}
    {tree' : FileTree String} (hnew : DirectoryBackedArray.new directoryRoot s.tree = (r, tree')) :
    (∀ q, tree'.content q = s.tree.content q) ∧ ∀ dir, r = .ok dir →
      Shelved codec uuids (Function.update draws i [])
        (Function.update shelf i (some ⟨directoryRoot, []⟩)) (s.put i (some dir) tree') := by
  have hcontent := fun q => FileTree.createDirAll_content directoryRoot q s.tree
  unfold DirectoryBackedArray.new at hnew
  rcases hcreate : s.tree.createDirAll directoryRoot with ⟨e | _, u⟩
  · rw [hcreate] at hnew hcontent
    cases hnew
    exact ⟨hcontent, nofun⟩
  · rw [hcreate] at hnew hcontent
    cases hnew
    refine ⟨hcontent, fun dir hdir => ?_⟩
    cases hdir
    have hempty : Houses codec uuids tree' [] ⟨directoryRoot, []⟩
        { array := .new, directoryRoot } := ⟨rfl, wellFormed_new _, rfl⟩
    exact h.put huuids (.some hempty) (.of_same hcontent) le_rfl List.nodup_nil (by nofun) (by nofun)

/-- **An append.** -/
theorem appends_simulates [Inhabited C] (h : Shelved codec uuids draws shelf s)
    (hcodec : ∀ v, codec.decode default (codec.encode default v) = some v)
    (huuids : Function.Injective uuids) {i : Nat} {vol : Volume T}
    {dir : DirectoryBackedArray T Plainfile C} (hi : shelf i = some vol)
    (hhouses : Houses codec uuids s.tree (draws i) vol dir) {values : List T} {r : Except PlainError Unit}
    {array : BackedArray (Chunk T Plainfile C)} {tree' : FileTree String}
    (happ : Appends codec values (dir.nextTarget (uuids s.drawn)) default dir.array s.tree r array tree')
    (hmem : Remembers values dir.array r array) :
    (r = .ok () → Shelved codec uuids (Function.update draws i (draws i ++ [s.drawn]))
        (Function.update shelf i (some { vol with chunks := vol.chunks ++ [values] }))
        { s.put i (some { dir with array }) tree' with drawn := s.drawn + 1 }) ∧
      ∀ e, r = .error e → e ≠ .coder ∧
        Shelved codec uuids draws shelf { s.put i (some { dir with array }) tree' with drawn := s.drawn + 1 } := by
  have hfresh := h.unmade
  obtain ⟨hspares, hok, herror⟩ := hhouses.appends hcodec huuids (hfresh i) happ hmem
  have hfree : Spares uuids (fun k => ∀ j, j ≠ i → k ∉ draws j) s.tree tree' := by
    refine hspares.mono fun k hk j _ => ?_
    rw [hk]
    exact hfresh j
  have hmade : ∀ k ∈ draws i, k < s.drawn + 1 := fun k hk => Nat.lt_succ_of_lt (h.made i k hk)
  constructor
  · intro hr
    refine h.put huuids (.some (hok hr)) hfree (Nat.le_succ _) ?_ (fun k hk => ?_) fun k hk => ?_
    · apply List.Nodup.append (h.nodup i) (List.nodup_singleton _)
      intro k hk hlast
      rw [List.mem_singleton.mp hlast] at hk
      exact hfresh i hk
    · rcases List.mem_append.mp hk with hk | hk
      · exact hmade k hk
      · rw [List.mem_singleton.mp hk]
        exact Nat.lt_succ_self _
    · rcases List.mem_append.mp hk with hk | hk
      · exact h.own hk
      · rw [List.mem_singleton.mp hk]
        exact fun j _ => hfresh j
  · intro e he
    refine ⟨fun hcoder => hmem.1 (hcoder ▸ he), ?_⟩
    have hkept : Houses codec uuids tree' (draws i) vol { dir with array } := by
      rw [herror e he]
      exact hhouses.frame huuids hspares fun k hk heq => hfresh i (heq ▸ hk)
    have hput := h.put huuids (.some hkept) hfree (Nat.le_succ _) (h.nodup i) hmade fun k hk => h.own hk
    rwa [Function.update_eq_self, ← hi, Function.update_eq_self] at hput

/-- **A change of one chunk.** -/
theorem change_simulates [Inhabited C] (h : Shelved codec uuids draws shelf s)
    (hcodec : ∀ v, codec.decode default (codec.encode default v) = some v)
    (huuids : Function.Injective uuids) {i : Nat} {vol : Volume T}
    {dir : DirectoryBackedArray T Plainfile C} (hi : shelf i = some vol)
    (hhouses : Houses codec uuids s.tree (draws i) vol dir) {op : DirOp T} {r : Except PlainError Unit}
    {st : DirState T C}
    (hrun : dirNext codec uuids { dir, tree := s.tree, drawn := s.drawn } op = some (r, st)) :
    (r = .ok () → ∃ draws', Shelved codec uuids draws'
        (Function.update shelf i (some { vol with chunks := op.onChunks vol.chunks }))
        { s.put i (some st.dir) st.tree with drawn := st.drawn }) ∧
      ∀ e, r = .error e → (SiteOp.change i op).MayFail e ∧
        ∃ draws', Shelved codec uuids draws' shelf { s.put i (some st.dir) st.tree with drawn := st.drawn } := by
  have happly := toOption_inv hrun
  cases op with
  | append values =>
      obtain ⟨⟨r', dir', tree'⟩, hcall, happly⟩ := exec_bind_inv happly
      cases happly
      obtain ⟨⟨r'', array, tree'⟩, harr, hcall⟩ := exec_bind_inv hcall
      cases hcall
      obtain ⟨hok, herror⟩ :=
        appends_simulates h hcodec huuids hi hhouses (append_appends harr) (append_remembers harr)
      exact ⟨fun hr => ⟨_, hok hr⟩, fun e he => ⟨(herror e he).1, _, (herror e he).2⟩⟩
  | appendMemory values =>
      obtain ⟨⟨r', dir', tree'⟩, hcall, happly⟩ := exec_bind_inv happly
      cases happly
      obtain ⟨⟨r'', array, tree'⟩, harr, hcall⟩ := exec_bind_inv hcall
      cases hcall
      obtain ⟨hok, herror⟩ :=
        appends_simulates h hcodec huuids hi hhouses (appendMemory_appends harr) (appendMemory_remembers harr)
      exact ⟨fun hr => ⟨_, hok hr⟩, fun e he => ⟨(herror e he).1, _, (herror e he).2⟩⟩
  | remove entryIdx =>
      have hremove := remove_houses hhouses huuids (h.nodup i) entryIdx
      unfold DirOp.apply at happly
      rcases hcall : dir.remove entryIdx s.tree with p | ⟨err | dir', tree'⟩
      · simp only [hcall] at happly
        cases happly
      · simp only [hcall] at happly
        cases happly
        obtain ⟨herr, hsame⟩ := hremove.error hcall
        have hkept := hhouses.frame (P := fun _ => False) huuids (.of_same hsame) fun _ _ => id
        refine ⟨nofun, fun e he => ⟨?_, draws, h.refill huuids hi hkept hsame⟩⟩
        cases he
        exact congrArg PlainError.file herr
      · simp only [hcall] at happly
        cases happly
        obtain ⟨hspares, hleft, -⟩ := hremove.ok hcall
        have hsub : ∀ k ∈ (draws i).eraseIdx entryIdx, k ∈ draws i := fun k hk => List.mem_of_mem_eraseIdx hk
        refine ⟨fun _ => ⟨_, h.put huuids (.some hleft) (hspares.mono fun _ hk => h.own hk) le_rfl ?_ ?_ ?_⟩,
          nofun⟩
        · exact (h.nodup i).eraseIdx entryIdx
        · exact fun k hk => h.made i k (hsub k hk)
        · exact fun k hk => h.own (hsub k hk)

/-- **A join.** -/
theorem join_simulates (h : Shelved codec uuids draws shelf s) (huuids : Function.Injective uuids)
    {i j : Nat} {vol rhs : Volume T} {dir : DirectoryBackedArray T Plainfile C} (hne : i ≠ j)
    (hjoined : Houses codec uuids s.tree (draws i ++ draws j)
      { vol with chunks := vol.chunks ++ rhs.chunks } dir) :
    ∃ draws', Shelved codec uuids draws'
      (Function.update (Function.update shelf j none) i
        (some { vol with chunks := vol.chunks ++ rhs.chunks }))
      ((s.put j none s.tree).put i (some dir) s.tree) := by
  have hlost : Shelved codec uuids (Function.update draws j []) (Function.update shelf j none)
      (s.put j none s.tree) := h.lost huuids (.of_same fun _ => rfl)
  refine ⟨_, hlost.put huuids (.some hjoined) (.of_same fun _ => rfl) le_rfl ?_ (fun k hk => ?_) fun k hk => ?_⟩
  · exact List.Nodup.append (h.nodup i) (h.nodup j) fun k hk hk' => h.apart i j hne k hk hk'
  · rcases List.mem_append.mp hk with hk | hk
    · exact h.made i k hk
    · exact h.made j k hk
  · intro l hl hmem
    by_cases hlj : l = j
    · rw [hlj, Function.update_self] at hmem
      cases hmem
    · rw [Function.update_of_ne hlj] at hmem
      rcases List.mem_append.mp hk with hk | hk
      · exact h.apart i l (Ne.symm hl) k hk hmem
      · exact h.apart j l (Ne.symm hlj) k hk hmem

/-- **The step lemma.**  An operation on the files is one on the lists. -/
theorem siteNext_simulates [Inhabited C]
    (hcodec : ∀ v, codec.decode default (codec.encode default v) = some v)
    (huuids : Function.Injective uuids) :
    Simulates (fun (shelf : Shelf T) (s : Site T C) => ∃ draws, Shelved codec uuids draws shelf s) ShelfStep
      (fun s l t => Reacts (siteNext codec uuids) s l t ∧ JoinsOneRoot s l t) := by
  rintro shelf s ⟨op, reply⟩ t ⟨draws, h⟩ ⟨hstep, hroots⟩
  unfold Reacts at hstep
  cases op with
  | new i directoryRoot =>
      unfold siteNext at hstep
      rcases hnew : (DirectoryBackedArray.new directoryRoot s.tree :
        Except FileError (DirectoryBackedArray T Plainfile C) × _) with ⟨e | dir, tree'⟩
      · simp only [hnew] at hstep
        cases hstep
        obtain ⟨hsame, -⟩ := new_simulates (i := i) h huuids hnew
        exact ⟨shelf, .failed (by nofun), draws, h.untouched huuids hsame⟩
      · simp only [hnew] at hstep
        cases hstep
        obtain ⟨-, hput⟩ := new_simulates (i := i) h huuids hnew
        exact ⟨_, .new, _, hput dir rfl⟩
  | change i op =>
      obtain ⟨dir, hdir, hstep⟩ := Option.bind_eq_some_iff.mp hstep
      obtain ⟨⟨r, st⟩, hrun, hstep⟩ := Option.bind_eq_some_iff.mp hstep
      obtain ⟨vol, hvol, hhouses⟩ := h.held hdir
      obtain ⟨hok, herror⟩ := change_simulates h hcodec huuids hvol hhouses hrun
      cases hstep
      rcases r with e | _
      · obtain ⟨hmay, hkept⟩ := herror e rfl
        exact ⟨shelf, .failed hmay, hkept⟩
      · exact ⟨_, .change hvol, hok rfl⟩
  | chunk i entryIdx =>
      obtain ⟨dir, hdir, hstep⟩ := Option.bind_eq_some_iff.mp hstep
      obtain ⟨vol, hvol, hhouses⟩ := h.held hdir
      rcases hnext : dir.array.chunkNext (plainfile codec) entryIdx s.tree with ⟨r, array, tree'⟩
      obtain ⟨hr, hkept, hsame⟩ := hhouses.chunkNext hnext
      have hput := h.refill huuids hvol hkept hsame
      simp only [hnext] at hstep
      rcases hr with rfl | rfl
      · have hread : ShelfStep shelf (.chunk i entryIdx, .chunk vol.chunks[entryIdx]?) shelf := .chunk hvol
        rcases hchunk : vol.chunks[entryIdx]? with _ | values
        · rw [hchunk] at hstep hread
          cases hstep
          exact ⟨shelf, hread, draws, hput⟩
        · rw [hchunk] at hstep hread
          cases hstep
          exact ⟨shelf, hread, draws, hput⟩
      · cases hstep
        exact ⟨shelf, .failed rfl, draws, hput⟩
  | clearMemory i =>
      obtain ⟨dir, hdir, hstep⟩ := Option.bind_eq_some_iff.mp hstep
      obtain ⟨vol, hvol, hhouses⟩ := h.held hdir
      cases hstep
      exact ⟨shelf, .clearMemory hvol, draws, h.refill huuids hvol hhouses.clearMemory fun _ => rfl⟩
  | join how i j =>
      change (if i = j then none else _) = _ at hstep
      by_cases hne : i = j
      · rw [if_pos hne] at hstep
        cases hstep
      · rw [if_neg hne] at hstep
        obtain ⟨self, hself, hstep⟩ := Option.bind_eq_some_iff.mp hstep
        obtain ⟨other, hother, hstep⟩ := Option.bind_eq_some_iff.mp hstep
        obtain ⟨⟨r, tree'⟩, hrun, hstep⟩ := Option.bind_eq_some_iff.mp hstep
        obtain ⟨vol, hvol, hhouses⟩ := h.held hself
        obtain ⟨rhs, hrhs, hhouses'⟩ := h.held hother
        have hsame : self.directoryRoot = other.directoryRoot := by
          change (s.dirs i).map _ = (s.dirs j).map _ at hroots
          rw [hself, hother] at hroots
          exact Option.some.inj hroots
        have hmeets := join_houses how hhouses hhouses' hsame
        rcases r with e | dir
        · exact (hmeets.error (toOption_inv hrun)).elim
        · obtain ⟨rfl, hjoined⟩ := hmeets.ok (toOption_inv hrun)
          cases hstep
          exact ⟨_, .join hne hvol hrhs, join_simulates h huuids hne hjoined⟩
  | delete i =>
      obtain ⟨dir, hdir, hstep⟩ := Option.bind_eq_some_iff.mp hstep
      obtain ⟨⟨r, tree'⟩, hrun, hstep⟩ := Option.bind_eq_some_iff.mp hstep
      obtain ⟨vol, hvol, hhouses⟩ := h.held hdir
      have hmeets := delete_houses hhouses huuids (h.nodup i)
      rcases r with e | _ | _
      · obtain ⟨rfl, hspares⟩ := hmeets.error (toOption_inv hrun)
        cases hstep
        exact ⟨_, .failed rfl, _, h.lost huuids hspares⟩
      · cases hstep
      · obtain ⟨hspares, -⟩ := hmeets.ok (toOption_inv hrun)
        cases hstep
        exact ⟨_, .delete hvol, _, h.lost huuids hspares⟩

/-- **`Shows codec shelf s`** — the arrays have the roots and the chunks of the volumes: the tables lay them out,
what is loaded of them is in memory, and the file of each entry decodes to its chunk. -/
def Shows (codec : Codec (List T) C) (shelf : Shelf T) (s : Site T C) : Prop :=
  ∀ i, Option.Rel (fun vol dir => dir.directoryRoot = vol.directoryRoot ∧
    WellFormed (Backs codec s.tree) dir.array vol.chunks) (shelf i) (s.dirs i)

/-- No two entries record one file, in one array or in two. -/
def OwnFiles (s : Site T C) : Prop :=
  ∀ i j a b, s.dirs i = some a → s.dirs j = some b → ∀ (k l : Nat) e f, a.array.entries[k]? = some e →
    b.array.entries[l]? = some f → recorded e = recorded f → i = j ∧ k = l

theorem Shelved.shows (h : Shelved codec uuids draws shelf s) : Shows codec shelf s :=
  fun i => rel_imp (h.slots i) fun _ _ hhouses => ⟨hhouses.root, hhouses.wellFormed⟩

theorem Shelved.ownFiles (h : Shelved codec uuids draws shelf s) (huuids : Function.Injective uuids) :
    OwnFiles s := by
  intro i j a b ha hb k l e f he hf hsame
  obtain ⟨vol, -, hhouses⟩ := h.held ha
  obtain ⟨rhs, -, hhouses'⟩ := h.held hb
  by_cases hij : i = j
  · subst hij
    obtain rfl : a = b := Option.some.inj (ha.symm.trans hb)
    have hlt : k < (a.array.entries.map recorded).length := by
      rw [List.length_map]
      exact (List.getElem?_eq_some_iff.mp he).1
    refine ⟨rfl, (List.getElem?_inj hlt (hhouses.distinct huuids (h.nodup i))).mp ?_⟩
    rw [List.getElem?_map, List.getElem?_map, he, hf, Option.map_some, Option.map_some, hsame]
  · obtain ⟨m, hm, hpath⟩ := hhouses.draw (List.mem_of_getElem? he)
    obtain ⟨m', hm', hpath'⟩ := hhouses'.draw (List.mem_of_getElem? hf)
    rw [hpath, hpath'] at hsame
    have hdraw : m = m' := huuids (Path.join_inj hsame).2
    exact absurd (hdraw ▸ hm') (h.apart i j hij m hm)

end AllArrays

/-- **Arrays over one file tree are as if each were alone.**  From no array at all, along every run of `new`,
`append`, `append_memory`, `remove`, reads of chunks, `clear_memory`, `append_dir`, `a_append_dir`,
`append_array` and `delete` on any number of arrays, in one directory or in several, whichever calls on the
files fail: the answers are those of a run over lists of chunks in which an operation changes the array it
is called on and no other.  All along every entry has a file of its own that decodes to its chunk, so that a
read, a removal or a deletion never misses a file; it fails only where the file system does.  Arrays are
joined within one directory. -/
theorem site_refines_shelf [Inhabited C] (codec : Codec (List T) C)
    (hcodec : ∀ v, codec.decode default (codec.encode default v) = some v) (uuids : Nat → String)
    (huuids : Function.Injective uuids) (tree : FileTree String)
    (tr : List ((SiteOp T × Reply T) × Site T C))
    (htr : IsTrace (Reacts (siteNext codec uuids)) { dirs := fun _ => none, tree, drawn := 0 } tr)
    (hroots : StepsMeet JoinsOneRoot { dirs := fun _ => none, tree, drawn := 0 } tr) :
    ∃ atr, IsTrace ShelfStep (fun _ => none) atr ∧
      SideBySide (fun shelf s => Shows codec shelf s ∧ OwnFiles s) atr tr := by
  have h0 : Shelved codec uuids (fun _ => []) (fun _ => none) { dirs := fun _ => none, tree, drawn := 0 } :=
    ⟨fun _ => .none, fun _ => List.nodup_nil, fun _ => by nofun, fun _ _ _ => by nofun⟩
  obtain ⟨atr, hatr, hside⟩ :=
    (siteNext_simulates hcodec huuids).run ⟨_, h0⟩ (isTrace_and.mpr ⟨htr, hroots⟩)
  refine ⟨atr, hatr, hside.imp ?_⟩
  rintro shelf s ⟨draws, h⟩
  exact ⟨h.shows, h.ownFiles huuids⟩

/-- A tree with one directory, in which two calls fail. -/
def sharedTree : FileTree String where
  files := ∅
  dirs := [[.rootDir]]
  faults := [false, false, false, false, false, false, true, false, false, false, false, true]

/-- Two arrays in one directory: an append to the one fails, a removal from the other does; then the one is
taken in, and what there is read back and deleted. -/
def sharedRun : List ((SiteOp UInt8 × Reply UInt8) × Site UInt8 Unit) :=
  let a : Path String := [.rootDir, .normal "a"]
  react (siteNext asBytes lengthNames) { dirs := fun _ => none, tree := sharedTree, drawn := 0 }
    [.new 0 a, .new 1 a, .change 0 (.append [1, 2]), .change 1 (.append [3]), .change 1 (.appendMemory [4]),
      .change 0 (.append [5]), .change 0 (.remove 0), .change 0 (.remove 0), .join .appendDir 0 1,
      .clearMemory 0, .chunk 0 0, .chunk 0 1, .delete 0]

theorem site_refines_shelf_shared : ∃ atr, IsTrace ShelfStep (fun _ => none) atr ∧
    SideBySide (fun shelf s => Shows asBytes shelf s ∧ OwnFiles s) atr sharedRun :=
  site_refines_shelf asBytes (fun _ => rfl) lengthNames lengthNames_injective sharedTree sharedRun
    (isTrace_react _ _ _) (by decide +kernel)

example : sharedRun.map (fun x => x.1.2) =
    [.done, .done, .done, .failed (.file .failed), .done, .done, .failed (.file .failed), .done, .done, .done,
      .chunk (some [5]), .chunk (some [4]), .done] := by
  decide +kernel

end BackedData.Directory
