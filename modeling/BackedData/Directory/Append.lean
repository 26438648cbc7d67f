/-
# BackedData.Directory.Append — where the chunks are after two directories have been joined

`append_dir`, `append_array` and `a_append_dir` move the files of the right array into the directory of
the left one; the entries are merged as they are, and keep the paths they had.  `moveChunks_relocates` says
what the moves do to every path; from it `append_exact` derives when the entries of the result still find
their files: when every file of the right array was at its target already, and (for `append_dir`) the
removal of the meta file of the right directory hits no chunk.
-/
import BackedData.Array.Resize
import BackedData.Directory.Basic

namespace BackedData.Directory

open Logic.Files
open Logic.Outcome
open Logic.Stateful
open BackedData.Entry
open BackedData.Array

set_option autoImplicit false

/-! ## The moves -/

/-- The path is where the file of this name goes in the directory. -/
def InPlace (directoryRoot path : Path String) : Prop :=
  path.fileName.map directoryRoot.join = some path

instance (directoryRoot path : Path String) : Decidable (InPlace directoryRoot path) :=
  inferInstanceAs (Decidable (_ = _))

theorem inPlace_iff {directoryRoot path : Path String} {name : String}
    (h : path.fileName = some name) :
    InPlace directoryRoot path ↔ path = directoryRoot.join name := by
  unfold InPlace
  rw [h, Option.map_some, Option.some.injEq]
  exact eq_comm

/-- **`Relocates root paths before after`** — the files at these paths have been moved to `root`: one
that was in place stays, every other one is at its target and nowhere else, and no file of another name
has changed. -/
structure Relocates (directoryRoot : Path String) (paths : List (Path String))
    (before after : FileTree String) : Prop where
  moved : ∀ p ∈ paths, ∀ name, p.fileName = some name →
    after.content (directoryRoot.join name) = before.content p
  gone : ∀ p ∈ paths, ¬InPlace directoryRoot p → after.content p = none
  others : ∀ q, (∀ p ∈ paths, q.fileName ≠ p.fileName) → after.content q = before.content q
  idle : (∀ p ∈ paths, InPlace directoryRoot p) → after = before

section Moves

variable {T D C : Type} [AsRefPath D] {directoryRoot : Path String} {before after : FileTree String}

/-- A file in place stays where it was. -/
theorem Relocates.kept {paths : List (Path String)} (h : Relocates directoryRoot paths before after)
    {p : Path String} (hp : p ∈ paths) (hin : InPlace directoryRoot p) :
    after.content p = before.content p := by
  rcases hname : p.fileName with _ | name
  · unfold InPlace at hin
    rw [hname] at hin
    cases hin
  · have hpath : p = directoryRoot.join name := (inPlace_iff hname).mp hin
    have hmoved := h.moved p hp name hname
    rw [← hpath] at hmoved
    exact hmoved

/-- A file that is moved: its bytes are at the target, and no longer where they were. -/
theorem Relocates.single {disk : Path String} {name : String} (hname : disk.fileName = some name)
    (hne : disk ≠ directoryRoot.join name)
    (htarget : after.content (directoryRoot.join name) = before.content disk)
    (hgone : after.content disk = none)
    (hrest : ∀ q, q ≠ disk → q ≠ directoryRoot.join name → after.content q = before.content q) :
    Relocates directoryRoot [disk] before after := by
  refine ⟨?_, ?_, ?_, ?_⟩
  · rintro p hp n hn
    rw [List.mem_singleton] at hp
    subst hp
    rw [hname] at hn
    cases hn
    exact htarget
  · rintro p hp -
    rw [List.mem_singleton] at hp
    rw [hp]
    exact hgone
  · intro q hq
    have hq' := hq disk List.mem_cons_self
    refine hrest q (fun h => hq' (by rw [h])) fun h => hq' ?_
    rw [h, Path.fileName_join, hname]
  · intro hall
    exact absurd ((inPlace_iff hname).mp (hall disk List.mem_cons_self)) hne

/-- A file that is at its target already. -/
theorem Relocates.single_inPlace {disk : Path String} {name : String} (hname : disk.fileName = some name)
    (hpath : disk = directoryRoot.join name) : Relocates directoryRoot [disk] before before := by
  refine ⟨?_, ?_, fun _ _ => rfl, fun _ => rfl⟩
  · rintro p hp n hn
    rw [List.mem_singleton] at hp
    subst hp
    rw [hname] at hn
    cases hn
    rw [← hpath]
  · rintro p hp hno
    rw [List.mem_singleton] at hp
    exact absurd ((inPlace_iff hname).mpr hpath) (hp ▸ hno)

/-- One chunk. -/
theorem moveChunk_relocates (chunk : Chunk T D C) :
    Meets (moveChunk directoryRoot chunk) before
      (onSuccess fun _ after =>
        Relocates directoryRoot [AsRefPath.path chunk.disk] before after) := by
  generalize hdisk : AsRefPath.path chunk.disk = disk
  unfold moveChunk
  simp only [hdisk]
  rcases hname : disk.fileName with _ | name
  · rw [meets_bind]
    exact fun h => h
  rw [meets_bind, meets_ofExec_ok (unwrap_some name)]
  by_cases hne : disk ≠ directoryRoot.join name
  · simp only [if_pos hne]
    rw [meets_bind, meets_attempt, meets_ofCall]
    -- the two ways to move a file leave the same
    refine ⟨fun _ t hrename => ?_, fun e t hrename => ?_⟩
    · obtain ⟨htarget, hgone, hrest⟩ := FileTree.rename_ok hrename hne
      exact .single hname hne htarget hgone hrest
    · have hsame := FileTree.rename_error hrename
      simp only [meets_bind, meets_ofCall]
      refine ⟨fun _ u hcopy => ⟨fun _ v hremove => ?_, fun _ _ _ => ⟨id, trivial⟩⟩,
        fun _ _ _ => ⟨id, trivial⟩⟩
      have htarget := FileTree.copy_ok hcopy hne
      have hrest : ∀ q, q ≠ directoryRoot.join name → u.content q = t.content q := by
        intro q hq
        have hcontent := FileTree.copy_content disk t hq
        rw [hcopy] at hcontent
        exact hcontent
      obtain ⟨hgone, hothers⟩ := FileTree.removeFile_ok hremove
      refine .single hname hne ?_ hgone fun q hsrc hdst => ?_
      · rw [hothers _ hne.symm, htarget, hsame]
      · rw [hothers q hsrc, hrest q hdst, hsame]
  · simp only [if_neg hne]
    exact .single_inPlace hname (Decidable.not_not.mp hne)

/-- Moves of files of different names, one after another. -/
theorem Relocates.trans {paths : List (Path String)} {p : Path String}
    {middle : FileTree String} (h₁ : Relocates directoryRoot [p] before middle)
    (h₂ : Relocates directoryRoot paths middle after)
    (hnames : ∀ q ∈ paths, p.fileName ≠ q.fileName) :
    Relocates directoryRoot (p :: paths) before after := by
  have hfirst : ∀ q : Path String, q.fileName = p.fileName → after.content q = middle.content q :=
    fun q hq => h₂.others q fun r hr => hq ▸ hnames r hr
  have hrest : ∀ q ∈ paths, middle.content q = before.content q := by
    intro q hq
    apply h₁.others q
    intro r hr
    rw [List.mem_singleton] at hr
    rw [hr]
    exact (hnames q hq).symm
  refine ⟨?_, ?_, ?_, ?_⟩
  · intro q hq name hname
    rcases List.mem_cons.mp hq with rfl | hq
    · rw [hfirst _ (by rw [Path.fileName_join, hname])]
      exact h₁.moved q List.mem_cons_self name hname
    · rw [h₂.moved q hq name hname, hrest q hq]
  · intro q hq hno
    rcases List.mem_cons.mp hq with rfl | hq
    · rw [hfirst q rfl]
      exact h₁.gone q List.mem_cons_self hno
    · exact h₂.gone q hq hno
  · intro q hq
    rw [h₂.others q fun r hr => hq r (List.mem_cons_of_mem _ hr)]
    apply h₁.others q
    intro r hr
    rw [List.mem_singleton] at hr
    rw [hr]
    exact hq p List.mem_cons_self
  · intro hall
    rw [h₂.idle fun q hq => hall q (List.mem_cons_of_mem _ hq)]
    apply h₁.idle
    intro r hr
    rw [List.mem_singleton] at hr
    rw [hr]
    exact hall p List.mem_cons_self

/-- **The moves**, on chunks whose files have different names. -/
theorem moveChunks_relocates {chunks : List (Chunk T D C)}
    (hnames : (chunks.map fun e => (AsRefPath.path e.disk).fileName).Nodup) :
    Meets (Method.forEach (moveChunk directoryRoot) chunks) before
      (onSuccess fun _ after =>
        Relocates directoryRoot (chunks.map fun e => AsRefPath.path e.disk) before after) := by
  induction chunks generalizing before with
  | nil => exact ⟨nofun, nofun, fun _ _ => rfl, fun _ => rfl⟩
  | cons chunk chunks ih =>
      obtain ⟨hfresh, hnodup⟩ := List.nodup_cons.mp hnames
      apply (moveChunk_relocates chunk).seq
      intro _ middle h₁
      refine (ih hnodup).imp (fun _ after h₂ => h₁.trans h₂ ?_) fun _ h => h
      intro q hq heq
      obtain ⟨e, he, rfl⟩ := List.mem_map.mp hq
      exact hfresh (List.mem_map.mpr ⟨e, he, heq.symm⟩)

end Moves

/-! ## Entries and their files -/

section Entries

variable {T C : Type} {codec : Codec (List T) C} {before after : FileTree String}

/-- The file at the path that the entry records decodes to this chunk. -/
def Stored (codec : Codec (List T) C) (tree : FileTree String) (e : Chunk T Plainfile C)
    (chunk : List T) : Prop :=
  ∃ bytes, tree.content e.disk.path = some bytes ∧ codec.decode e.coder bytes = some chunk

/-- The entry keeps this chunk: in its file, and in memory if it is loaded. -/
def Backs (codec : Codec (List T) C) (tree : FileTree String) (e : Chunk T Plainfile C)
    (chunk : List T) : Prop :=
  (e.value = none ∨ e.value = some chunk) ∧ Stored codec tree e chunk

/-- **`Reloads codec tree arr chunks`** — after `clear_memory`, with no failing call, the entries of
`arr` load these chunks, and the tables lay them out. -/
def Reloads (codec : Codec (List T) C) (tree : FileTree String)
    (arr : BackedArray (Chunk T Plainfile C)) (chunks : List (List T)) : Prop :=
  WellFormed (fun e chunk => (e.load (plainfile codec) tree.calm).1 = .ok chunk) arr.clearMemory chunks

/-- A load without the cache returns what the file decodes to. -/
theorem load_unload_iff (e : Chunk T Plainfile C) (tree : FileTree String) (chunk : List T) :
    (e.unload.load (plainfile codec) tree.calm).1 = .ok chunk ↔ Stored codec tree e chunk := by
  unfold Stored BackedEntry.load BackedEntry.unload BackedEntry.decodeFromDisk plainfile
  rcases hc : tree.content e.disk.path with _ | bytes
  · have hopen : tree.calm.openRead e.disk.path = (.error .notFound, tree.calm) :=
      FileTree.openRead_missing rfl hc
    simp [hopen]
  · have hopen : tree.calm.openRead e.disk.path = (.ok (), tree.calm) := FileTree.openRead_calm rfl hc
    have hread : tree.calm.read e.disk.path = (.ok bytes, tree.calm) := FileTree.read_calm rfl hc
    simp only [hopen, hread]
    rcases hd : codec.decode e.coder bytes with _ | v
    · simp [hd]
    · simp [hd]

/-- Where files were kept or lost, the entries that still find theirs are those whose file was kept. -/
theorem stored_iff_kept {es : List (Chunk T Plainfile C)} {chunks : List (List T)}
    (h : List.Forall₂ (Stored codec before) es chunks)
    (hlost : ∀ e ∈ es, after.content e.disk.path = before.content e.disk.path ∨
      after.content e.disk.path = none) :
    List.Forall₂ (Stored codec after) es chunks ↔
      ∀ e ∈ es, after.content e.disk.path = before.content e.disk.path := by
  induction h with
  | nil => simp
  | @cons e chunk es chunks hstored hrest ih =>
      have hiff := ih fun e he => hlost e (List.mem_cons_of_mem _ he)
      rw [List.forall₂_cons, hiff, List.forall_mem_cons]
      refine and_congr_left fun _ => ⟨fun hafter => ?_, fun hsame => ?_⟩
      · obtain ⟨bytes, hbytes, -⟩ := hafter
        rcases hlost e List.mem_cons_self with hsame | hnone
        · exact hsame
        · rw [hnone] at hbytes
          cases hbytes
      · obtain ⟨bytes, hbytes, hdecode⟩ := hstored
        exact ⟨bytes, hsame.trans hbytes, hdecode⟩

/-- Two lists related piece by piece. -/
theorem forall₂_append_iff {α β : Type} {R : α → β → Prop} {xs xs' : List α} {ys ys' : List β}
    (hlen : xs.length = ys.length) :
    List.Forall₂ R (xs ++ xs') (ys ++ ys') ↔ List.Forall₂ R xs ys ∧ List.Forall₂ R xs' ys' := by
  induction xs generalizing ys with
  | nil =>
      have hnil : ys = [] := List.eq_nil_of_length_eq_zero hlen.symm
      rw [hnil]
      simp
  | cons x xs ih =>
      cases ys with
      | nil => cases hlen
      | cons y ys =>
          have htails : xs.length = ys.length := Nat.succ.inj hlen
          have hrest := ih htails
          rw [List.cons_append, List.cons_append, List.forall₂_cons, List.forall₂_cons, hrest,
            and_assoc]

end Entries

/-! ## Joining two arrays -/

section Joining

variable {T C : Type} {codec : Codec (List T) C} {before after : FileTree String}
variable {a : DirectoryBackedArray T Plainfile C} {rhs : BackedArray (Chunk T Plainfile C)}
variable {ca cb : List (List T)}

/-- The names of the files of some chunks. -/
def fileNames (es : List (Chunk T Plainfile C)) : List (Option String) :=
  es.map fun e => e.disk.path.fileName

/-- Every chunk of the right array is recorded where it goes in the directory of the left one. -/
def AllInPlace (directoryRoot : Path String) (rhs : BackedArray (Chunk T Plainfile C)) : Prop :=
  ∀ e ∈ rhs.entries, InPlace directoryRoot e.disk.path

instance (directoryRoot : Path String) (rhs : BackedArray (Chunk T Plainfile C)) :
    Decidable (AllInPlace directoryRoot rhs) :=
  inferInstanceAs (Decidable (∀ e ∈ rhs.entries, InPlace directoryRoot e.disk.path))

/-- What the joined array reloads, in terms of the files of its two parts. -/
theorem reloads_merged_iff (ha : WellFormed (Backs codec before) a.array ca)
    (hb : WellFormed (Backs codec before) rhs cb) :
    Reloads codec after (merged a.array rhs) (ca ++ cb) ↔
      List.Forall₂ (Stored codec after) a.array.entries ca ∧
        List.Forall₂ (Stored codec after) rhs.entries cb := by
  have hentries : List.Forall₂ (fun e chunk => (e.load (plainfile codec) after.calm).1 = .ok chunk)
      (merged a.array rhs).clearMemory.entries (ca ++ cb) ↔
      List.Forall₂ (Stored codec after) (a.array.entries ++ rhs.entries) (ca ++ cb) := by
    show List.Forall₂ _ ((a.array.entries ++ rhs.entries).map BackedEntry.unload) _ ↔ _
    rw [List.forall₂_map_left_iff]
    simp only [load_unload_iff]
  rw [← forall₂_append_iff ha.entries_length, ← hentries]
  exact ⟨fun h => h.entries, fun h => ⟨merged_keys ha hb, h⟩⟩

/-- Both arrays store their chunks, before anything is moved. -/
theorem stored_of_backs {arr : BackedArray (Chunk T Plainfile C)} {chunks : List (List T)}
    (h : WellFormed (Backs codec before) arr chunks) :
    List.Forall₂ (Stored codec before) arr.entries chunks :=
  h.entries.imp fun _ _ he => he.2

/-- A stored chunk has a file. -/
theorem content_of_stored {es : List (Chunk T Plainfile C)} {chunks : List (List T)}
    (h : List.Forall₂ (Stored codec before) es chunks) {e : Chunk T Plainfile C} (he : e ∈ es) :
    before.content e.disk.path ≠ none := by
  induction h with
  | nil => cases he
  | cons hstored _ ih =>
      rcases List.mem_cons.mp he with rfl | he
      · obtain ⟨bytes, hbytes, -⟩ := hstored
        rw [hbytes]
        nofun
      · exact ih he

/-- The files of `a` have other names than the files that are moved in, so they stay. -/
theorem relocates_apart {es moved : List (Chunk T Plainfile C)} {directoryRoot : Path String}
    (hnames : (fileNames (es ++ moved)).Nodup)
    (hmoves : Relocates directoryRoot (moved.map fun e => e.disk.path) before after)
    {e : Chunk T Plainfile C} (he : e ∈ es) :
    after.content e.disk.path = before.content e.disk.path := by
  unfold fileNames at hnames
  rw [List.map_append, List.nodup_append] at hnames
  obtain ⟨-, -, hapart⟩ := hnames
  apply hmoves.others _
  intro p hp
  obtain ⟨e', he', rfl⟩ := List.mem_map.mp hp
  have hname : e.disk.path.fileName ∈ es.map fun e => e.disk.path.fileName := List.mem_map.mpr ⟨e, he, rfl⟩
  have hname' : e'.disk.path.fileName ∈ moved.map fun e => e.disk.path.fileName :=
    List.mem_map.mpr ⟨e', he', rfl⟩
  exact hapart _ hname _ hname'

/-- **What a joined array reloads.**  The files of `rhs` have been moved into the directory of `a`, and
then, where `hit` is set, a file that is not in that directory has been removed. -/
theorem joined_reloads_iff (ha : WellFormed (Backs codec before) a.array ca)
    (hb : WellFormed (Backs codec before) rhs cb)
    (hnames : (fileNames (a.array.entries ++ rhs.entries)).Nodup) {middle : FileTree String}
    (hmoves : Relocates a.directoryRoot (rhs.entries.map fun e => e.disk.path) before middle)
    {removed : Path String} {hit : Bool}
    (hremoved : hit = true → ∀ name, removed ≠ a.directoryRoot.join name)
    (hafter : ∀ q, after.content q = if q = removed ∧ hit = true then none else middle.content q) :
    Reloads codec after (merged a.array rhs) (ca ++ cb) ↔
      AllInPlace a.directoryRoot rhs ∧
        ∀ e ∈ a.array.entries, e.disk.path = removed → hit = false := by
  have hsa := stored_of_backs ha
  have hsb := stored_of_backs hb
  have hafterA : ∀ e ∈ a.array.entries, after.content e.disk.path =
      if e.disk.path = removed ∧ hit = true then none else before.content e.disk.path := by
    intro e he
    rw [hafter, relocates_apart hnames hmoves he]
  have hpathB : ∀ e ∈ rhs.entries, e.disk.path ∈ rhs.entries.map fun e => e.disk.path :=
    fun e he => List.mem_map.mpr ⟨e, he, rfl⟩
  have hkeptB : ∀ e ∈ rhs.entries, InPlace a.directoryRoot e.disk.path →
      after.content e.disk.path = before.content e.disk.path := by
    intro e he hin
    have hno : ¬(e.disk.path = removed ∧ hit = true) := by
      rintro ⟨hpath, hhit⟩
      unfold InPlace at hin
      obtain ⟨name, -, hjoin⟩ := Option.map_eq_some_iff.mp hin
      exact hremoved hhit name (hpath.symm.trans hjoin.symm)
    rw [hafter, if_neg hno]
    exact hmoves.kept (hpathB e he) hin
  have hgoneB : ∀ e ∈ rhs.entries, ¬InPlace a.directoryRoot e.disk.path →
      after.content e.disk.path = none := by
    intro e he hno
    rw [hafter]
    split
    · rfl
    · exact hmoves.gone _ (hpathB e he) hno
  rw [reloads_merged_iff ha hb, stored_iff_kept hsa ?_, stored_iff_kept hsb ?_, and_comm]
  · refine and_congr ⟨fun h e he => ?_, fun h e he => hkeptB e he (h e he)⟩
      (forall₂_congr fun e he => ?_)
    · refine Classical.byContradiction fun hno => content_of_stored hsb he ?_
      rw [← h e he, hgoneB e he hno]
    · rw [hafterA e he]
      constructor
      · intro h hpath
        refine Bool.eq_false_iff.mpr fun hhit => content_of_stored hsa he ?_
        rw [← h, if_pos ⟨hpath, hhit⟩]
      · intro h
        apply if_neg
        intro hc
        rw [h hc.1] at hc
        cases hc.2
  · intro e he
    by_cases hin : InPlace a.directoryRoot e.disk.path
    · exact Or.inl (hkeptB e he hin)
    · exact Or.inr (hgoneB e he hin)
  · intro e he
    rw [hafterA e he]
    split
    · exact Or.inr rfl
    · exact Or.inl rfl

/-- The merge at the end changes no file. -/
theorem merge_spec {D : Type} {a : DirectoryBackedArray T D C} {rhs : BackedArray (Chunk T D C)}
    (tree : FileTree String) :
    Meets (do
        let array ← .ofExec (a.array.merge rhs)
        pure { a with array } : FilesM (DirectoryBackedArray T D C)) tree
      (onSuccess fun r after => r = { a with array := merged a.array rhs } ∧ after = tree) := by
  rw [meets_bind]
  exact meets_ofExec (fun array h => ⟨by rw [merge_inv h], rfl⟩) fun _ _ => id

/-- What `append_dir` leaves, when it returns. -/
theorem appendDir_spec {b : DirectoryBackedArray T Plainfile C}
    (hroots : a.directoryRoot ≠ b.directoryRoot) (hnames : (fileNames b.array.entries).Nodup) :
    Meets (a.appendDir b) before
      (onSuccess fun r after => r.array = merged a.array b.array ∧ ∃ middle,
        Relocates a.directoryRoot (b.array.entries.map fun e => e.disk.path) before middle ∧
        ∀ q, after.content q =
          if q = b.directoryRoot.join metaFile ∧ (!middle.failsNext) = true then none
          else middle.content q) := by
  unfold DirectoryBackedArray.appendDir
  simp only [if_pos hroots]
  apply (moveChunks_relocates hnames).seq
  intro _ middle hmoves
  rw [meets_bind, meets_attempt_ofCall]
  show Meets (_ >>= _) _ _
  rw [meets_bind, meets_attempt_ofCall]
  refine (merge_spec _).imp (fun r after h => ⟨by rw [h.1], middle, hmoves, fun q => ?_⟩) fun _ h => h
  rw [h.2, FileTree.removeDir_content, FileTree.removeFile_content]
  simp only [Bool.not_eq_true']

/-- What `append_array` leaves, when it returns. -/
theorem appendArray_spec (hnames : (fileNames rhs.entries).Nodup) :
    Meets (a.appendArray rhs) before
      (onSuccess fun r after => r.array = merged a.array rhs ∧
        Relocates a.directoryRoot (rhs.entries.map fun e => e.disk.path) before after) := by
  unfold DirectoryBackedArray.appendArray
  apply (moveChunks_relocates hnames).seq
  intro _ middle hmoves
  exact (merge_spec middle).imp (fun r after h => ⟨by rw [h.1], h.2 ▸ hmoves⟩) fun _ h => h

/-- What `a_append_dir` leaves, when it returns. -/
theorem aAppendDir_spec {b : DirectoryBackedArray T Plainfile C}
    (hroots : a.directoryRoot ≠ b.directoryRoot) (hnames : (fileNames b.array.entries).Nodup) :
    Meets (a.aAppendDir b) before
      (onSuccess fun r after => r.array = merged a.array b.array ∧ ∃ middle,
        Relocates a.directoryRoot (b.array.entries.map fun e => e.disk.path) before middle ∧
        ∀ q, after.content q = middle.content q) := by
  unfold DirectoryBackedArray.aAppendDir
  simp only [if_pos hroots]
  apply (moveChunks_relocates hnames).seq
  intro _ middle hmoves
  rw [meets_bind, meets_attempt_ofCall]
  refine (merge_spec _).imp (fun r after h => ⟨by rw [h.1], middle, hmoves, fun q => ?_⟩) fun _ h => h
  rw [h.2, FileTree.removeDir_content]

end Joining

/-- **When joined arrays reload.**  `a` and `b` store their chunks in files of different names.  If
`append_dir`, `append_array` or `a_append_dir` returns, then after `clear_memory` every entry of the
result loads its chunk from the path it records exactly when every chunk of `b` was recorded at its
target in the directory of `a` before the call; for `append_dir`, moreover, no chunk of `a` may be the
meta file of the other directory, unless removing that file fails. -/
theorem append_exact {T C : Type} (codec : Codec (List T) C)
    (a b : DirectoryBackedArray T Plainfile C) (ca cb : List (List T)) (before : FileTree String)
    (ha : WellFormed (Backs codec before) a.array ca)
    (hb : WellFormed (Backs codec before) b.array cb)
    (hnames : (fileNames (a.array.entries ++ b.array.entries)).Nodup)
    (hroots : a.directoryRoot ≠ b.directoryRoot) :
    (∀ r after, a.appendDir b before = .ok (.ok r, after) →
        (Reloads codec after r.array (ca ++ cb) ↔
          AllInPlace a.directoryRoot b.array ∧ ∀ e ∈ a.array.entries,
            e.disk.path = b.directoryRoot.join metaFile → before.failsNext = true)) ∧
      (∀ r after, a.appendArray b.array before = .ok (.ok r, after) →
        (Reloads codec after r.array (ca ++ cb) ↔ AllInPlace a.directoryRoot b.array)) ∧
      (∀ r after, a.aAppendDir b before = .ok (.ok r, after) →
        (Reloads codec after r.array (ca ++ cb) ↔ AllInPlace a.directoryRoot b.array)) := by
  have hnamesB : (fileNames b.array.entries).Nodup := by
    unfold fileNames at hnames ⊢
    rw [List.map_append] at hnames
    exact (List.nodup_append.mp hnames).2.1
  -- where nothing is removed, only the moves count
  have hmoved : ∀ middle after, Relocates a.directoryRoot
      (b.array.entries.map fun e => e.disk.path) before middle →
      (∀ q, after.content q = middle.content q) →
      (Reloads codec after (merged a.array b.array) (ca ++ cb) ↔
        AllInPlace a.directoryRoot b.array) := by
    intro middle after hmoves hafter
    have hnone : ∀ q, after.content q =
        if q = ([] : Path String) ∧ false = true then none else middle.content q := by
      intro q
      rw [hafter q, if_neg (by simp)]
    rw [joined_reloads_iff ha hb hnames hmoves (by nofun) hnone]
    exact and_iff_left fun _ _ _ => rfl
  refine ⟨fun r after hrun => ?_, fun r after hrun => ?_, fun r after hrun => ?_⟩
  · obtain ⟨hr, middle, hmoves, hafter⟩ := (appendDir_spec hroots hnamesB).ok hrun
    have hremoved : ∀ name, b.directoryRoot.join metaFile ≠ a.directoryRoot.join name :=
      fun name h => hroots (Path.join_inj h).1.symm
    rw [hr, joined_reloads_iff ha hb hnames hmoves (fun _ => hremoved) hafter]
    apply and_congr_right
    intro hall
    -- no call was made by the moves, so the removal is the next one
    have hidle : middle = before := hmoves.idle fun p hp => by
      obtain ⟨e, he, rfl⟩ := List.mem_map.mp hp
      exact hall e he
    rw [hidle]
    simp only [Bool.not_eq_false']
  · obtain ⟨hr, hmoves⟩ := (appendArray_spec hnamesB).ok hrun
    rw [hr]
    exact hmoved after after hmoves fun _ => rfl
  · obtain ⟨hr, middle, hmoves, hafter⟩ := (aAppendDir_spec hroots hnamesB).ok hrun
    rw [hr]
    exact hmoved middle after hmoves hafter

/-! ### Two directories -/

/-- The format that writes bytes as they are. -/
def rawBytes : Codec (List UInt8) Unit where
  encode _ v := v
  decode _ bytes := some bytes

/-- An array of one chunk, the file of that name in the directory `dir`, with the root `root`. -/
def oneChunk (root dir name : String) (bytes : List UInt8) :
    DirectoryBackedArray UInt8 Plainfile Unit where
  array :=
    { keyStarts := [0], keyEnds := [bytes.length]
      entries := [.new ⟨Path.join [.rootDir, .normal dir] name⟩ ()] }
  directoryRoot := [.rootDir, .normal root]

/-- Two directories with a file each. -/
def twoDirectories : FileTree String where
  files := ((∅ : AList fun _ : Path String => List UInt8).insert
    (Path.join [.rootDir, .normal "a"] "y") [1, 2]).insert
    (Path.join [.rootDir, .normal "b"] "x") [3]
  dirs := [[.rootDir], [.rootDir, .normal "a"], [.rootDir, .normal "b"]]
  faults := []

theorem oneChunk_backs {root dir name : String} {bytes : List UInt8} {tree : FileTree String}
    (h : tree.content (Path.join [.rootDir, .normal dir] name) = some bytes) :
    WellFormed (Backs rawBytes tree) (oneChunk root dir name bytes).array [bytes] where
  keys := Logic.Ranges.consecutive_iff.mpr ⟨rfl, by simp [oneChunk, Logic.Ranges.endsFrom]⟩
  entries := .cons ⟨Or.inl rfl, bytes, h, rfl⟩ .nil

/-- `append_dir` moves the chunk of the other directory and returns; the entry still records the old
path, where there is no file any more. -/
theorem twoDirectories_stale :
    WellFormed (Backs rawBytes twoDirectories) (oneChunk "a" "a" "y" [1, 2]).array [[1, 2]] ∧
      WellFormed (Backs rawBytes twoDirectories) (oneChunk "b" "b" "x" [3]).array [[3]] ∧
      (fileNames ((oneChunk "a" "a" "y" [1, 2]).array.entries ++
        (oneChunk "b" "b" "x" [3]).array.entries)).Nodup ∧
      ∃ r after, (oneChunk "a" "a" "y" [1, 2]).appendDir (oneChunk "b" "b" "x" [3]) twoDirectories =
          .ok (.ok r, after) ∧
        (r.array.clearMemory.entries.map fun e => (e.load (plainfile rawBytes) after.calm).1) =
          [.ok [1, 2], .error (.file .notFound)] := by
  refine ⟨oneChunk_backs rfl, oneChunk_backs rfl, by decide, _, _, rfl, by decide⟩

/-- Two files in one directory. -/
def sharedDirectory : FileTree String where
  files := ((∅ : AList fun _ : Path String => List UInt8).insert
    (Path.join [.rootDir, .normal "a"] "y") [1, 2]).insert
    (Path.join [.rootDir, .normal "a"] "x") [3]
  dirs := [[.rootDir], [.rootDir, .normal "a"], [.rootDir, .normal "b"]]
  faults := []

/-- The chunk of the other array is in the directory already. -/
theorem append_exact_shared :
    ∃ r after, (oneChunk "a" "a" "y" [1, 2]).appendDir (oneChunk "b" "a" "x" [3]) sharedDirectory =
        .ok (.ok r, after) ∧
      Reloads rawBytes after r.array [[1, 2], [3]] := by
  have hexact := append_exact rawBytes (oneChunk "a" "a" "y" [1, 2]) (oneChunk "b" "a" "x" [3])
    [[1, 2]] [[3]] sharedDirectory (oneChunk_backs rfl) (oneChunk_backs rfl) (by decide) (by decide)
  exact ⟨_, _, rfl, (hexact.1 _ _ rfl).mpr (by decide)⟩

end BackedData.Directory
