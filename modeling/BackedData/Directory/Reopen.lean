/-
# BackedData.Directory.Reopen — a directory that is saved, left and loaded again

`save` writes the tables of an array to `meta.dat`; `append` and `remove` change the tables in memory, and
`remove` the files below them at once.  So what is on the disk when a program ends, or forgets its array, is
the index of the last `save` and the files as the last `remove` has left them.  `Ledger` says so without any
files: an index is a list of chunks with the draws that name their files, there is the one in memory and the
one that was saved, and `gone` lists the draws whose files have been removed.  A run of the operations over
the files, with calls failing anywhere, is a run of the ledger: `load` gives the index of the last save,
whatever has happened since; a chunk of it that was removed in the meantime is still counted, can no longer
be read or removed, and stops every `delete`.  A `save` that fails has left the old index, a beginning of the
new one that cannot be read, or the new one: when the flush of its `BufWriter` has failed, the drop writes
the buffer once more.
-/
import BackedData.Directory.SaveLoad
import BackedData.Directory.Shared

namespace BackedData.Directory

open Logic.Files
open Logic.Outcome
open Logic.Simulation
open Logic.Stateful
open Logic.Trace
open BackedData.Entry
open BackedData.Array

set_option autoImplicit false

variable {T C K : Type}

/-! ## The life of a directory -/

/-- **`Life T C`** — a directory over the programs that use it: the array in memory, if there is one, and the
surroundings. -/
structure Life (T C : Type) where
  dir : Option (DirectoryBackedArray T Plainfile C)
  world : World
  drawn : Nat

/-- The operations; `crash` is the end of a program, or of the variable. -/
inductive LifeOp (T : Type) where
  | new
  | change (op : DirOp T)
  | chunk (entryIdx : Nat)
  | save
  | load
  | crash
  | delete
  deriving DecidableEq, Repr

/-- The errors of the operations. -/
inductive LifeError where
  | chunk (e : PlainError)
  | file (e : FileError)
  | write (e : DiskWriteErr)
  | read (e : DiskReadErr)
  deriving DecidableEq, Repr

/-- What an operation answers. -/
inductive LifeReply (T : Type) where
  | done
  | chunk (values : Option (List T))
  | failed (e : LifeError)
  deriving DecidableEq, Repr

/-- The files after a call that is on the file tree alone. -/
def World.withTree (w : World) (tree : FileTree String) : World := { w with tree }

/-- **The operations** on the array of the directory `root`; `pieces` are those in which the encoder of the
format hands over its bytes.  An operation that needs an array is not taken without one, nor is one that
panics; `load` replaces the array if it succeeds, `delete` consumes it. -/
def lifeNext [Inhabited C] (codec : Codec (List T) C) (format : Codec (Saved C) K) (coder : K)
    (pieces : List UInt8 → List (List UInt8)) (uuids : Nat → String) (root : Path String) (s : Life T C) :
    LifeOp T → Option (LifeReply T × Life T C)
  | .new =>
      match DirectoryBackedArray.new root s.world.tree with
      | (.error e, tree) => some (.failed (.file e), { s with world := s.world.withTree tree })
      | (.ok dir, tree) => some (.done, { s with dir := some dir, world := s.world.withTree tree })
  | .change op => do
      let dir ← s.dir
      match ← dirNext codec uuids { dir, tree := s.world.tree, drawn := s.drawn } op with
      | (.error e, st) =>
          pure (.failed (.chunk e), { dir := some st.dir, world := s.world.withTree st.tree, drawn := st.drawn })
      | (.ok (), st) =>
          pure (.done, { dir := some st.dir, world := s.world.withTree st.tree, drawn := st.drawn })
  | .chunk entryIdx => do
      let dir ← s.dir
      match dir.array.chunkNext (plainfile codec) entryIdx s.world.tree with
      | (none, array, tree) =>
          pure (.chunk none, { s with dir := some { dir with array }, world := s.world.withTree tree })
      | (some (.ok values), array, tree) =>
          pure (.chunk (some values), { s with dir := some { dir with array }, world := s.world.withTree tree })
      | (some (.error e), array, tree) =>
          pure (.failed (.chunk e), { s with dir := some { dir with array }, world := s.world.withTree tree })
  | .save => do
      let dir ← s.dir
      match ← (dir.save (bufferedDisk pieces) format coder s.world).toOption with
      | (.error e, world) => pure (.failed (.write e), { s with world })
      | (.ok (), world) => pure (.done, { s with world })
  | .load => do
      match ← (DirectoryBackedArray.load (bufferedDisk pieces) format coder root s.world).toOption with
      | (.error e, world) => pure (.failed (.read e), { s with world })
      | (.ok dir, world) => pure (.done, { s with dir := some dir, world })
  | .crash => some (.done, { s with dir := none })
  | .delete => do
      let dir ← s.dir
      match ← (dir.delete (dir.array.entries.length + 1) s.world.tree).toOption with
      | (.error e, tree) => pure (.failed (.file e), { s with dir := none, world := s.world.withTree tree })
      | (.ok none, _) => none
      | (.ok (some ()), tree) => pure (.done, { s with dir := none, world := s.world.withTree tree })

/-! ## The ledger -/

/-- Chunks, each with the draw that names its file. -/
abbrev Index (T : Type) : Type := List (Nat × List T)

/-- **`Ledger T`** — the index in memory, the one that was saved (`none` also where what was saved cannot be
read), the draws whose files have been removed, and the next draw. -/
structure Ledger (T : Type) where
  live : Option (Index T)
  saved : Option (Index T)
  gone : List Nat
  next : Nat
  deriving DecidableEq, Repr

/-- The errors of the file system itself, wherever they come up. -/
def LifeError.OfSystem (e : LifeError) : Prop :=
  e = .chunk (.file .failed) ∨ e = .file .failed ∨ e = .read (.ioErr (.file .failed)) ∨
    e = .read (.diskErr (.file .failed))

/-- **`LedgerStep`** — what the operations come to. -/
inductive LedgerStep : Ledger T → LifeOp T × LifeReply T → Ledger T → Prop where
  | new {L : Ledger T} : LedgerStep L (.new, .done) { L with live := some [] }
  | newFailed {L : Ledger T} {e : LifeError} : LedgerStep L (.new, .failed e) L
  | append {L : Ledger T} {index : Index T} {op : DirOp T} {values : List T} (hlive : L.live = some index)
      (hop : op = .append values ∨ op = .appendMemory values) :
      LedgerStep L (.change op, .done)
        { L with live := some (index ++ [(L.next, values)]), next := L.next + 1 }
  | appendFailed {L : Ledger T} {index : Index T} {op : DirOp T} {values : List T} {e : LifeError}
      (hlive : L.live = some index) (hop : op = .append values ∨ op = .appendMemory values) :
      LedgerStep L (.change op, .failed e) { L with next := L.next + 1 }
  | remove {L : Ledger T} {index : Index T} {entryIdx k : Nat} {chunk : List T} (hlive : L.live = some index)
      (hentry : index[entryIdx]? = some (k, chunk)) (hthere : k ∉ L.gone) :
      LedgerStep L (.change (.remove entryIdx), .done)
        { L with live := some (index.eraseIdx entryIdx), gone := k :: L.gone }
  | removeNothing {L : Ledger T} {index : Index T} {entryIdx : Nat} (hlive : L.live = some index)
      (hentry : index[entryIdx]? = none) : LedgerStep L (.change (.remove entryIdx), .done) L
  | removeFailed {L : Ledger T} {index : Index T} {entryIdx k : Nat} {chunk : List T} {e : LifeError}
      (hlive : L.live = some index) (hentry : index[entryIdx]? = some (k, chunk))
      (hwhy : e.OfSystem ∨ k ∈ L.gone) : LedgerStep L (.change (.remove entryIdx), .failed e) L
  | chunk {L : Ledger T} {index : Index T} {entryIdx k : Nat} {chunk : List T} (hlive : L.live = some index)
      (hentry : index[entryIdx]? = some (k, chunk)) (hthere : k ∉ L.gone) :
      LedgerStep L (.chunk entryIdx, .chunk (some chunk)) L
  | chunkNone {L : Ledger T} {index : Index T} {entryIdx : Nat} (hlive : L.live = some index)
      (hentry : index[entryIdx]? = none) : LedgerStep L (.chunk entryIdx, .chunk none) L
  | chunkFailed {L : Ledger T} {index : Index T} {entryIdx k : Nat} {chunk : List T} {e : LifeError}
      (hlive : L.live = some index) (hentry : index[entryIdx]? = some (k, chunk))
      (hwhy : e.OfSystem ∨ k ∈ L.gone) : LedgerStep L (.chunk entryIdx, .failed e) L
  | save {L : Ledger T} {index : Index T} (hlive : L.live = some index) :
      LedgerStep L (.save, .done) { L with saved := some index }
  | saveFailed {L : Ledger T} {index : Index T} {saved : Option (Index T)} {e : LifeError}
      (hlive : L.live = some index) (hsaved : saved = L.saved ∨ saved = none ∨ saved = some index) :
      LedgerStep L (.save, .failed e) { L with saved }
  | load {L : Ledger T} {index : Index T} (hsaved : L.saved = some index) :
      LedgerStep L (.load, .done) { L with live := some index }
  | loadFailed {L : Ledger T} {e : LifeError} (hwhy : e.OfSystem ∨ L.saved = none) :
      LedgerStep L (.load, .failed e) L
  | crash {L : Ledger T} : LedgerStep L (.crash, .done) { L with live := none }
  | delete {L : Ledger T} {index : Index T} (hlive : L.live = some index)
      (hthere : ∀ x ∈ index, x.1 ∉ L.gone) :
      LedgerStep L (.delete, .done) { L with live := none, gone := index.map Prod.fst ++ L.gone }
  | deleteFailed {L : Ledger T} {done rest : Index T} {x : Nat × List T} {e : LifeError}
      (hlive : L.live = some (done ++ x :: rest)) (hthere : ∀ y ∈ done, y.1 ∉ L.gone)
      (hwhy : e.OfSystem ∨ x.1 ∈ L.gone) :
      LedgerStep L (.delete, .failed e) { L with live := none, gone := done.map Prod.fst ++ L.gone }

/-! ## An index and its files -/

section Files

variable {codec : Codec (List T) C} {uuids : Nat → String} {root : Path String} {gone ks ls : List Nat}
  {next : Nat} {index : Index T} {tree before middle after : FileTree String}
  {dir : DirectoryBackedArray T Plainfile C}

/-- **`Emptied uuids root ks before after`** — the files that these draws name are gone, and no other one has
changed. -/
structure Emptied (uuids : Nat → String) (root : Path String) (ks : List Nat) (before after : FileTree String) :
    Prop where
  gone : ∀ k ∈ ks, after.content (root.join (uuids k)) = none
  others : ∀ q, (∀ k ∈ ks, q ≠ root.join (uuids k)) → after.content q = before.content q

theorem Emptied.refl (tree : FileTree String) : Emptied uuids root [] tree tree := ⟨nofun, fun _ _ => rfl⟩

theorem Emptied.of_same (h : ∀ q, after.content q = before.content q) : Emptied uuids root [] before after :=
  ⟨nofun, fun q _ => h q⟩

theorem Emptied.trans (h : Emptied uuids root ks before middle) (h' : Emptied uuids root ls middle after) :
    Emptied uuids root (ks ++ ls) before after := by
  refine ⟨fun k hk => ?_, fun q hq => ?_⟩
  · by_cases hlater : ∃ l ∈ ls, root.join (uuids k) = root.join (uuids l)
    · obtain ⟨l, hl, hpath⟩ := hlater
      rw [hpath]
      exact h'.gone l hl
    · have hkept := h'.others (root.join (uuids k)) fun l hl hpath => hlater ⟨l, hl, hpath⟩
      rcases List.mem_append.mp hk with hk | hk
      · rw [hkept]
        exact h.gone k hk
      · exact h'.gone k hk
  · rw [h'.others q fun l hl => hq l (List.mem_append_right ks hl)]
    exact h.others q fun k hk => hq k (List.mem_append_left ls hk)

theorem Emptied.kept (h : Emptied uuids root ks before middle)
    (hsame : ∀ q, after.content q = middle.content q) : Emptied uuids root ks before after :=
  ⟨fun k hk => (hsame _).trans (h.gone k hk), fun q hq => (hsame q).trans (h.others q hq)⟩

/-- `meta.dat` is no chunk's file. -/
theorem Emptied.metaFile (h : Emptied uuids root ks before after) (hmeta : ∀ k, uuids k ≠ metaFile) :
    after.content (root.join metaFile) = before.content (root.join metaFile) :=
  h.others _ fun k _ hpath => hmeta k (Path.join_inj hpath).2.symm

variable [Inhabited C]

/-- **`Sound`** — the files of an index: those that are not gone decode to their chunks, the others are
missing. -/
structure Sound (codec : Codec (List T) C) (uuids : Nat → String) (root : Path String) (gone : List Nat)
    (next : Nat) (tree : FileTree String) (index : Index T) : Prop where
  nodup : (index.map Prod.fst).Nodup
  made : ∀ x ∈ index, x.1 < next
  there : ∀ x ∈ index, x.1 ∉ gone → ∃ bytes, tree.content (root.join (uuids x.1)) = some bytes ∧
    codec.decode default bytes = some x.2
  missing : ∀ x ∈ index, x.1 ∈ gone → tree.content (root.join (uuids x.1)) = none

/-- Only the files of the index count. -/
theorem Sound.frame (h : Sound codec uuids root gone next before index) {next' : Nat} (hle : next ≤ next')
    (hsame : ∀ x ∈ index, after.content (root.join (uuids x.1)) = before.content (root.join (uuids x.1))) :
    Sound codec uuids root gone next' after index := by
  refine ⟨h.nodup, fun x hx => Nat.lt_of_lt_of_le (h.made x hx) hle, fun x hx hthere => ?_,
    fun x hx hgone => ?_⟩
  · rw [hsame x hx]
    exact h.there x hx hthere
  · rw [hsame x hx]
    exact h.missing x hx hgone

theorem Sound.emptied (h : Sound codec uuids root gone next before index) (huuids : Function.Injective uuids)
    (hempty : Emptied uuids root ks before after) : Sound codec uuids root (ks ++ gone) next after index := by
  have hother : ∀ x : Nat × List T, x.1 ∉ ks →
      after.content (root.join (uuids x.1)) = before.content (root.join (uuids x.1)) := by
    intro x hx
    apply hempty.others
    intro k hk hpath
    exact hx (huuids (Path.join_inj hpath).2 ▸ hk)
  refine ⟨h.nodup, h.made, fun x hx hthere => ?_, fun x hx hgone => ?_⟩
  · obtain ⟨hks, hgone⟩ := not_or.mp fun hor => hthere (List.mem_append.mpr hor)
    rw [hother x hks]
    exact h.there x hx hgone
  · by_cases hks : x.1 ∈ ks
    · exact hempty.gone x.1 hks
    · rw [hother x hks]
      exact h.missing x hx ((List.mem_append.mp hgone).resolve_left hks)

theorem Sound.sub (h : Sound codec uuids root gone next tree index) {part : Index T}
    (hsub : part.Sublist index) : Sound codec uuids root gone next tree part :=
  ⟨h.nodup.sublist (hsub.map Prod.fst), fun x hx => h.made x (hsub.subset hx),
    fun x hx => h.there x (hsub.subset hx), fun x hx => h.missing x (hsub.subset hx)⟩

/-- The entry of a chunk: its path, and nothing in memory when its file is gone. -/
def EntryOf (uuids : Nat → String) (root : Path String) (gone : List Nat) (e : Chunk T Plainfile C)
    (x : Nat × List T) : Prop :=
  recorded e = root.join (uuids x.1) ∧ e.coder = default ∧
    (e.value = none ∨ e.value = some x.2 ∧ x.1 ∉ gone)

/-- **`Indexes uuids root gone index dir`** — the array has this index. -/
structure Indexes (uuids : Nat → String) (root : Path String) (gone : List Nat) (index : Index T)
    (dir : DirectoryBackedArray T Plainfile C) : Prop where
  rooted : dir.directoryRoot = root
  wellFormed : WellFormed (fun _ _ => True) dir.array (index.map Prod.snd)
  entries : List.Forall₂ (EntryOf uuids root gone) dir.array.entries index

/-- Entry and chunk at one place. -/
theorem Indexes.entry (h : Indexes uuids root gone index dir) (i : Nat) :
    (index[i]? = none ∧ dir.array.entries[i]? = none) ∨
      ∃ x e, index[i]? = some x ∧ dir.array.entries[i]? = some e ∧ EntryOf uuids root gone e x := by
  have hlen := h.entries.length_eq
  rcases hx : index[i]? with _ | x
  · refine Or.inl ⟨rfl, ?_⟩
    rw [List.getElem?_eq_none_iff] at hx ⊢
    omega
  · obtain ⟨hlt, rfl⟩ := List.getElem?_eq_some_iff.mp hx
    have hlt' : i < dir.array.entries.length := by omega
    refine Or.inr ⟨_, dir.array.entries[i], rfl, List.getElem?_eq_getElem hlt', ?_⟩
    simpa using (List.forall₂_iff_get.mp h.entries).2 i hlt' hlt

/-- Files that the array has nothing to do with are removed. -/
theorem Indexes.removed (h : Indexes uuids root gone index dir) (hks : ∀ x ∈ index, x.1 ∉ ks) :
    Indexes uuids root (ks ++ gone) index dir := by
  refine ⟨h.rooted, h.wellFormed, ?_⟩
  obtain ⟨hlen, hall⟩ := List.forall₂_iff_get.mp h.entries
  refine List.forall₂_iff_get.mpr ⟨hlen, fun i hi hi' => ?_⟩
  obtain ⟨hpath, hcoder, hvalue⟩ := hall i hi hi'
  refine ⟨hpath, hcoder, hvalue.imp_right fun hv => ⟨hv.1, fun hmem => ?_⟩⟩
  rcases List.mem_append.mp hmem with hmem | hmem
  · exact hks _ (List.getElem_mem hi') hmem
  · exact hv.2 hmem

/-! ### Removing -/

/-- **A removal**: the file has been there, or the removal failed for a reason. -/
theorem remove_indexes (h : Indexes uuids root gone index dir)
    (hsound : Sound codec uuids root gone next tree index) (i : Nat) :
    Meets (dir.remove i) tree
      { ok := fun dir' t => Indexes uuids root ((index[i]?.map Prod.fst).toList ++ gone) (index.eraseIdx i) dir' ∧
          (∀ x, index[i]? = some x → x.1 ∉ gone) ∧
          Emptied uuids root (index[i]?.map Prod.fst).toList tree t
        error := fun e t => (∃ x, index[i]? = some x ∧ (e = .failed ∨ x.1 ∈ gone)) ∧
          ∀ q, t.content q = tree.content q
        panic := fun _ => True } := by
  have hleft : ∀ array, dir.array.remove i = .ok array →
      Indexes uuids root gone (index.eraseIdx i) { dir with array } := by
    intro array harray
    obtain ⟨array', harray', hwf⟩ := remove_wellFormed h.wellFormed i
    obtain rfl : array = array' := Except.ok.inj (harray.symm.trans harray')
    refine ⟨h.rooted, ?_, ?_⟩
    · rwa [← List.eraseIdx_map]
    · rw [remove_entries h.wellFormed harray]
      exact forall₂_eraseIdx h.entries i
  unfold DirectoryBackedArray.remove
  rcases h.entry i with ⟨hx, he⟩ | ⟨x, e, hx, he, hpath, -, -⟩
  · simp only [hx, he, meets_bind, meets_pure]
    refine meets_ofExec (fun array harray => ⟨hleft array harray, fun x hnone => ?_, .refl tree⟩)
      fun _ _ => trivial
    cases hnone
  · have hmem : x ∈ index := List.mem_of_getElem? hx
    simp only [hx, he, meets_bind, meets_ofCall]
    change recorded e = _ at hpath
    refine ⟨fun _ t hremove => ?_, fun err t hremove => ⟨⟨x, rfl, ?_⟩, FileTree.removeFile_error hremove⟩⟩
    · change tree.removeFile (recorded e) = _ at hremove
      rw [hpath] at hremove
      have hthere : x.1 ∉ gone := fun hgone => FileTree.removeFile_there hremove (hsound.missing x hmem hgone)
      obtain ⟨hnone, hothers⟩ := FileTree.removeFile_ok hremove
      refine meets_ofExec (fun array harray => ⟨?_, ?_, ?_, ?_⟩) fun _ _ => trivial
      · apply (hleft array harray).removed
        intro y hy hlast
        exact ne_of_mem_eraseIdx hsound.nodup hy hx (List.mem_singleton.mp hlast)
      · rintro y ⟨⟩
        exact hthere
      · intro k hk
        rw [List.mem_singleton.mp hk]
        exact hnone
      · exact fun q hq => hothers q (hq x.1 (List.mem_singleton.mpr rfl))
    · by_cases hgone : x.1 ∈ gone
      · exact Or.inr hgone
      · obtain ⟨bytes, hbytes, -⟩ := hsound.there x hmem hgone
        rw [← hpath] at hbytes
        exact Or.inl (FileTree.removeFile_present hbytes hremove)

/-- **The loop of `delete`** gets as far as the first entry whose file is gone. -/
theorem removeAll_indexes (rounds : Nat) {gone : List Nat} {index : Index T}
    {dir : DirectoryBackedArray T Plainfile C} {tree : FileTree String}
    (h : Indexes uuids root gone index dir) (hsound : Sound codec uuids root gone next tree index)
    (huuids : Function.Injective uuids) (hrounds : index.length < rounds) :
    Meets (DirectoryBackedArray.removeAll DirectoryBackedArray.remove rounds dir) tree
      { ok := fun r t => r ≠ none ∧ (∀ x ∈ index, x.1 ∉ gone) ∧ Emptied uuids root (index.map Prod.fst) tree t
        error := fun e t => ∃ done x rest, index = done ++ x :: rest ∧ (∀ y ∈ done, y.1 ∉ gone) ∧
          (e = .failed ∨ x.1 ∈ gone) ∧ Emptied uuids root (done.map Prod.fst) tree t
        panic := fun _ => True } := by
  -- a round leaves the rest of the index, and one more file gone
  induction rounds generalizing gone index dir tree with
  | zero => omega
  | succ rounds ih =>
      have hlen := h.entries.length_eq
      unfold DirectoryBackedArray.removeAll
      cases index with
      | nil =>
          have hempty : dir.array.isEmpty = true :=
            List.isEmpty_iff.mpr (List.eq_nil_of_length_eq_zero hlen)
          rw [if_pos hempty, meets_pure]
          exact ⟨Option.some_ne_none _, fun _ hx => absurd hx List.not_mem_nil, .refl tree⟩
      | cons x xs =>
          have hmore : ¬dir.array.isEmpty = true := by
            intro hempty
            have hnil : dir.array.entries = [] := List.isEmpty_iff.mp hempty
            rw [hnil] at hlen
            cases hlen
          rw [if_neg hmore, meets_bind]
          have hapart : ∀ y ∈ xs, y.1 ≠ x.1 := by
            intro y hy heq
            exact (List.nodup_cons.mp hsound.nodup).1 (heq ▸ List.mem_map_of_mem hy)
          refine (remove_indexes h hsound 0).mono (fun dir' t hok => ?_) (fun e t herr => ?_) fun _ hp => hp
          · obtain ⟨hindexes, hthere, hempty⟩ := hok
            have hx : x.1 ∉ gone := hthere x rfl
            have hrest : Sound codec uuids root (x.1 :: gone) next t xs :=
              (hsound.emptied huuids hempty).sub (List.sublist_cons_self x xs)
            have hfewer : xs.length < rounds := Nat.lt_of_succ_lt_succ hrounds
            have hfree : ∀ y ∈ xs, y.1 ∉ x.1 :: gone → y.1 ∉ gone := fun y _ hno hmem =>
              hno (List.mem_cons_of_mem _ hmem)
            refine (ih hindexes hrest hfewer).mono (fun r u hr => ?_) (fun e u he => ?_) fun _ hp => hp
            · obtain ⟨hr, hall, hlater⟩ := hr
              refine ⟨hr, fun y hy => ?_, hempty.trans hlater⟩
              rcases List.mem_cons.mp hy with rfl | hy
              · exact hx
              · exact hfree y hy (hall y hy)
            · obtain ⟨done, z, rest, rfl, hall, hwhy, hlater⟩ := he
              refine ⟨x :: done, z, rest, rfl, fun y hy => ?_, hwhy.imp_right fun hz => ?_, hempty.trans hlater⟩
              · rcases List.mem_cons.mp hy with rfl | hy
                · exact hx
                · exact hfree y (List.mem_append_left _ hy) (hall y hy)
              · have hne := hapart z (List.mem_append_right done List.mem_cons_self)
                exact (List.mem_cons.mp hz).resolve_left hne
          · obtain ⟨⟨y, hy, hwhy⟩, hsame⟩ := herr
            obtain rfl : x = y := Option.some.inj hy
            exact ⟨[], x, xs, rfl, fun _ hz => absurd hz List.not_mem_nil, hwhy, .of_same hsame⟩

/-- **`delete`.** -/
theorem delete_indexes (h : Indexes uuids root gone index dir)
    (hsound : Sound codec uuids root gone next tree index) (huuids : Function.Injective uuids) :
    Meets (dir.delete (dir.array.entries.length + 1)) tree
      { ok := fun r t => r ≠ none ∧ (∀ x ∈ index, x.1 ∉ gone) ∧ Emptied uuids root (index.map Prod.fst) tree t
        error := fun e t => ∃ done x rest, index = done ++ x :: rest ∧ (∀ y ∈ done, y.1 ∉ gone) ∧
          (e = .failed ∨ x.1 ∈ gone) ∧ Emptied uuids root (done.map Prod.fst) tree t
        panic := fun _ => True } := by
  unfold DirectoryBackedArray.delete
  rw [meets_bind]
  have henough : index.length < dir.array.entries.length + 1 := by
    rw [h.entries.length_eq]
    exact Nat.lt_succ_self _
  refine (removeAll_indexes _ h hsound huuids henough).mono (fun r t hr => ?_) (fun _ _ he => he) fun _ hp => hp
  obtain ⟨hsome, hall, hempty⟩ := hr
  rcases r with _ | left
  · exact absurd rfl hsome
  · simp only [meets_bind, meets_attempt_ofCall, meets_pure]
    exact ⟨Option.some_ne_none _, hall, hempty.kept fun q => FileTree.removeDir_content _ q t⟩

/-! ### Reading -/

omit [Inhabited C] in
/-- What is not in memory and has no file cannot be loaded. -/
theorem load_missing {e e' : Chunk T Plainfile C} {r : Except PlainError (List T)} (hvalue : e.value = none)
    (hc : before.content (recorded e) = none) (hload : e.load (plainfile codec) before = (r, e', after)) :
    (∃ err, r = .error err) ∧ e' = e ∧ ∀ q, after.content q = before.content q := by
  obtain ⟨value, disk, coder⟩ := e
  cases hvalue
  unfold BackedEntry.load BackedEntry.decodeFromDisk plainfile at hload
  have hsame := fun q => FileTree.openRead_content disk.path q before
  rcases hopen : before.openRead disk.path with ⟨err | _, t⟩
  · simp only [hopen] at hload hsame
    cases hload
    exact ⟨⟨_, rfl⟩, rfl, hsame⟩
  · obtain ⟨bytes, hbytes⟩ := FileTree.openRead_ok hopen
    rw [show before.content disk.path = none from hc] at hbytes
    cases hbytes

/-- **A step of the chunk iterator** gives the chunk, or fails for a reason. -/
theorem Indexes.chunkNext (h : Indexes uuids root gone index dir)
    (hsound : Sound codec uuids root gone next tree index) {i : Nat}
    {r : Option (Except PlainError (List T))} {array : BackedArray (Chunk T Plainfile C)}
    (hnext : dir.array.chunkNext (plainfile codec) i tree = (r, array, after)) :
    Indexes uuids root gone index { dir with array } ∧ (∀ q, after.content q = tree.content q) ∧
      ((r = none ∧ index[i]? = none) ∨ ∃ x, index[i]? = some x ∧
        (r = some (.ok x.2) ∧ x.1 ∉ gone ∨
          ∃ e, r = some (.error e) ∧ (e = .file .failed ∨ x.1 ∈ gone))) := by
  unfold BackedArray.chunkNext at hnext
  rcases h.entry i with ⟨hx, he⟩ | ⟨x, e, hx, he, hpath, hcoder, hvalue⟩
  · rw [he] at hnext
    cases hnext
    exact ⟨h, fun _ => rfl, Or.inl ⟨rfl, hx⟩⟩
  · have hmem : x ∈ index := List.mem_of_getElem? hx
    rcases hload : e.load (plainfile codec) tree with ⟨r₀, e', t⟩
    simp only [he, hload] at hnext
    cases hnext
    have hset : EntryOf uuids root gone e' x → Indexes uuids root gone index
        { dir with array := dir.array.setEntry i e' } := by
      intro hentry
      have hchunk : (index.map Prod.snd)[i]? = some x.2 := by
        rw [List.getElem?_map, hx]
        rfl
      exact ⟨h.rooted, h.wellFormed.setEntry hchunk trivial, forall₂_set h.entries hx hentry⟩
    by_cases hgone : x.1 ∈ gone
    · -- a removed file cannot be loaded, and a chunk in memory has not lost its own
      have hnone : e.value = none := hvalue.resolve_right fun hv => hv.2 hgone
      have hmiss : tree.content (recorded e) = none := by
        rw [hpath]
        exact hsound.missing x hmem hgone
      obtain ⟨⟨err, rfl⟩, rfl, hsame⟩ := load_missing hnone hmiss hload
      exact ⟨hset ⟨hpath, hcoder, hvalue⟩, hsame, Or.inr ⟨x, hx, Or.inr ⟨err, rfl, Or.inr hgone⟩⟩⟩
    · obtain ⟨bytes, hbytes, hdecode⟩ := hsound.there x hmem hgone
      have hbacks : Backs codec tree e x.2 := by
        refine ⟨hvalue.imp_right fun hv => hv.1, bytes, ?_, ?_⟩
        · rw [show e.disk.path = root.join (uuids x.1) from hpath]
          exact hbytes
        · rw [hcoder]
          exact hdecode
      obtain ⟨hr, ⟨hdisk, hcoder'⟩, hbacks', hsame⟩ := hbacks.load hload
      refine ⟨hset ⟨?_, hcoder'.trans hcoder, hbacks'.1.imp_right fun hv => ⟨hv, hgone⟩⟩, hsame, ?_⟩
      · rw [← hpath]
        exact congrArg Plainfile.path hdisk
      · rcases hr with rfl | rfl
        · exact Or.inr ⟨x, hx, Or.inl ⟨rfl, hgone⟩⟩
        · exact Or.inr ⟨x, hx, Or.inr ⟨_, rfl, Or.inl rfl⟩⟩

/-! ### Appending -/

/-- **An append** adds a chunk with a new draw, or leaves what there is. -/
theorem Indexes.appends (h : Indexes uuids root gone index dir)
    (hcodec : ∀ v, codec.decode default (codec.encode default v) = some v)
    (hgone : next ∉ gone) {values : List T} {r : Except PlainError Unit}
    {array : BackedArray (Chunk T Plainfile C)}
    (happ : Appends codec values (dir.nextTarget (uuids next)) default dir.array tree r array after)
    (hmem : Remembers values dir.array r array) :
    (∀ q, q ≠ root.join (uuids next) → after.content q = tree.content q) ∧
      (r = .ok () → Indexes uuids root gone (index ++ [(next, values)]) { dir with array } ∧
        ∃ bytes, after.content (root.join (uuids next)) = some bytes ∧ codec.decode default bytes = some values) ∧
      ∀ e, r = .error e → array = dir.array := by
  have htarget : (dir.nextTarget (uuids next)).path = root.join (uuids next) := by
    rw [← h.rooted]
    rfl
  cases happ with
  | failed hothers => exact ⟨fun q hq => hothers q (htarget ▸ hq), nofun, fun _ _ => rfl⟩
  | @pushed entry _ _ hdisk hcoder hpush hothers hwritten =>
      refine ⟨fun q hq => hothers q (htarget ▸ hq), fun _ => ⟨?_, _, htarget ▸ hwritten, hcodec values⟩, nofun⟩
      obtain ⟨hwf, hentries⟩ := pushEntry_returned h.wellFormed trivial hpush
      have hentry : EntryOf uuids root gone entry (next, values) := by
        refine ⟨?_, hcoder, (hmem.2 entry hentries).imp_right fun hv => ⟨hv, hgone⟩⟩
        show entry.disk.path = _
        rw [hdisk, htarget]
      refine ⟨h.rooted, ?_, ?_⟩
      · rw [List.map_append]
        exact hwf
      · show List.Forall₂ _ array.entries _
        rw [hentries]
        exact List.rel_append h.entries (.cons hentry .nil)

/-! ### Saving and loading -/

/-- What is saved of an index. -/
def describe (uuids : Nat → String) (root : Path String) (index : Index T) : Saved C where
  keyStarts := Logic.Ranges.startsFrom 0 ((index.map Prod.snd).map List.length)
  keyEnds := Logic.Ranges.endsFrom 0 ((index.map Prod.snd).map List.length)
  entries := index.map fun x => (root.join (uuids x.1), default)
  directoryRoot := root

theorem entries_described {es : List (Chunk T Plainfile C)}
    (h : List.Forall₂ (EntryOf uuids root gone) es index) :
    (es.map fun e => (recorded e, e.coder)) = index.map fun x => (root.join (uuids x.1), default) := by
  induction h with
  | nil => rfl
  | cons hfirst _ ih =>
      obtain ⟨hpath, hcoder, -⟩ := hfirst
      rw [List.map_cons, List.map_cons, hpath, hcoder, ih]

theorem Indexes.serialize (h : Indexes uuids root gone index dir) :
    dir.serialize = describe uuids root index := by
  unfold DirectoryBackedArray.serialize describe
  rw [h.wellFormed.keyStarts_eq, h.wellFormed.keyEnds_eq, h.rooted, ← entries_described h.entries]
  rfl

/-- The array that is made of a description. -/
def ofSaved (saved : Saved C) : DirectoryBackedArray T Plainfile C where
  array :=
    { keyStarts := saved.keyStarts, keyEnds := saved.keyEnds
      entries := saved.entries.map fun entry => .new ⟨entry.1⟩ entry.2 }
  directoryRoot := saved.directoryRoot

theorem ofSaved_indexes (index : Index T) :
    Indexes uuids root gone index (ofSaved (describe uuids root index) : DirectoryBackedArray T Plainfile C) := by
  have hentries : List.Forall₂ (EntryOf uuids root gone)
      (ofSaved (describe uuids root index) : DirectoryBackedArray T Plainfile C).array.entries index := by
    show List.Forall₂ _ ((index.map _).map _) _
    rw [List.map_map, List.forall₂_map_left_iff]
    exact List.forall₂_same.mpr fun x _ => ⟨rfl, rfl, Or.inl rfl⟩
  refine ⟨rfl, ⟨Logic.Ranges.consecutive_iff.mpr ⟨rfl, rfl⟩, ?_⟩, hentries⟩
  rw [List.forall₂_map_right_iff]
  exact hentries.imp fun _ _ _ => trivial

end Files

section Plain

variable {pieces : List UInt8 → List (List UInt8)}

/-- The disks of plain files are built without a call. -/
theorem deserializeEntries_plain (saved : List (Path String × C)) :
    (deserializeEntries (bufferedDisk pieces) saved : DiskM (List (Chunk T Plainfile C))) =
      pure (saved.map fun entry => .new ⟨entry.1⟩ entry.2) := by
  induction saved with
  | nil => rfl
  | cons entry saved ih =>
      obtain ⟨path, coder⟩ := entry
      show (do
        let disk ← (bufferedDisk pieces).deserialize path
        let entries ← deserializeEntries (bufferedDisk pieces) saved
        pure (.new disk coder :: entries) : DiskM _) = _
      rw [ih]
      rfl

/-- **`save`** writes `meta.dat`, or leaves it as it was, or with a beginning of what it was to write. -/
theorem save_plain (hpieces : ∀ bytes, (pieces bytes).flatten = bytes) (format : Codec (Saved C) K) (coder : K)
    (dir : DirectoryBackedArray T Plainfile C) (w : World) :
    Meets (dir.save (bufferedDisk pieces) format coder) w
      { ok := fun _ w' =>
          w'.tree.content (dir.directoryRoot.join metaFile) = some (format.encode coder dir.serialize) ∧
            ∀ q, q ≠ dir.directoryRoot.join metaFile → w'.tree.content q = w.tree.content q
        error := fun _ w' =>
          (w'.tree.content (dir.directoryRoot.join metaFile) = w.tree.content (dir.directoryRoot.join metaFile) ∨
            ∃ written, written <+: format.encode coder dir.serialize ∧
              w'.tree.content (dir.directoryRoot.join metaFile) = some written) ∧
            ∀ q, q ≠ dir.directoryRoot.join metaFile → w'.tree.content q = w.tree.content q
        panic := fun _ => False } := by
  unfold DirectoryBackedArray.save bufferedDisk fileDisk
  simp only [meets_bind, meets_mapError, meets_pure, meets_onTree]
  refine ⟨fun _ t hopen => ?_, fun e t hopen => ⟨Or.inl ?_, fun q _ => ?_⟩⟩
  · obtain ⟨hempty, -⟩ := FileTree.openWrite_ok hopen
    have hother : ∀ q, q ≠ dir.directoryRoot.join metaFile → t.content q = w.tree.content q := by
      intro q hq
      have hcontent := FileTree.openWrite_content w.tree hq
      rwa [show w.tree.openWrite (dir.directoryRoot.join metaFile) = (.ok (), t) from hopen] at hcontent
    refine ⟨fun _ u hwrite => ?_, fun e u hwrite => ?_⟩
    · obtain ⟨hsame, hall, -⟩ := writeOut_spec hempty hwrite
      rw [hpieces] at hall
      exact ⟨hall rfl, fun q hq => (hsame q hq).trans (hother q hq)⟩
    · obtain ⟨hsame, -, hpart⟩ := writeOut_spec hempty hwrite
      rw [hpieces] at hpart
      exact ⟨Or.inr (hpart e rfl), fun q hq => (hsame q hq).trans (hother q hq)⟩
  · exact FileTree.openWrite_error hopen _
  · exact FileTree.openWrite_error hopen q

/-- **`load`** makes an array of what `meta.dat` says. -/
theorem load_plain (pieces : List UInt8 → List (List UInt8)) (format : Codec (Saved C) K) (coder : K)
    (root : Path String) (w : World) :
    Meets (DirectoryBackedArray.load (bufferedDisk pieces) format coder root :
        Method DiskReadErr World (DirectoryBackedArray T Plainfile C)) w
      { ok := fun dir w' => (∀ q, w'.tree.content q = w.tree.content q) ∧ ∃ bytes saved,
          w.tree.content (root.join metaFile) = some bytes ∧ format.decode coder bytes = some saved ∧
            dir = ofSaved saved
        error := fun e w' => (∀ q, w'.tree.content q = w.tree.content q) ∧
          ((LifeError.read e).OfSystem ∨ ∀ bytes saved, w.tree.content (root.join metaFile) = some bytes →
            format.decode coder bytes ≠ some saved)
        panic := fun _ => False } := by
  have hpath : AsRefPath.path (Plainfile.mk (root.join metaFile)) = root.join metaFile := rfl
  unfold DirectoryBackedArray.load DirectoryBackedArray.deserialize
  simp only [deserializeEntries_plain]
  unfold bufferedDisk fileDisk
  simp only [meets_bind, meets_mapError, meets_pure, meets_onTree, hpath]
  refine ⟨fun _ t hopen => ?_, fun e t hopen => ?_⟩
  · have hsame := fun q => FileTree.openRead_content (root.join metaFile) q w.tree
    rw [hopen] at hsame
    refine ⟨fun bytes u hread => ?_, fun e u hread => ?_⟩
    · have hsame' := fun q => (FileTree.read_content (root.join metaFile) q t).trans (hsame q)
      rw [hread] at hsame'
      have hbytes : w.tree.content (root.join metaFile) = some bytes :=
        (hsame _).symm.trans (FileTree.read_ok hread)
      unfold decodeBytes
      rcases hdecode : format.decode coder bytes with _ | saved
      · refine ⟨hsame', Or.inr fun bytes' saved hbytes' => ?_⟩
        rw [Option.some.inj (hbytes'.symm.trans hbytes), hdecode]
        exact (Option.some_ne_none saved).symm
      · exact ⟨hsame', bytes, saved, hbytes, hdecode, rfl⟩
    · have hsame' := fun q => (FileTree.read_content (root.join metaFile) q t).trans (hsame q)
      rw [hread] at hsame'
      refine ⟨hsame', Or.inl ?_⟩
      obtain ⟨bytes, hbytes⟩ := FileTree.openRead_ok hopen
      rw [FileTree.read_present ((hsame _).trans hbytes) hread]
      exact Or.inr (Or.inr (Or.inr rfl))
  · have hsame := fun q => FileTree.openRead_content (root.join metaFile) q w.tree
    rw [hopen] at hsame
    refine ⟨hsame, ?_⟩
    rcases hc : w.tree.content (root.join metaFile) with _ | bytes
    · exact Or.inr fun _ _ hnone => by cases hnone
    · rw [FileTree.openRead_present hc hopen]
      exact Or.inl (Or.inr (Or.inr (Or.inl rfl)))

end Plain

/-! ## A directory and its ledger -/

section Telling

variable [Inhabited C] {codec : Codec (List T) C} {format : Codec (Saved C) K} {coder : K}
  {pieces : List UInt8 → List (List UInt8)} {uuids : Nat → String} {root : Path String} {L : Ledger T}
  {s : Life T C}

/-- What `meta.dat` has: the description of the index that was saved; without one, nothing that can be read. -/
def MetaHolds (format : Codec (Saved C) K) (coder : K) (uuids : Nat → String) (root : Path String)
    (saved : Option (Index T)) (content : Option (List UInt8)) : Prop :=
  match saved with
  | some index => content = some (format.encode coder (describe uuids root index))
  | none => ∀ bytes, content = some bytes → format.decode coder bytes = none

/-- **`Tells`** — the ledger tells what is in memory and in the directory. -/
structure Tells (codec : Codec (List T) C) (format : Codec (Saved C) K) (coder : K) (uuids : Nat → String)
    (root : Path String) (L : Ledger T) (s : Life T C) : Prop where
  live : Option.Rel (Indexes uuids root L.gone) L.live s.dir
  description : MetaHolds format coder uuids root L.saved (s.world.tree.content (root.join metaFile))
  sound : ∀ index, L.live = some index ∨ L.saved = some index →
    Sound codec uuids root L.gone L.next s.world.tree index
  drawn : s.drawn = L.next
  made : ∀ k ∈ L.gone, k < L.next

theorem Tells.held (h : Tells codec format coder uuids root L s)
    {dir : DirectoryBackedArray T Plainfile C} (hdir : s.dir = some dir) :
    ∃ index, L.live = some index ∧ Indexes uuids root L.gone index dir ∧
      Sound codec uuids root L.gone L.next s.world.tree index := by
  have hlive := h.live
  rw [hdir] at hlive
  rcases hl : L.live with _ | index
  · rw [hl] at hlive
    cases hlive
  · rw [hl] at hlive
    cases hlive with
    | some hindexes => exact ⟨index, rfl, hindexes, h.sound index (Or.inl hl)⟩

/-- **Files are removed**, and the array may go with them. -/
theorem Tells.emptied (h : Tells codec format coder uuids root L s) (huuids : Function.Injective uuids)
    (hmeta : ∀ k, uuids k ≠ metaFile) {ks : List Nat} {tree : FileTree String}
    (hempty : Emptied uuids root ks s.world.tree tree) (hks : ∀ k ∈ ks, k < L.next)
    {live : Option (Index T)} {dir : Option (DirectoryBackedArray T Plainfile C)}
    (hlive : Option.Rel (Indexes uuids root (ks ++ L.gone)) live dir)
    (hsound : ∀ index, live = some index → Sound codec uuids root (ks ++ L.gone) L.next tree index) :
    Tells codec format coder uuids root { L with live, gone := ks ++ L.gone }
      { s with dir, world := s.world.withTree tree } := by
  refine ⟨hlive, ?_, fun index hindex => ?_, h.drawn, fun k hk => ?_⟩
  · show MetaHolds format coder uuids root L.saved (tree.content _)
    rw [hempty.metaFile hmeta]
    exact h.description
  · rcases hindex with hl | hs
    · exact hsound index hl
    · exact (h.sound index (Or.inr hs)).emptied huuids hempty
  · rcases List.mem_append.mp hk with hk | hk
    · exact hks k hk
    · exact h.made k hk

/-- **Nothing is removed**, and the array is another with an index that is sound. -/
theorem Tells.reads (h : Tells codec format coder uuids root L s) (world : World)
    (hsame : ∀ q, world.tree.content q = s.world.tree.content q) {live : Option (Index T)}
    {dir : Option (DirectoryBackedArray T Plainfile C)} (hlive : Option.Rel (Indexes uuids root L.gone) live dir)
    (hsound : ∀ index, live = some index → Sound codec uuids root L.gone L.next s.world.tree index) :
    Tells codec format coder uuids root { L with live } { s with dir, world } := by
  refine ⟨hlive, ?_, fun index hindex => ?_, h.drawn, h.made⟩
  · show MetaHolds format coder uuids root L.saved (world.tree.content _)
    rw [hsame]
    exact h.description
  · have hbefore : Sound codec uuids root L.gone L.next s.world.tree index := by
      rcases hindex with hl | hs
      · exact hsound index hl
      · exact h.sound index (Or.inr hs)
    exact hbefore.frame le_rfl fun x _ => hsame _

/-- **A file of a new draw is written**, whole or in part. -/
theorem Tells.appended (h : Tells codec format coder uuids root L s) (huuids : Function.Injective uuids)
    (hmeta : ∀ k, uuids k ≠ metaFile) {tree : FileTree String}
    (hothers : ∀ q, q ≠ root.join (uuids L.next) → tree.content q = s.world.tree.content q)
    {live : Option (Index T)} {dir : Option (DirectoryBackedArray T Plainfile C)} {drawn : Nat}
    (hdrawn : drawn = L.next + 1) (hlive : Option.Rel (Indexes uuids root L.gone) live dir)
    (hsound : ∀ index, live = some index → Sound codec uuids root L.gone (L.next + 1) tree index) :
    Tells codec format coder uuids root { L with live, next := L.next + 1 }
      { dir, world := s.world.withTree tree, drawn } := by
  refine ⟨hlive, ?_, fun index hindex => ?_, hdrawn, fun k hk => Nat.lt_succ_of_lt (h.made k hk)⟩
  · show MetaHolds format coder uuids root L.saved (tree.content _)
    rw [hothers _ fun hpath => hmeta L.next (Path.join_inj hpath).2.symm]
    exact h.description
  · rcases hindex with hl | hs
    · exact hsound index hl
    · -- what was saved has older draws
      have hs := h.sound index (Or.inr hs)
      refine hs.frame (Nat.le_succ _) fun x hx => hothers _ fun hpath => ?_
      have hdraw : x.1 = L.next := huuids (Path.join_inj hpath).2
      have := hs.made x hx
      omega

/-- **An append**, to memory or not. -/
theorem append_tells (h : Tells codec format coder uuids root L s)
    (hcodec : ∀ v, codec.decode default (codec.encode default v) = some v)
    (huuids : Function.Injective uuids) (hmeta : ∀ k, uuids k ≠ metaFile)
    {dir : DirectoryBackedArray T Plainfile C} (hdir : s.dir = some dir) {values : List T}
    {r : Except PlainError Unit} {array : BackedArray (Chunk T Plainfile C)} {tree : FileTree String}
    (happ : Appends codec values (dir.nextTarget (uuids s.drawn)) default dir.array s.world.tree r array tree)
    (hmem : Remembers values dir.array r array) :
    ∃ index, L.live = some index ∧
      (r = .ok () → Tells codec format coder uuids root
        { L with live := some (index ++ [(L.next, values)]), next := L.next + 1 }
        { dir := some { dir with array }, world := s.world.withTree tree, drawn := s.drawn + 1 }) ∧
      ∀ e, r = .error e → Tells codec format coder uuids root { L with next := L.next + 1 }
        { dir := some { dir with array }, world := s.world.withTree tree, drawn := s.drawn + 1 } := by
  obtain ⟨index, hl, hindexes, hsound⟩ := h.held hdir
  have hfresh : L.next ∉ L.gone := fun hmem => Nat.lt_irrefl _ (h.made _ hmem)
  rw [h.drawn] at happ ⊢
  obtain ⟨hothers, hok, herror⟩ := hindexes.appends hcodec hfresh happ hmem
  have hkept : Sound codec uuids root L.gone (L.next + 1) tree index := by
    refine hsound.frame (Nat.le_succ _) fun x hx => hothers _ fun hpath => ?_
    have hdraw : x.1 = L.next := huuids (Path.join_inj hpath).2
    have := hsound.made x hx
    omega
  refine ⟨index, hl, fun hr => ?_, fun e he => ?_⟩
  · obtain ⟨hmore, hfile⟩ := hok hr
    refine h.appended huuids hmeta hothers rfl (.some hmore) fun index' hindex' => ?_
    cases hindex'
    refine ⟨?_, fun x hx => ?_, fun x hx hthere => ?_, fun x hx hgone => ?_⟩
    · rw [List.map_append]
      apply List.Nodup.append hkept.nodup (List.nodup_singleton _)
      intro k hk hlast
      obtain ⟨x, hx, rfl⟩ := List.mem_map.mp hk
      have := hsound.made x hx
      have : x.1 = L.next := List.mem_singleton.mp hlast
      omega
    · rcases List.mem_append.mp hx with hx | hx
      · exact hkept.made x hx
      · rw [List.mem_singleton.mp hx]
        exact Nat.lt_succ_self _
    · rcases List.mem_append.mp hx with hx | hx
      · exact hkept.there x hx hthere
      · rw [List.mem_singleton.mp hx]
        exact hfile
    · rcases List.mem_append.mp hx with hx | hx
      · exact hkept.missing x hx hgone
      · rw [List.mem_singleton.mp hx] at hgone
        exact absurd hgone hfresh
  · have hsame : ({ dir with array } : DirectoryBackedArray T Plainfile C) = dir := by rw [herror e he]
    rw [hsame]
    have hout := h.appended huuids hmeta hothers rfl (.some hindexes) fun index' hindex' => by
      cases hindex'
      exact hkept
    rwa [← hl] at hout

/-- The array stays, and the files. -/
theorem Tells.untouched (h : Tells codec format coder uuids root L s) (world : World)
    (hsame : ∀ q, world.tree.content q = s.world.tree.content q) :
    Tells codec format coder uuids root L { s with world } :=
  h.reads world hsame h.live fun index hindex => h.sound index (Or.inl hindex)

/-- **A change of one chunk.** -/
theorem change_tells (h : Tells codec format coder uuids root L s)
    (hcodec : ∀ v, codec.decode default (codec.encode default v) = some v)
    (huuids : Function.Injective uuids) (hmeta : ∀ k, uuids k ≠ metaFile)
    {dir : DirectoryBackedArray T Plainfile C} (hdir : s.dir = some dir) {op : DirOp T}
    {r : Except PlainError Unit} {st : DirState T C}
    (hrun : dirNext codec uuids { dir, tree := s.world.tree, drawn := s.drawn } op = some (r, st)) :
    (r = .ok () → ∃ L', LedgerStep L (.change op, .done) L' ∧ Tells codec format coder uuids root L'
        { dir := some st.dir, world := s.world.withTree st.tree, drawn := st.drawn }) ∧
      ∀ e, r = .error e → ∃ L', LedgerStep L (.change op, .failed (.chunk e)) L' ∧
        Tells codec format coder uuids root L'
          { dir := some st.dir, world := s.world.withTree st.tree, drawn := st.drawn } := by
  have happly := toOption_inv hrun
  cases op with
  | append values =>
      obtain ⟨⟨r', dir', tree'⟩, hcall, happly⟩ := exec_bind_inv happly
      cases happly
      obtain ⟨⟨r'', array, tree'⟩, harr, hcall⟩ := exec_bind_inv hcall
      cases hcall
      obtain ⟨index, hl, hok, herror⟩ :=
        append_tells h hcodec huuids hmeta hdir (append_appends harr) (append_remembers harr)
      exact ⟨fun hr => ⟨_, .append hl (Or.inl rfl), hok hr⟩,
        fun e he => ⟨_, .appendFailed hl (Or.inl rfl), herror e he⟩⟩
  | appendMemory values =>
      obtain ⟨⟨r', dir', tree'⟩, hcall, happly⟩ := exec_bind_inv happly
      cases happly
      obtain ⟨⟨r'', array, tree'⟩, harr, hcall⟩ := exec_bind_inv hcall
      cases hcall
      obtain ⟨index, hl, hok, herror⟩ :=
        append_tells h hcodec huuids hmeta hdir (appendMemory_appends harr) (appendMemory_remembers harr)
      exact ⟨fun hr => ⟨_, .append hl (Or.inr rfl), hok hr⟩,
        fun e he => ⟨_, .appendFailed hl (Or.inr rfl), herror e he⟩⟩
  | remove entryIdx =>
      obtain ⟨index, hl, hindexes, hsound⟩ := h.held hdir
      have hremove := remove_indexes hindexes hsound entryIdx
      unfold DirOp.apply at happly
      rcases hcall : dir.remove entryIdx s.world.tree with p | ⟨err | dir', tree'⟩
      · simp only [hcall] at happly
        cases happly
      · simp only [hcall] at happly
        cases happly
        obtain ⟨⟨⟨k, chunk⟩, hentry, hwhy⟩, hsame⟩ := hremove.error hcall
        refine ⟨nofun, fun e he => ⟨L, .removeFailed hl hentry ?_, ?_⟩⟩
        · cases he
          exact hwhy.imp_left fun herr => Or.inl (by rw [herr])
        · have hout := h.untouched (s.world.withTree tree') hsame
          rwa [hdir] at hout
      · simp only [hcall] at happly
        cases happly
        obtain ⟨hleft, hthere, hempty⟩ := hremove.ok hcall
        refine ⟨fun _ => ?_, nofun⟩
        have hsub : ∀ index', some (index.eraseIdx entryIdx) = some index' →
            Sound codec uuids root ((index[entryIdx]?.map Prod.fst).toList ++ L.gone) L.next tree' index' := by
          rintro index' ⟨⟩
          exact (hsound.emptied huuids hempty).sub (List.eraseIdx_sublist _ _)
        rcases hentry : index[entryIdx]? with _ | ⟨k, chunk⟩
        · -- `remove` behind the end returns `Ok`
          rw [hentry] at hleft hempty hsub
          have herased : index.eraseIdx entryIdx = index :=
            List.eraseIdx_of_length_le (List.getElem?_eq_none_iff.mp hentry)
          refine ⟨L, .removeNothing hl hentry, ?_⟩
          have hout := h.emptied huuids hmeta hempty (by nofun) (.some hleft) hsub
          rw [herased, ← hl] at hout
          exact hout
        · rw [hentry] at hleft hempty hsub
          refine ⟨_, .remove hl hentry (hthere _ hentry), h.emptied huuids hmeta hempty ?_ (.some hleft) hsub⟩
          intro k' hk'
          rw [List.mem_singleton.mp hk']
          exact hsound.made _ (List.mem_of_getElem? hentry)

/-- **`meta.dat` is written**, whole or in part. -/
theorem Tells.rewritten (h : Tells codec format coder uuids root L s) (hmeta : ∀ k, uuids k ≠ metaFile)
    {world : World} (hothers : ∀ q, q ≠ root.join metaFile → world.tree.content q = s.world.tree.content q)
    {saved : Option (Index T)}
    (hholds : MetaHolds format coder uuids root saved (world.tree.content (root.join metaFile)))
    (hsound : ∀ index, saved = some index → Sound codec uuids root L.gone L.next s.world.tree index) :
    Tells codec format coder uuids root { L with saved } { s with world } := by
  refine ⟨h.live, hholds, fun index hindex => ?_, h.drawn, h.made⟩
  have hbefore : Sound codec uuids root L.gone L.next s.world.tree index := by
    rcases hindex with hl | hs
    · exact h.sound index (Or.inl hl)
    · exact hsound index hs
  -- no chunk has its file there
  exact hbefore.frame le_rfl fun x _ => hothers _ fun hpath => hmeta x.1 (Path.join_inj hpath).2

/-- **A save.** -/
theorem save_tells (h : Tells codec format coder uuids root L s)
    (hbegins : ∀ saved bytes, bytes <+: format.encode coder saved → bytes ≠ format.encode coder saved →
      format.decode coder bytes = none)
    (hpieces : ∀ bytes, (pieces bytes).flatten = bytes) (hmeta : ∀ k, uuids k ≠ metaFile)
    {dir : DirectoryBackedArray T Plainfile C} (hdir : s.dir = some dir) {r : Except DiskWriteErr Unit}
    {world : World} (hrun : dir.save (bufferedDisk pieces) format coder s.world = .ok (r, world)) :
    (r = .ok () → ∃ L', LedgerStep L (.save, .done) L' ∧
        Tells codec format coder uuids root L' { s with world }) ∧
      ∀ e, r = .error e → ∃ L', LedgerStep L (.save, .failed (.write e)) L' ∧
        Tells codec format coder uuids root L' { s with world } := by
  obtain ⟨index, hl, hindexes, hsound⟩ := h.held hdir
  have hsave := save_plain hpieces format coder dir s.world
  rw [hindexes.rooted, hindexes.serialize] at hsave
  have hnew : ∀ index', some index = some index' →
      Sound codec uuids root L.gone L.next s.world.tree index' := by
    rintro index' ⟨⟩
    exact hsound
  constructor
  · rintro rfl
    obtain ⟨hwritten, hothers⟩ := hsave.ok hrun
    exact ⟨_, .save hl, h.rewritten hmeta hothers hwritten hnew⟩
  · rintro e rfl
    obtain ⟨hleft, hothers⟩ := hsave.error hrun
    rcases hleft with hsame | ⟨written, hpart, hwritten⟩
    · -- it could not be opened
      refine ⟨_, .saveFailed hl (Or.inl rfl), h.rewritten hmeta hothers ?_ fun i hi => h.sound i (Or.inr hi)⟩
      rw [hsame]
      exact h.description
    by_cases hwhole : written = format.encode coder (describe uuids root index)
    · -- the drop has written what the flush could not
      subst hwhole
      exact ⟨_, .saveFailed hl (Or.inr (Or.inr rfl)), h.rewritten hmeta hothers hwritten hnew⟩
    · refine ⟨_, .saveFailed hl (Or.inr (Or.inl rfl)), h.rewritten hmeta hothers (fun bytes hbytes => ?_) nofun⟩
      obtain rfl : written = bytes := Option.some.inj (hwritten.symm.trans hbytes)
      exact hbegins _ written hpart hwhole

/-- **A load.** -/
theorem load_tells (h : Tells codec format coder uuids root L s)
    (hformat : ∀ saved, format.decode coder (format.encode coder saved) = some saved)
    {r : Except DiskReadErr (DirectoryBackedArray T Plainfile C)} {world : World}
    (hrun : DirectoryBackedArray.load (bufferedDisk pieces) format coder root s.world = .ok (r, world)) :
    (∀ dir, r = .ok dir → ∃ L', LedgerStep L (.load, .done) L' ∧
        Tells codec format coder uuids root L' { s with dir := some dir, world }) ∧
      ∀ e, r = .error e → ∃ L', LedgerStep L (.load, .failed (.read e)) L' ∧
        Tells codec format coder uuids root L' { s with world } := by
  have hload := load_plain (T := T) pieces format coder root s.world
  have hdescription := h.description
  constructor
  · rintro dir rfl
    obtain ⟨hsame, bytes, saved, hbytes, hdecode, rfl⟩ := hload.ok hrun
    rcases hs : L.saved with _ | index
    · rw [hs] at hdescription
      rw [hdescription bytes hbytes] at hdecode
      cases hdecode
    · rw [hs] at hdescription
      have hsaved : saved = describe uuids root index := by
        rw [show s.world.tree.content _ = _ from hdescription] at hbytes
        cases hbytes
        exact Option.some.inj (hdecode.symm.trans (hformat _))
      subst hsaved
      refine ⟨_, .load hs, h.reads _ hsame (.some (ofSaved_indexes index)) fun index' hindex' => ?_⟩
      cases hindex'
      exact h.sound index (Or.inr hs)
  · rintro e rfl
    obtain ⟨hsame, hwhy⟩ := hload.error hrun
    refine ⟨L, .loadFailed (hwhy.imp_right fun hno => ?_), h.untouched _ hsame⟩
    rcases hs : L.saved with _ | index
    · rfl
    · -- a description that was saved whole is read
      rw [hs] at hdescription
      exact absurd (hformat _) (hno _ _ hdescription)

/-- **A deletion** consumes the array, also where it fails. -/
theorem delete_tells (h : Tells codec format coder uuids root L s) (huuids : Function.Injective uuids)
    (hmeta : ∀ k, uuids k ≠ metaFile) {dir : DirectoryBackedArray T Plainfile C} (hdir : s.dir = some dir)
    {r : Except FileError (Option Unit)} {tree : FileTree String}
    (hrun : dir.delete (dir.array.entries.length + 1) s.world.tree = .ok (r, tree)) :
    (r = .ok (some ()) → ∃ L', LedgerStep L (.delete, .done) L' ∧
        Tells codec format coder uuids root L' { s with dir := none, world := s.world.withTree tree }) ∧
      ∀ e, r = .error e → ∃ L', LedgerStep L (.delete, .failed (.file e)) L' ∧
        Tells codec format coder uuids root L' { s with dir := none, world := s.world.withTree tree } := by
  obtain ⟨index, hl, hindexes, hsound⟩ := h.held hdir
  have hdelete := delete_indexes hindexes hsound huuids
  have hmade : ∀ part : Index T, (∀ x ∈ part, x ∈ index) → ∀ k ∈ part.map Prod.fst, k < L.next := by
    intro part hpart k hk
    obtain ⟨x, hx, rfl⟩ := List.mem_map.mp hk
    exact hsound.made x (hpart x hx)
  constructor
  · rintro rfl
    obtain ⟨-, hthere, hempty⟩ := hdelete.ok hrun
    have hk := hmade index fun y hy => hy
    exact ⟨_, .delete hl hthere, h.emptied huuids hmeta hempty hk .none fun _ hindex => by cases hindex⟩
  · rintro e rfl
    obtain ⟨done, x, rest, rfl, hthere, hwhy, hempty⟩ := hdelete.error hrun
    have hk := hmade done fun y hy => List.mem_append_left _ hy
    refine ⟨_, .deleteFailed hl hthere (hwhy.imp_left fun herr => ?_),
      h.emptied huuids hmeta hempty hk .none fun _ hindex => by cases hindex⟩
    exact Or.inr (Or.inl (by rw [herr]))

/-- **The step lemma.**  An operation on the directory is one on the ledger. -/
theorem lifeNext_simulates (hcodec : ∀ v, codec.decode default (codec.encode default v) = some v)
    (hformat : ∀ saved, format.decode coder (format.encode coder saved) = some saved)
    (hbegins : ∀ saved bytes, bytes <+: format.encode coder saved → bytes ≠ format.encode coder saved →
      format.decode coder bytes = none)
    (hpieces : ∀ bytes, (pieces bytes).flatten = bytes) (huuids : Function.Injective uuids)
    (hmeta : ∀ k, uuids k ≠ metaFile) :
    Simulates (Tells codec format coder uuids root) LedgerStep
      (Reacts (lifeNext codec format coder pieces uuids root)) := by
  rintro L s ⟨op, reply⟩ t h hstep
  unfold Reacts at hstep
  cases op with
  | new =>
      unfold lifeNext at hstep
      have hcontent := fun q => FileTree.createDirAll_content root q s.world.tree
      rcases hcreate : s.world.tree.createDirAll root with ⟨e | _, tree⟩
      · simp only [DirectoryBackedArray.new, hcreate] at hstep hcontent
        cases hstep
        exact ⟨L, .newFailed, h.untouched _ hcontent⟩
      · simp only [DirectoryBackedArray.new, hcreate] at hstep hcontent
        cases hstep
        have hempty : Indexes uuids root L.gone [] ({ array := .new, directoryRoot := root } :
            DirectoryBackedArray T Plainfile C) := ⟨rfl, wellFormed_new _, .nil⟩
        refine ⟨_, .new, h.reads _ hcontent (.some hempty) ?_⟩
        rintro index ⟨⟩
        refine ⟨List.nodup_nil, fun x hx => ?_, fun x hx => ?_, fun x hx => ?_⟩ <;> cases hx
  | change op =>
      obtain ⟨dir, hdir, hstep⟩ := Option.bind_eq_some_iff.mp hstep
      obtain ⟨⟨r, st⟩, hrun, hstep⟩ := Option.bind_eq_some_iff.mp hstep
      obtain ⟨hok, herror⟩ := change_tells h hcodec huuids hmeta hdir hrun
      rcases r with e | _
      · cases hstep
        exact herror e rfl
      · cases hstep
        exact hok rfl
  | chunk entryIdx =>
      obtain ⟨dir, hdir, hstep⟩ := Option.bind_eq_some_iff.mp hstep
      obtain ⟨index, hl, hindexes, hsound⟩ := h.held hdir
      rcases hnext : dir.array.chunkNext (plainfile codec) entryIdx s.world.tree with ⟨r, array, tree⟩
      obtain ⟨hkept, hsame, hr⟩ := hindexes.chunkNext hsound hnext
      have hout := h.reads (s.world.withTree tree) hsame (.some hkept) fun index' hindex' => by
        cases hindex'
        exact hsound
      rw [← hl] at hout
      simp only [hnext] at hstep
      rcases hr with ⟨rfl, hentry⟩ | ⟨⟨k, chunk⟩, hentry, ⟨rfl, hthere⟩ | ⟨e, rfl, hwhy⟩⟩
      · cases hstep
        exact ⟨L, .chunkNone hl hentry, hout⟩
      · cases hstep
        exact ⟨L, .chunk hl hentry hthere, hout⟩
      · cases hstep
        exact ⟨L, .chunkFailed hl hentry (hwhy.imp_left fun herr => Or.inl (by rw [herr])), hout⟩
  | save =>
      obtain ⟨dir, hdir, hstep⟩ := Option.bind_eq_some_iff.mp hstep
      obtain ⟨⟨r, world⟩, hrun, hstep⟩ := Option.bind_eq_some_iff.mp hstep
      obtain ⟨hok, herror⟩ := save_tells h hbegins hpieces hmeta hdir (toOption_inv hrun)
      rcases r with e | _
      · cases hstep
        exact herror e rfl
      · cases hstep
        exact hok rfl
  | load =>
      obtain ⟨⟨r, world⟩, hrun, hstep⟩ := Option.bind_eq_some_iff.mp hstep
      obtain ⟨hok, herror⟩ := load_tells h hformat (toOption_inv hrun)
      rcases r with e | dir
      · cases hstep
        exact herror e rfl
      · cases hstep
        exact hok dir rfl
  | crash =>
      cases hstep
      refine ⟨_, .crash, h.reads _ (fun _ => rfl) .none fun index hindex => ?_⟩
      cases hindex
  | delete =>
      obtain ⟨dir, hdir, hstep⟩ := Option.bind_eq_some_iff.mp hstep
      obtain ⟨⟨r, tree⟩, hrun, hstep⟩ := Option.bind_eq_some_iff.mp hstep
      obtain ⟨hok, herror⟩ := delete_tells h huuids hmeta hdir (toOption_inv hrun)
      rcases r with e | _ | _
      · cases hstep
        exact herror e rfl
      · cases hstep
      · cases hstep
        exact hok rfl

end Telling

/-- **A directory is what was saved, less what was removed.**  From a directory without a `meta.dat`, along
every run of `new`, `append`, `append_memory`, `remove`, reads of chunks, `save`, `load`, `delete` and ends of
the program, over plain files, whichever calls on the files fail: the run is one of the ledger.  So `load`
returns the index of the last `save` if that succeeded, and of the last one or an earlier one if saves have
failed since, and fails only for want of an index that can be read or by the file system; a chunk of it reads
as what was appended exactly while its file has not been removed, by whichever array; and an index with a
removed chunk in it cannot be deleted.  The formats read back what they write, that of the description reads
no proper beginning of one, and the random source gives neither a name twice nor `meta.dat`. -/
theorem directory_reopens [Inhabited C] (codec : Codec (List T) C)
    (hcodec : ∀ v, codec.decode default (codec.encode default v) = some v) (format : Codec (Saved C) K)
    (coder : K) (hformat : ∀ saved, format.decode coder (format.encode coder saved) = some saved)
    (hbegins : ∀ saved bytes, bytes <+: format.encode coder saved → bytes ≠ format.encode coder saved →
      format.decode coder bytes = none)
    (pieces : List UInt8 → List (List UInt8)) (hpieces : ∀ bytes, (pieces bytes).flatten = bytes)
    (uuids : Nat → String) (huuids : Function.Injective uuids) (hmeta : ∀ k, uuids k ≠ metaFile)
    (root : Path String) (world : World) (hnew : world.tree.content (root.join metaFile) = none)
    (tr : List ((LifeOp T × LifeReply T) × Life T C))
    (htr : IsTrace (Reacts (lifeNext codec format coder pieces uuids root))
      { dir := none, world, drawn := 0 } tr) :
    ∃ atr, IsTrace LedgerStep { live := none, saved := none, gone := [], next := 0 } atr ∧
      SideBySide (Tells codec format coder uuids root) atr tr := by
  have hmissing : MetaHolds format coder uuids root (none : Option (Index T))
      (world.tree.content (root.join metaFile)) := fun bytes hbytes => by
    rw [hnew] at hbytes
    cases hbytes
  have h0 : Tells codec format coder uuids root { live := none, saved := none, gone := [], next := 0 }
      ({ dir := none, world, drawn := 0 } : Life T C) :=
    ⟨.none, hmissing, fun _ hindex => by rcases hindex with hl | hs <;> contradiction, rfl, by nofun⟩
  exact (lifeNext_simulates hcodec hformat hbegins hpieces huuids hmeta).run h0 htr

/-! ### A `save` whose flush fails -/

/-- What is saved first, and last, in `reopenedRun`. -/
def savedChunks (names : List (Nat × List UInt8)) : Saved Unit :=
  describe lengthNames [.rootDir, .normal "a"] names

/-- The number of a description: small for those of `reopenedRun`. -/
def savedNumber (saved : Saved Unit) : Nat :=
  if saved = savedChunks [(0, [1, 2])] then 0
  else if saved = savedChunks [(0, [1, 2]), (1, [3])] then 1
  else 2 + Encodable.encode saved

/-- A format: so many ones as the number of the description, and a zero. -/
def countedFormat : Codec (Saved Unit) Unit where
  encode _ saved := .replicate (savedNumber saved) 1 ++ [0]
  decode _ bytes :=
    if bytes.getLast? = some 0 then
      match bytes.length - 1 with
      | 0 => some (savedChunks [(0, [1, 2])])
      | 1 => some (savedChunks [(0, [1, 2]), (1, [3])])
      | n + 2 => Encodable.decode n
    else none

theorem countedFormat_inverts (saved : Saved Unit) :
    countedFormat.decode () (countedFormat.encode () saved) = some saved := by
  have hlast : (List.replicate (savedNumber saved) (1 : UInt8) ++ [0]).getLast? = some 0 :=
    List.getLast?_concat
  have hlen : (List.replicate (savedNumber saved) (1 : UInt8) ++ [0]).length - 1 = savedNumber saved := by
    rw [List.length_append, List.length_replicate, List.length_singleton, Nat.add_sub_cancel]
  unfold countedFormat
  simp only [hlast, hlen, if_true]
  unfold savedNumber
  by_cases hfirst : saved = savedChunks [(0, [1, 2])]
  · rw [if_pos hfirst, hfirst]
  rw [if_neg hfirst]
  by_cases hsecond : saved = savedChunks [(0, [1, 2]), (1, [3])]
  · rw [if_pos hsecond, hsecond]
  · rw [if_neg hsecond, Nat.add_comm]
    exact Encodable.encodek saved

/-- A proper beginning has no zero. -/
theorem countedFormat_begins (saved : Saved Unit) (bytes : List UInt8)
    (hpart : bytes <+: countedFormat.encode () saved) (hne : bytes ≠ countedFormat.encode () saved) :
    countedFormat.decode () bytes = none := by
  have hones : bytes <+: List.replicate (savedNumber saved) 1 :=
    (List.prefix_concat_iff.mp hpart).resolve_left hne
  refine if_neg fun hlast => ?_
  have hmem : (0 : UInt8) ∈ List.replicate (savedNumber saved) 1 := hones.subset (List.mem_of_getLast? hlast)
  exact absurd (List.eq_of_mem_replicate hmem) (by decide)

theorem lengthNames_ne_metaFile (k : Nat) : lengthNames k ≠ metaFile := by
  intro h
  have hchars : List.replicate k 'u' = metaFile.toList := by
    rw [← h, lengthNames, String.toList_ofList]
  have hmem : 'm' ∈ List.replicate k 'u' := by
    rw [hchars]
    decide
  have hchar := List.eq_of_mem_replicate hmem
  revert hchar
  decide

/-- A root directory, and calls of which one fails, the flush of the first `save`. -/
def faultyWorld : World where
  tree := { files := ∅, dirs := [[.rootDir]], faults := [false, false, false, false, false, true] }
  holes := []
  secrets := fun _ => Disks.zeroSecrets
  uses := []

/-- A directory is saved, loses a chunk, is loaded by another program and cannot be deleted. -/
def reopenedRun : List ((LifeOp UInt8 × LifeReply UInt8) × Life UInt8 Unit) :=
  react (lifeNext asBytes countedFormat () (fun bytes => [bytes]) lengthNames [.rootDir, .normal "a"])
    { dir := none, world := faultyWorld, drawn := 0 }
    [.new, .change (.append [1, 2]), .save, .load, .change (.append [3]), .save, .change (.remove 0), .crash,
      .load, .chunk 0, .chunk 1, .change (.remove 0), .delete]

theorem directory_reopens_faulty :
    ∃ atr, IsTrace LedgerStep { live := none, saved := none, gone := [], next := 0 } atr ∧
      SideBySide (Tells asBytes countedFormat () lengthNames [.rootDir, .normal "a"]) atr reopenedRun :=
  directory_reopens asBytes (fun _ => rfl) countedFormat () countedFormat_inverts countedFormat_begins _
    (fun _ => List.flatten_singleton) lengthNames lengthNames_injective lengthNames_ne_metaFile
    [.rootDir, .normal "a"] faultyWorld rfl reopenedRun (isTrace_react _ _ _)

/-- The first `save` fails, and what it was to write is loaded: its writer has written it when it was
dropped. -/
example : reopenedRun.map (fun x => x.1.2) =
    [.done, .done, .failed (.write (.writeErr (.file .failed))), .done, .done, .done,
      .done, .done, .done, .failed (.chunk (.file .notFound)), .chunk (some [3]),
      .failed (.chunk (.file .notFound)), .failed (.file .notFound)] := by
  decide +kernel

end BackedData.Directory
