/-
# BackedData.Directory.SaveLoad — the description of a directory, written to its `meta.dat` and read back

`save` and `load` of `directory/sync_impl.rs`.  What is written is what serde keeps of the array
(`Saved`): the tables, the root, and of every entry the path of its disk and the coder.  Both build the disk
of `meta.dat` from its path, `load` another one than `save`, and `load` builds every disk of the array anew.
So what comes back depends on what a newly built disk makes of the bytes that a newly built disk has written;
`load_exact` says when that is the array.
-/
import BackedData.Directory.Reroot
import Mathlib.Logic.Encodable.Basic
import Mathlib.Logic.Equiv.List

namespace BackedData.Directory

open Logic.Aead (Lawful)
open Logic.Files
open Logic.Outcome
open Logic.Stateful
open BackedData.Entry
open BackedData.Array
open BackedData.Disks (Aes Encrypted EncryptedWriter KeyNonce MmapWriter vectorAes vectorAes_lawful
  zeroBlockSealed zeroSecrets)

set_option autoImplicit false

/-! ## The operations -/

/-- `DiskWriteErr`. -/
inductive DiskWriteErr where
  | writeErr (e : DiskError)
  | ioErr (e : DiskError)
  | diskErr (e : DiskError)
  deriving DecidableEq, Repr

/-- `DiskReadErr`. -/
inductive DiskReadErr where
  | readErr (e : DiskError)
  | ioErr (e : DiskError)
  | diskErr (e : DiskError)
  deriving DecidableEq, Repr

/-- What serde keeps of a `DirectoryBackedArray`: a chunk in memory is skipped, and of a disk the path is
kept. -/
structure Saved (C : Type) where
  keyStarts : List Nat
  keyEnds : List Nat
  entries : List (Path String × C)
  directoryRoot : Path String
  deriving DecidableEq, Repr

section Operations

variable {T D C K : Type} [AsRefPath D]

/-- `Deserialize` of the entries: a disk from its path, and an empty cell. -/
def deserializeEntries (ops : PathDisk D) : List (Path String × C) → DiskM (List (Chunk T D C))
  | [] => pure []
  | (path, coder) :: saved => do
      let disk ← ops.deserialize path
      let entries ← deserializeEntries ops saved
      pure (.new disk coder :: entries)

namespace DirectoryBackedArray

/-- `Serialize`. -/
def serialize (self : DirectoryBackedArray T D C) : Saved C where
  keyStarts := self.array.keyStarts
  keyEnds := self.array.keyEnds
  entries := self.array.entries.map fun e => (AsRefPath.path e.disk, e.coder)
  directoryRoot := self.directoryRoot

/-- `Deserialize`. -/
def deserialize (ops : PathDisk D) (saved : Saved C) : DiskM (DirectoryBackedArray T D C) := do
  let entries ← deserializeEntries ops saved.entries
  pure
    { array := { keyStarts := saved.keyStarts, keyEnds := saved.keyEnds, entries }
      directoryRoot := saved.directoryRoot }

/-- `save`. -/
def save (ops : PathDisk D) (codec : Codec (Saved C) K) (coder : K) (self : DirectoryBackedArray T D C) :
    Method DiskWriteErr World Unit := do
  let disk ← (ops.tryFrom (self.directoryRoot.join metaFile)).mapError .diskErr
  let disk ← (ops.writeDisk disk).mapError .ioErr
  (ops.writeAll (codec.encode coder self.serialize) disk).mapError .writeErr

/-- `load`. -/
def load (ops : PathDisk D) (codec : Codec (Saved C) K) (coder : K) (root : Path String) :
    Method DiskReadErr World (DirectoryBackedArray T D C) := do
  let disk ← (ops.tryFrom (root.join metaFile)).mapError .readErr
  let disk ← (ops.readDisk disk).mapError .ioErr
  (do
    let bytes ← ops.readToEnd disk
    let saved ← decodeBytes codec coder bytes
    deserialize ops saved).mapError .diskErr

end DirectoryBackedArray

end Operations

/-! ## Loading -/

/-- **`Restored saved a`** — the array is in the directory of this description, with its tables and its
disks, and no chunk is loaded. -/
structure Restored {T D C : Type} [AsRefPath D] (saved : Saved C) (a : DirectoryBackedArray T D C) : Prop where
  directoryRoot : a.directoryRoot = saved.directoryRoot
  keyStarts : a.array.keyStarts = saved.keyStarts
  keyEnds : a.array.keyEnds = saved.keyEnds
  paths : (a.array.entries.map fun e => AsRefPath.path e.disk) = saved.entries.map Prod.fst
  unloaded : ∀ e ∈ a.array.entries, e.isLoaded = false

/-- Two descriptions that differ at most in the coders. -/
structure SameLayout {C : Type} (saved saved' : Saved C) : Prop where
  directoryRoot : saved.directoryRoot = saved'.directoryRoot
  keyStarts : saved.keyStarts = saved'.keyStarts
  keyEnds : saved.keyEnds = saved'.keyEnds
  paths : saved.entries.map Prod.fst = saved'.entries.map Prod.fst

/-- The files of these paths can be opened, if that is what building a disk does. -/
def AllOpen {D : Type} (spec : DiskSpec D) (paths : List (Path String)) (w : World) : Prop :=
  spec.creates = true → ∀ p ∈ paths, w.tree.CanOpen p

theorem allOpen_congr {D : Type} {spec : DiskSpec D} {paths : List (Path String)} {w w' : World}
    (h : spec.creates = true → ∀ q, w'.tree.CanOpen q ↔ w.tree.CanOpen q) :
    AllOpen spec paths w' ↔ AllOpen spec paths w :=
  forall_congr' fun hcreates => forall₂_congr fun q _ => h hcreates q

section Loading

variable {T D C K : Type} [AsRefPath D] {ops : PathDisk D} {spec : DiskSpec D}
variable {codec : Codec (Saved C) K} {coder : K} {saved saved' : Saved C} {root path q : Path String}
variable {w w' : World} {disk : D} {stored : List UInt8}

theorem SameLayout.refl (saved : Saved C) : SameLayout saved saved := ⟨rfl, rfl, rfl, rfl⟩

theorem Restored.sameLayout {a : DirectoryBackedArray T D C} (h : Restored saved a) (h' : Restored saved' a) :
    SameLayout saved saved' :=
  ⟨h.directoryRoot.symm.trans h'.directoryRoot, h.keyStarts.symm.trans h'.keyStarts,
    h.keyEnds.symm.trans h'.keyEnds, h.paths.symm.trans h'.paths⟩

theorem Restored.congr {a : DirectoryBackedArray T D C} (h : Restored saved a) (hs : SameLayout saved saved') :
    Restored saved' a :=
  ⟨h.directoryRoot.trans hs.directoryRoot, h.keyStarts.trans hs.keyStarts, h.keyEnds.trans hs.keyEnds,
    h.paths.trans hs.paths, h.unloaded⟩

/-- Building a disk that creates its file does not change which files can be opened. -/
theorem Built.canOpen (h : Built spec path w disk w') (hcreates : spec.creates = true) (q : Path String) :
    w'.tree.CanOpen q ↔ w.tree.CanOpen q := by
  by_cases hq : q = path
  · have hcan := h.opened hcreates
    have hfile := h.file
    rw [if_pos hcreates] at hfile
    rw [hq]
    refine ⟨fun _ => hcan, fun _ => ⟨h.grows.dirs ▸ hcan.1, fun hnone => ?_⟩⟩
    rw [hfile] at hnone
    cases hnone
  · exact FileTree.canOpen_congr h.grows.dirs (by rw [h.others q hq])

theorem deserializeEntries_restored (h : Follows ops spec) (entries : List (Path String × C)) (w : World) :
    Meets (deserializeEntries ops entries : DiskM (List (Chunk T D C))) w
      (sure (w.tree.faults = [] ∧ AllOpen spec (entries.map Prod.fst) w)
        (fun chunks _ => (chunks.map fun e => AsRefPath.path e.disk) = entries.map Prod.fst ∧
          (∀ e ∈ chunks, e.isLoaded = false) ∧ AllOpen spec (entries.map Prod.fst) w) fun _ => True) := by
  induction entries generalizing w with
  | nil => exact ⟨rfl, nofun, fun _ => nofun⟩
  | cons entry entries ih =>
      obtain ⟨path, coder⟩ := entry
      unfold deserializeEntries
      rw [meets_bind, h.deserialize]
      have hfirst : w.tree.faults = [] ∧ AllOpen spec (((path, coder) :: entries).map Prod.fst) w →
          w.tree.faults = [] ∧ (spec.creates = true → w.tree.CanOpen path) := fun hc =>
        ⟨hc.1, fun hcreates => hc.2 hcreates path List.mem_cons_self⟩
      refine ((h.tryFrom path w).assume hfirst).mono (fun disk t hb => ?_) (fun _ _ he => ⟨he.1, trivial⟩)
        fun _ hp => hp
      have hopens : AllOpen spec (entries.map Prod.fst) t ↔ AllOpen spec (entries.map Prod.fst) w :=
        allOpen_congr hb.canOpen
      show Meets (deserializeEntries ops entries >>= fun entries => pure (.new disk coder :: entries)) t _
      rw [meets_bind]
      have hrest : w.tree.faults = [] ∧ AllOpen spec (((path, coder) :: entries).map Prod.fst) w →
          t.tree.faults = [] ∧ AllOpen spec (entries.map Prod.fst) t := fun hc =>
        ⟨hb.grows.calm hc.1, hopens.mpr fun hcreates q hq => hc.2 hcreates q (List.mem_cons_of_mem _ hq)⟩
      refine ((ih t).assume hrest).mono (fun chunks _ hr => ?_) (fun _ _ he => he) fun _ hp => hp
      obtain ⟨hpaths, hunloaded, hall⟩ := hr
      refine ⟨?_, ?_, fun hcreates q hq => ?_⟩
      · rw [List.map_cons, List.map_cons, hpaths]
        exact congrArg (· :: _) hb.named
      · intro e he
        rcases List.mem_cons.mp he with rfl | he
        · rfl
        · exact hunloaded e he
      · rcases List.mem_cons.mp hq with rfl | hq
        · exact hb.opened hcreates
        · exact hopens.mp hall hcreates q hq

/-- What a newly built disk with these secrets makes of the bytes of its file is this description. -/
def Describes (spec : DiskSpec D) (codec : Codec (Saved C) K) (coder : K) (secrets : KeyNonce)
    (stored : List UInt8) (saved : Saved C) : Prop :=
  ∃ out, spec.fresh secrets stored = some out ∧ codec.decode coder out = some saved

/-- The second half of `load`: what has been read is decoded, and the disks are built. -/
theorem decoded_restored (h : Follows ops spec) (out : List UInt8) (w : World) :
    Meets (decodeBytes codec coder out >>= DirectoryBackedArray.deserialize ops :
        DiskM (DirectoryBackedArray T D C)) w
      (sure (w.tree.faults = [] ∧ ∃ saved, codec.decode coder out = some saved ∧
          AllOpen spec (saved.entries.map Prod.fst) w)
        (fun a _ => ∃ saved, codec.decode coder out = some saved ∧
          AllOpen spec (saved.entries.map Prod.fst) w ∧ Restored saved a) fun _ => True) := by
  rw [meets_bind]
  unfold decodeBytes
  rcases hd : codec.decode coder out with _ | saved
  · refine ⟨?_, trivial⟩
    rintro ⟨-, saved, hsome, -⟩
    cases hsome
  · show Meets (deserializeEntries ops saved.entries >>= fun entries => pure _) w _
    rw [meets_bind]
    have hcond : (w.tree.faults = [] ∧ ∃ s, some saved = some s ∧
        AllOpen spec (s.entries.map Prod.fst) w) →
        w.tree.faults = [] ∧ AllOpen spec (saved.entries.map Prod.fst) w := by
      rintro ⟨hcalm, s, hs, hopen⟩
      cases hs
      exact ⟨hcalm, hopen⟩
    refine ((deserializeEntries_restored h saved.entries w).assume hcond).mono (fun entries _ hr => ?_)
      (fun _ _ he => he) fun _ hp => hp
    exact ⟨saved, rfl, hr.2.2, rfl, rfl, rfl, hr.1, hr.2.1⟩

/-- A disk is read, and what it gives is restored. -/
theorem read_restored (h : Follows ops spec) (hcalm : w.tree.faults = [])
    (hc : w.tree.content (AsRefPath.path disk) = some stored) (hsettled : spec.settled disk stored) :
    Meets (ops.readDisk disk >>= fun source => ops.readToEnd source >>= fun out =>
        decodeBytes codec coder out >>= DirectoryBackedArray.deserialize ops :
        DiskM (DirectoryBackedArray T D C)) w
      (sure (∃ out saved, spec.reads disk stored = some out ∧ codec.decode coder out = some saved ∧
          AllOpen spec (saved.entries.map Prod.fst) w)
        (fun a _ => ∃ out saved, spec.reads disk stored = some out ∧ codec.decode coder out = some saved ∧
          AllOpen spec (saved.entries.map Prod.fst) w ∧ Restored saved a) fun _ => True) := by
  have hread := h.read disk w fun bytes hbytes => Option.some.inj (hc.symm.trans hbytes) ▸ hsettled
  have hreads : (∃ out saved, spec.reads disk stored = some out ∧ codec.decode coder out = some saved ∧
      AllOpen spec (saved.entries.map Prod.fst) w) → w.tree.faults = [] ∧
        ∃ bytes, w.tree.content (AsRefPath.path disk) = some bytes ∧ spec.reads disk bytes ≠ none := by
    rintro ⟨out, saved, hout, -⟩
    refine ⟨hcalm, stored, hc, ?_⟩
    rw [hout]
    nofun
  refine (hread.assume hreads).andThen fun out v hv => ?_
  obtain ⟨hsame, bytes, hbytes, hout⟩ := hv
  rw [Option.some.inj (hbytes.symm.trans hc)] at hout
  have hopen : ∀ paths, AllOpen spec paths v ↔ AllOpen spec paths w := fun _ =>
    allOpen_congr fun _ q => FileTree.canOpen_congr hsame.dirs (by rw [hsame.content])
  have hcond : (∃ out saved, spec.reads disk stored = some out ∧ codec.decode coder out = some saved ∧
      AllOpen spec (saved.entries.map Prod.fst) w) → v.tree.faults = [] ∧
        ∃ saved, codec.decode coder out = some saved ∧ AllOpen spec (saved.entries.map Prod.fst) v := by
    rintro ⟨out', saved, hout', hd, hall⟩
    rw [hout] at hout'
    rw [← Option.some.inj hout'] at hd
    exact ⟨hsame.calm hcalm, saved, hd, (hopen _).mpr hall⟩
  refine ((decoded_restored h out v).assume hcond).imp (fun a _ ha => ?_) fun _ ht => ht
  obtain ⟨saved, hd, hall, hr⟩ := ha
  exact ⟨out, saved, hout, hd, (hopen _).mp hall, hr⟩

/-- **`load`**, where there is a `meta.dat` and no call fails by itself. -/
theorem load_restored (codec : Codec (Saved C) K) (coder : K) (h : Follows ops spec)
    (hcalm : w.tree.faults = [])
    (hc : w.tree.content (root.join metaFile) = some stored)
    (hopen : spec.creates = true → w.tree.CanOpen (root.join metaFile)) :
    Meets (DirectoryBackedArray.load ops codec coder root :
        Method DiskReadErr World (DirectoryBackedArray T D C)) w
      (sure (∃ saved, Describes spec codec coder (w.secrets 0) stored saved ∧
          AllOpen spec (saved.entries.map Prod.fst) w)
        (fun a _ => ∃ saved, Describes spec codec coder (w.secrets 0) stored saved ∧
          AllOpen spec (saved.entries.map Prod.fst) w ∧ Restored saved a) fun _ => True) := by
  have hbuilt : Meets (ops.tryFrom (root.join metaFile) >>= fun disk => ops.readDisk disk >>= fun source =>
      ops.readToEnd source >>= fun out => decodeBytes codec coder out >>=
        DirectoryBackedArray.deserialize ops : DiskM (DirectoryBackedArray T D C)) w
      (sure (∃ saved, Describes spec codec coder (w.secrets 0) stored saved ∧
          AllOpen spec (saved.entries.map Prod.fst) w)
        (fun a _ => ∃ saved, Describes spec codec coder (w.secrets 0) stored saved ∧
          AllOpen spec (saved.entries.map Prod.fst) w ∧ Restored saved a) fun _ => True) := by
    rw [meets_bind]
    refine (h.tryFrom (root.join metaFile) w).mono (fun disk t hb => ?_)
      (fun _ _ he => absurd ⟨hcalm, hopen⟩ he.1) fun _ hp => absurd ⟨hcalm, hopen⟩ hp
    have hct := hb.grows.kept _ _ hc
    have hopent : ∀ paths, AllOpen spec paths t ↔ AllOpen spec paths w := fun _ =>
      allOpen_congr hb.canOpen
    have hreads : (∃ saved, Describes spec codec coder (w.secrets 0) stored saved ∧
        AllOpen spec (saved.entries.map Prod.fst) w) → ∃ out saved, spec.reads disk stored = some out ∧
          codec.decode coder out = some saved ∧ AllOpen spec (saved.entries.map Prod.fst) t := by
      rintro ⟨saved, ⟨out, hout, hd⟩, hall⟩
      rw [← hb.reads] at hout
      exact ⟨out, saved, hout, hd, (hopent _).mpr hall⟩
    refine ((read_restored h (hb.grows.calm hcalm) (hb.named ▸ hct) (hb.settled _ hct)).assume hreads).imp
      (fun a _ ha => ?_) fun _ ht => ht
    obtain ⟨out, saved, hout, hd, hall, hr⟩ := ha
    rw [hb.reads] at hout
    exact ⟨saved, ⟨out, hout, hd⟩, (hopent _).mp hall, hr⟩
  unfold DirectoryBackedArray.load
  exact hbuilt.mapError_bind _ fun disk t hread => hread.mapError_bind _ fun source u hu => hu.mapError _

/-- **When `load` restores a description**: the disk of `meta.dat` gives one with the same layout, and where
disks create their files, every file can be opened. -/
theorem load_restores_iff (h : Follows ops spec) (hcalm : w.tree.faults = [])
    (hc : w.tree.content (root.join metaFile) = some stored)
    (hopen : spec.creates = true → w.tree.CanOpen (root.join metaFile)) :
    (∃ (a : DirectoryBackedArray T D C) (w' : World),
        DirectoryBackedArray.load ops codec coder root w = .ok (.ok a, w') ∧ Restored saved a) ↔
      ∃ saved', Describes spec codec coder (w.secrets 0) stored saved' ∧ SameLayout saved' saved ∧
        AllOpen spec (saved.entries.map Prod.fst) w := by
  have hload := load_restored (T := T) codec coder h hcalm hc hopen
  constructor
  · rintro ⟨a, w', hrun, hr⟩
    obtain ⟨saved', hd, hall, hr'⟩ := hload.ok hrun
    have hs := hr'.sameLayout hr
    exact ⟨saved', hd, hs, hs.paths ▸ hall⟩
  · rintro ⟨saved', hd, hs, hall⟩
    obtain ⟨a, w', hrun⟩ := hload.returns ⟨saved', hd, hs.paths ▸ hall⟩
    obtain ⟨saved'', hd', -, hr⟩ := hload.ok hrun
    refine ⟨a, w', hrun, ?_⟩
    obtain ⟨out, hout, hdec⟩ := hd
    obtain ⟨out', hout', hdec'⟩ := hd'
    rw [hout] at hout'
    rw [Option.some.inj hout', hdec'] at hdec
    exact hr.congr (Option.some.inj hdec ▸ hs)

end Loading

/-! ## Saving -/

section Saving

variable {D : Type} {path : Path String} {w : World}

/-- Build a disk from a path, open it for writing, and write everything. -/
def writeNew (ops : PathDisk D) (path : Path String) (bytes : List UInt8) : DiskM Unit := do
  let disk ← ops.tryFrom path
  let target ← ops.writeDisk disk
  ops.writeAll bytes target

/-- `save` writes what the description is encoded as. -/
theorem save_meets {T C K : Type} [AsRefPath D] {ops : PathDisk D} {codec : Codec (Saved C) K} {coder : K}
    {a : DirectoryBackedArray T D C} {P : Unit → World → Prop}
    (h : Meets (writeNew ops (a.directoryRoot.join metaFile) (codec.encode coder a.serialize)) w
      (onSuccess P)) : Meets (a.save ops codec coder) w (onSuccess P) := by
  unfold DirectoryBackedArray.save
  exact h.mapError_bind _ fun disk t hwrite => hwrite.mapError_bind _ fun target u hu => hu.mapError _

/-- **`Written spec path bytes w w'`** — the bytes have been written to the file at this path, so that every
newly built disk reads them. -/
structure Written (spec : DiskSpec D) (path : Path String) (bytes : List UInt8) (w w' : World) : Prop where
  fresh : ∃ stored, w'.tree.content path = some stored ∧ ∀ secrets, spec.fresh secrets stored = some bytes
  opened : spec.creates = true → w'.tree.CanOpen path
  canOpen : spec.creates = true → ∀ q, w'.tree.CanOpen q ↔ w.tree.CanOpen q

/-- A disk that stores what it is given. -/
def Stores (ops : PathDisk D) (spec : DiskSpec D) : Prop :=
  ∀ path bytes w, Meets (writeNew ops path bytes) w (onSuccess fun _ => Written spec path bytes w)

theorem fileDisk_stores [AsRefPath D] {make : Path String → D}
    (hmake : ∀ path, AsRefPath.path (make path) = path) : Stores (fileDisk make) (fileSpec D) := by
  intro path bytes w
  show Meets ((onTree (FileTree.openWrite (AsRefPath.path (make path))) >>= fun _ =>
    pure (AsRefPath.path (make path))) >>= fun file => onTree (FileTree.write file bytes)) w _
  rw [hmake, meets_bind, meets_bind, meets_onTree]
  refine ⟨fun _ t _ => ?_, fun _ _ _ => ⟨id, trivial⟩⟩
  show Meets (onTree (FileTree.write path bytes)) { w with tree := t } _
  rw [meets_onTree]
  refine ⟨fun _ u hwrite => ?_, fun _ _ _ => ⟨id, trivial⟩⟩
  exact ⟨⟨bytes, FileTree.write_ok hwrite, fun _ => rfl⟩, nofun, nofun⟩

/-! ### Buffered files -/

/-- **`Streamed path tree handed self t`** — a `BufWriter` on this file, which it alone has changed: what has
been handed over is in the file, and the rest of it in the buffer. -/
structure Streamed (path : Path String) (tree : FileTree String) (handed : List UInt8) (self : BufWriter)
    (t : FileTree String) : Prop where
  named : self.path = path
  file : ∃ written, t.content path = some written ∧ written ++ self.buffer = handed
  others : ∀ q, q ≠ path → t.content q = tree.content q

section Buffered

variable {self self' : BufWriter} {handed bytes : List UInt8} {pieces : List (List UInt8)}
variable {tree t u : FileTree String} {r : Except FileError Unit}

/-- Bytes that are written past an empty buffer. -/
theorem Streamed.append (h : Streamed path tree handed self t) (hempty : self.buffer = [])
    (happend : t.append self.path bytes = (r, u)) :
    (r = .ok () → Streamed path tree (handed ++ bytes) self u) ∧
      ∀ e, r = .error e → Streamed path tree handed self u := by
  obtain ⟨rfl, ⟨written, hc, rfl⟩, hothers⟩ := h
  have hcontent := FileTree.append_content self.path bytes t
  have hrest : ∀ q, q ≠ self.path → u.content q = tree.content q := fun q hq => by
    have hsame := FileTree.append_others bytes t hq
    rw [happend] at hsame
    exact hsame.trans (hothers q hq)
  rw [happend, hc] at hcontent
  rw [hempty, List.append_nil]
  refine ⟨?_, ?_⟩
  · rintro rfl
    rw [(FileTree.unlessFault_ok happend).1] at hcontent
    exact ⟨rfl, ⟨written ++ bytes, hcontent, by rw [hempty, List.append_nil]⟩, hrest⟩
  · rintro e rfl
    rw [FileTree.append_error happend] at hcontent
    exact ⟨rfl, ⟨written, hcontent, by rw [hempty, List.append_nil]⟩, hrest⟩

/-- A flush moves bytes from the buffer to the file. -/
theorem Streamed.flushBuf (h : Streamed path tree handed self t) (hflush : self.flushBuf t = (r, self', u)) :
    Streamed path tree handed self' u ∧ (r = .ok () → self'.buffer = []) := by
  unfold BufWriter.flushBuf at hflush
  by_cases hempty : self.buffer = []
  · rw [if_pos hempty] at hflush
    cases hflush
    exact ⟨h, fun _ => hempty⟩
  · rw [if_neg hempty] at hflush
    obtain ⟨rfl, ⟨written, hc, rfl⟩, hothers⟩ := h
    -- to the file, the buffer is bytes that are written past an empty one
    have hcleared : Streamed self.path tree written { self with buffer := [] } t :=
      ⟨rfl, ⟨written, hc, List.append_nil written⟩, hothers⟩
    rcases happend : t.append self.path self.buffer with ⟨e | _, v⟩
    · obtain ⟨-, herror⟩ := hcleared.append rfl happend
      obtain ⟨-, ⟨written', hc', hwritten⟩, hothers'⟩ := herror e rfl
      rw [happend] at hflush
      cases hflush
      rw [List.append_nil] at hwritten
      exact ⟨⟨rfl, ⟨written, hwritten ▸ hc', rfl⟩, hothers'⟩, nofun⟩
    · obtain ⟨hok, -⟩ := hcleared.append rfl happend
      rw [happend] at hflush
      cases hflush
      exact ⟨hok rfl, fun _ => rfl⟩

/-- One piece. -/
theorem Streamed.writeAll (h : Streamed path tree handed self t)
    (hwrite : BufWriter.writeAll bytes self t = (r, self', u)) :
    (r = .ok () → Streamed path tree (handed ++ bytes) self' u) ∧
      ∀ e, r = .error e → Streamed path tree handed self' u := by
  -- what is written past the buffer finds it empty
  have hrest : ∀ {self : BufWriter} {t : FileTree String}, Streamed path tree handed self t →
      (BufWriter.capacity ≤ bytes.length → self.buffer = []) →
      (if bytes.length < BufWriter.capacity then
          (.ok (), { self with buffer := self.buffer ++ bytes }, t)
        else ((t.append self.path bytes).1, self, (t.append self.path bytes).2)) = (r, self', u) →
      (r = .ok () → Streamed path tree (handed ++ bytes) self' u) ∧
        ∀ e, r = .error e → Streamed path tree handed self' u := by
    intro self t h hempty hrun
    by_cases hsmall : bytes.length < BufWriter.capacity
    · rw [if_pos hsmall] at hrun
      cases hrun
      obtain ⟨hnamed, ⟨written, hc, rfl⟩, hothers⟩ := h
      exact ⟨fun _ => ⟨hnamed, ⟨written, hc, (List.append_assoc _ _ _).symm⟩, hothers⟩, nofun⟩
    · rw [if_neg hsmall] at hrun
      cases hrun
      exact h.append (hempty (Nat.le_of_not_lt hsmall)) rfl
  unfold BufWriter.writeAll at hwrite
  by_cases hfits : BufWriter.capacity - self.buffer.length < bytes.length
  · rw [if_pos hfits] at hwrite
    rcases hflush : self.flushBuf t with ⟨e | _, v, w⟩
    · rw [hflush] at hwrite
      cases hwrite
      exact ⟨nofun, fun _ _ => (h.flushBuf hflush).1⟩
    · rw [hflush] at hwrite
      obtain ⟨hflushed, hempty⟩ := h.flushBuf hflush
      exact hrest hflushed (fun _ => hempty rfl) hwrite
  · rw [if_neg hfits] at hwrite
    refine hrest h (fun hlarge => ?_) hwrite
    have hcapacity : 0 < BufWriter.capacity := by decide
    exact List.eq_nil_of_length_eq_zero (by omega)

/-- All pieces, or the first of them. -/
theorem Streamed.writePieces (h : Streamed path tree handed self t)
    (hwrite : BufWriter.writePieces pieces self t = (r, self', u)) :
    (r = .ok () → Streamed path tree (handed ++ pieces.flatten) self' u) ∧
      ∀ e, r = .error e → ∃ handed', handed' <+: handed ++ pieces.flatten ∧
        Streamed path tree handed' self' u := by
  induction pieces generalizing handed self t with
  | nil =>
      cases hwrite
      rw [List.flatten_nil, List.append_nil]
      exact ⟨fun _ => h, nofun⟩
  | cons piece pieces ih =>
      rw [List.flatten_cons, ← List.append_assoc]
      unfold BufWriter.writePieces at hwrite
      rcases hpiece : BufWriter.writeAll piece self t with ⟨e | _, v, w⟩
      · rw [hpiece] at hwrite
        cases hwrite
        refine ⟨nofun, fun _ _ => ⟨handed, ?_, (h.writeAll hpiece).2 e rfl⟩⟩
        rw [List.append_assoc]
        exact List.prefix_append _ _
      · rw [hpiece] at hwrite
        exact ih ((h.writeAll hpiece).1 rfl) hwrite

/-- **What is written out**: all the bytes, or a beginning of them. -/
theorem writeOut_spec (hempty : tree.content path = some [])
    (hwrite : BufWriter.writeOut pieces { path, buffer := [] } tree = (r, t)) :
    (∀ q, q ≠ path → t.content q = tree.content q) ∧
      (r = .ok () → t.content path = some pieces.flatten) ∧
      ∀ e, r = .error e → ∃ written, written <+: pieces.flatten ∧ t.content path = some written := by
  have hnew : Streamed path tree [] { path, buffer := [] } tree := ⟨rfl, ⟨[], hempty, rfl⟩, fun _ _ => rfl⟩
  unfold BufWriter.writeOut at hwrite
  rcases hpieces : BufWriter.writePieces pieces { path, buffer := [] } tree with ⟨e | _, self, u⟩
  · obtain ⟨handed, hbegins, hstreamed⟩ := (hnew.writePieces hpieces).2 e rfl
    rw [List.nil_append] at hbegins
    rw [hpieces] at hwrite
    obtain ⟨⟨-, ⟨written, hc, rfl⟩, hothers⟩, -⟩ := hstreamed.flushBuf rfl
    cases hwrite
    exact ⟨hothers, nofun, fun _ _ => ⟨written, (List.prefix_append _ _).trans hbegins, hc⟩⟩
  · have hstreamed := (hnew.writePieces hpieces).1 rfl
    rw [List.nil_append] at hstreamed
    rw [hpieces] at hwrite
    dsimp only at hwrite
    rcases hflush : self.flushBuf u with ⟨r', self', v⟩
    rw [hflush] at hwrite
    obtain ⟨hflushed, hbuffer⟩ := hstreamed.flushBuf hflush
    rcases hdrop : self'.flushBuf v with ⟨r'', self'', x⟩
    obtain ⟨⟨-, ⟨written, hc, hwritten⟩, hothers⟩, -⟩ := hflushed.flushBuf hdrop
    rw [hdrop] at hwrite
    cases hwrite
    refine ⟨hothers, fun hok => ?_, fun _ _ => ⟨written, ⟨self''.buffer, hwritten⟩, hc⟩⟩
    -- behind a flush that has succeeded, the drop has nothing to write
    have hnothing : self'.flushBuf v = (.ok (), self', v) := if_pos (hbuffer hok)
    rw [hnothing] at hdrop
    cases hdrop
    rw [hbuffer hok, List.append_nil] at hwritten
    rw [hc, hwritten]

end Buffered

theorem bufferedDisk_stores {pieces : List UInt8 → List (List UInt8)}
    (hpieces : ∀ bytes, (pieces bytes).flatten = bytes) : Stores (bufferedDisk pieces) (fileSpec Plainfile) := by
  intro path bytes w
  show Meets ((onTree (FileTree.openWrite path) >>= fun _ => pure (BufWriter.mk path [])) >>= fun target =>
    onTree (BufWriter.writeOut (pieces bytes) target)) w _
  rw [meets_bind, meets_bind, meets_onTree]
  refine ⟨fun _ t hopen => ?_, fun _ _ _ => ⟨id, trivial⟩⟩
  show Meets (onTree (BufWriter.writeOut (pieces bytes) ⟨path, []⟩)) { w with tree := t } _
  rw [meets_onTree]
  refine ⟨fun _ u hwrite => ?_, fun _ _ _ => ⟨id, trivial⟩⟩
  obtain ⟨hempty, -⟩ := FileTree.openWrite_ok hopen
  have hall := (writeOut_spec hempty hwrite).2.1 rfl
  rw [hpieces] at hall
  exact ⟨⟨bytes, hall, fun _ => rfl⟩, nofun, nofun⟩

theorem zstdDisk_stores {zstd : Zstd} {level : UInt8} {ops : PathDisk D} {inner : DiskSpec D}
    (hzstd : ∀ level bytes, zstd.decompress (zstd.compress level bytes) = some bytes)
    (h : Stores ops inner) : Stores (zstdDisk zstd level ops) (zstdSpec zstd inner) := by
  intro path bytes w
  have hinner := fun n => h path (zstd.compress n bytes) w
  unfold writeNew at hinner
  refine (meets_bind _ _).mpr ((meets_bind _ _).mpr ?_)
  cases hlevel : zstdLevel level with
  | none =>
      -- the level is out of range, and the inner disk is opened for nothing
      refine (meets_any (ops.tryFrom path) w).mono (fun disk t _ => ?_) (fun _ _ he => he) fun _ hp => hp
      refine (meets_bind _ _).mpr ((meets_bind _ _).mpr ?_)
      refine (meets_any (ops.writeDisk disk) t).mono (fun target u _ => ?_) (fun _ _ he => he)
        fun _ hp => hp
      simp only [hlevel]
      exact ⟨id, trivial⟩
  | some n =>
      refine ((meets_bind _ _).mp (hinner n)).mono (fun disk t ht => ?_) (fun _ _ he => he) fun _ hp => hp
      refine (meets_bind _ _).mpr ((meets_bind _ _).mpr ?_)
      refine ((meets_bind _ _).mp ht).mono (fun target u hu => ?_) (fun _ _ he => he) fun _ hp => hp
      simp only [hlevel]
      show Meets (ops.writeAll (zstd.compress n bytes) target) u _
      refine hu.mono (fun _ v hv => ?_) (fun _ _ he => he) fun _ hp => hp
      obtain ⟨stored, hc, hfresh⟩ := hv.fresh
      refine ⟨⟨stored, hc, fun secrets => ?_⟩, hv.opened, hv.canOpen⟩
      show (inner.fresh secrets stored).bind zstd.decompress = some bytes
      rw [hfresh secrets]
      exact hzstd n bytes

/-! ### Mapped files -/

/-- What is written through the guard and flushed is the file. -/
theorem writeMmap_stores {writer : MmapWriter} {os : Disks.Os} {bytes : List UInt8}
    (h : Disks.Mapped False 0 [] (writer, os)) :
    Meets (writeMmap bytes) (.writeMmap writer 1, os)
      (onSuccess fun _ m => Disks.Settled False bytes true m) := by
  unfold writeMmap
  have hwrite := Disks.MmapWriter.write_mapped h bytes False.elim (by decide)
  apply (Disks.writeGuard_sure hwrite).seq
  intro _ m hm
  obtain ⟨held, os⟩ := m
  obtain ⟨writer, hheld, hmapped⟩ := hm
  cases hheld
  rw [List.nil_append] at hmapped
  apply (Disks.writeGuard_sure (Disks.MmapWriter.flush_flushed hmapped)).seq
  intro _ m hm
  obtain ⟨held, os⟩ := m
  obtain ⟨writer, hheld, hflushed⟩ := hm
  cases hheld
  obtain ⟨⟨sparse, hwriter⟩, hquiet⟩ := hflushed
  cases hwriter
  exact ⟨.writing sparse, hquiet⟩

theorem putOs_canOpen {os : Disks.Os} {file : List UInt8} (hc : w.tree.content path = some file)
    (q : Path String) : (w.putOs path os).tree.CanOpen q ↔ w.tree.CanOpen q := by
  refine FileTree.canOpen_congr rfl ?_
  by_cases hq : q = path
  · rw [hq, putOs_content_self, hc]
    exact ⟨nofun, nofun⟩
  · rw [putOs_content_ne w os hq]

theorem mmapDisk_stores : Stores mmapDisk mmapSpec := by
  intro path bytes w
  unfold writeNew
  rw [meets_bind]
  refine (mmap_tryFrom path w).mono (fun disk t hb => ?_) (fun _ _ _ => ⟨id, trivial⟩) fun _ _ => id
  obtain ⟨hb, hidle⟩ := hb
  have hc : t.tree.content path = some ((w.tree.content path).getD []) := hb.file
  have hpath : disk.path = path := hb.named
  show Meets ((onFile disk.path (holding disk.mmap Disks.Mmap.writeDisk) >>= fun r =>
    pure (MmapDisk.mk disk.path r.2)) >>= fun target => mmapDisk.writeAll bytes target) t _
  rw [hpath, meets_bind, meets_bind, meets_onFile hc, meets_holding]
  have hsettled : Disks.Settled False ((w.tree.content path).getD []) false (disk.mmap, t.toOs _) :=
    ⟨hidle _ hc, rfl, False.elim⟩
  have hopened : Meets Disks.Mmap.writeDisk (disk.mmap, t.toOs _) (sure False (fun _ m => ∃ writer,
      m.1 = .writeMmap writer 1 ∧ Disks.Mapped False 0 [] (writer, m.2)) fun _ => True) :=
    Disks.writeDisk_settled hsettled False.elim
  refine hopened.mono (fun _ m hm => ?_) (fun _ _ _ => ⟨id, trivial⟩) fun _ _ => id
  obtain ⟨held, os⟩ := m
  obtain ⟨writer, hheld, hmapped⟩ := hm
  cases hheld
  have hcos := putOs_content_self t path os
  refine (meets_bind _ _).mpr ((meets_onFile hcos).mpr (meets_holding.mpr ((meets_attempt _).mpr ?_)))
  refine (writeMmap_stores hmapped).mono (fun _ m hm => ?_) (fun e m _ => ?_) fun _ hp => hp
  · obtain ⟨held, os'⟩ := m
    obtain ⟨hheld, hquiet⟩ := hm
    cases hheld with
    | writing sparse =>
        show Meets (dropMmap _ >>= _) _ _
        unfold dropMmap
        simp only [Nat.lt_irrefl, if_false]
        refine ⟨⟨bytes, ?_, fun _ => rfl⟩, fun _ => ?_, fun _ q => ?_⟩
        · exact (putOs_content_self _ path _).trans (congrArg some hquiet.file)
        · rw [putOs_canOpen hcos, putOs_canOpen hc, hb.canOpen rfl]
          exact hb.opened rfl
        · rw [putOs_canOpen hcos, putOs_canOpen hc, hb.canOpen rfl]
  · exact meets_last fun _ _ => ⟨id, trivial⟩

theorem PlainType.stores : (file : PlainType) → Stores file.ops file.spec
  | .plainfile => bufferedDisk_stores fun _ => List.flatten_singleton
  | .unbuffered => fileDisk_stores fun _ => rfl
  | .writeUnbuffered => fileDisk_stores fun _ => rfl

/-- **Every disk but `Encrypted` stores what it is given.** -/
theorem DiskType.stores (crates : Crates)
    (hzstd : ∀ level bytes, crates.zstd.decompress (crates.zstd.compress level bytes) = some bytes) :
    (t : DiskType) → t ≠ .encrypted → Stores (t.ops crates) (t.spec crates)
  | .plain file, _ => file.stores
  | .zstd _ inner, _ => zstdDisk_stores hzstd inner.stores
  | .mmap, _ => mmapDisk_stores
  | .encrypted, hne => absurd rfl hne

/-! ### Encryption -/

/-- What was sealed fits the buffer of the `BufWriter`, and the write that is made when that is dropped is to
fail: the second call on the files. -/
def Lost (stored : List UInt8) (w : World) : Prop :=
  stored.length < BufWriter.capacity ∧ w.tree.faults[1]? = some true

instance (stored : List UInt8) (w : World) : Decidable (Lost stored w) :=
  inferInstanceAs (Decidable (_ ∧ _))

/-- One `write_all` into a new buffer, which is then dropped. -/
theorem BufWriter.writeAll_dropped {bytes : List UInt8} {target : BufWriter} {tree t : FileTree String}
    (hne : bytes ≠ []) (hempty : tree.content path = some [])
    (h : BufWriter.writeAll bytes { path, buffer := [] } tree = (.ok (), target, t)) :
    (plainfileRaw.drop target t).content path =
      some (if bytes.length < BufWriter.capacity ∧ tree.failsNext = true then [] else bytes) := by
  have happend := FileTree.append_content path bytes tree
  have hflush : ∀ tree, BufWriter.flushBuf { path, buffer := [] } tree =
      (.ok (), { path, buffer := [] }, tree) := fun _ => rfl
  show (target.flushBuf t).2.2.content path = _
  unfold BufWriter.writeAll at h
  simp only [hflush, ite_self] at h
  by_cases hsmall : bytes.length < BufWriter.capacity
  · -- the bytes are written by the drop
    simp only [if_pos hsmall] at h
    cases h
    unfold BufWriter.flushBuf
    simp only [List.nil_append, if_neg hne]
    rcases hw : tree.append path bytes with ⟨_ | _, u⟩
    all_goals
      rw [hw] at happend
      simp only
      refine happend.trans ?_
      by_cases hfails : tree.failsNext = true
      · rw [if_pos hfails, if_pos ⟨hsmall, hfails⟩, hempty]
      · rw [if_neg hfails, if_neg fun hc => hfails hc.2, hempty]
        rfl
  · simp only [if_neg hsmall] at h
    rcases hw : tree.append path bytes with ⟨_ | _, u⟩
    · simp [hw] at h
    · have hfails := (FileTree.unlessFault_ok hw).1
      rw [hw] at happend
      simp only [hw] at h
      cases h
      rw [hflush, if_neg fun hc => hsmall hc.1]
      refine happend.trans ?_
      rw [hfails, hempty]
      rfl

/-- What the writer of an encrypted disk leaves in its file, when it has been given everything and dropped. -/
theorem encryptedDisk_writeAll {aes : Aes} (hlaw : Lawful aes) (htag : aes.tagSize = 16) {secrets : KeyNonce}
    {bytes : List UInt8} (hempty : w.tree.content path = some []) :
    Meets ((encryptedDisk aes).writeAll bytes (.new { path, buffer := [] } secrets)) w (onSuccess fun _ w' =>
      w'.secrets = w.secrets ∧ ∃ ct tag, aes.encryptDetached secrets.key secrets.nonce bytes = some (ct, tag) ∧
        w'.tree.content path = some
          (if (ct ++ tag).length < BufWriter.capacity ∧ w.tree.failsNext = true then [] else ct ++ tag)) := by
  unfold Meets
  simp only [encryptedDisk]
  generalize hwriter : EncryptedWriter.new ({ path, buffer := [] } : BufWriter) secrets = writer
  rcases hwrite : (writer.write bytes : Except (Disks.EncryptedError FileError) Nat ×
    EncryptedWriter BufWriter) with ⟨_ | n, writer'⟩
  · simp only
    exact ⟨id, trivial⟩
  · obtain ⟨hbuffer, hinner, hsecrets⟩ := EncryptedWriter.write_ok hwrite
    subst hwriter
    simp only
    rcases hflush : writer'.flush aes plainfileRaw w.uses w.tree with ⟨_ | _, last, uses, t⟩
    · simp only
      exact ⟨id, trivial⟩
    · obtain ⟨ct, tag, inner, hseal, hall, hlast⟩ := EncryptedWriter.flush_ok hflush
      rw [hsecrets, hbuffer] at hseal
      rw [hinner] at hall
      have hne : ct ++ tag ≠ [] := by
        intro hnil
        have hlen := (hlaw.length _ _ _ _ _ hseal).2
        rw [(List.append_eq_nil_iff.mp hnil).2, htag] at hlen
        cases hlen
      simp only
      refine ⟨rfl, ct, tag, hseal, ?_⟩
      rw [hlast]
      exact BufWriter.writeAll_dropped hne hempty hall

/-- What an encrypted disk leaves in its file: the bytes sealed under the secrets that were drawn for it,
unless they are lost. -/
theorem encryptedDisk_stores {aes : Aes} (hlaw : Lawful aes) (htag : aes.tagSize = 16) (path : Path String)
    (bytes : List UInt8) (w : World) :
    Meets (writeNew (encryptedDisk aes) path bytes) w (onSuccess fun _ w' =>
      w'.secrets = (fun i => w.secrets (i + 1)) ∧ ∃ ct tag,
        aes.encryptDetached (w.secrets 0).key (w.secrets 0).nonce bytes = some (ct, tag) ∧
        w'.tree.content path = some (if Lost (ct ++ tag) w then [] else ct ++ tag)) := by
  have htry : (encryptedDisk aes).tryFrom path w =
      .ok (.ok ⟨⟨path⟩, w.secrets 0⟩, { w with secrets := fun i => w.secrets (i + 1) }) := rfl
  unfold writeNew
  rw [meets_bind_of_eq htry, meets_bind]
  unfold Meets
  simp only [encryptedDisk, Encrypted.writeDisk, plainfileRaw]
  rcases hopen : w.tree.openWrite path with ⟨_ | _, t⟩
  · exact ⟨id, trivial⟩
  · obtain ⟨hempty, hfaults⟩ := FileTree.openWrite_ok hopen
    have hlost : ∀ stored : List UInt8, stored.length < BufWriter.capacity ∧ t.failsNext = true ↔
        Lost stored w := by
      intro stored
      unfold Lost FileTree.failsNext
      rw [hfaults, List.head?_tail]
      rcases w.tree.faults[1]? with _ | fails
      · simp
      · simp
    have hwrite : Meets ((encryptedDisk aes).writeAll bytes (.new { path, buffer := [] } (w.secrets 0)))
        { w with secrets := fun i => w.secrets (i + 1), tree := t } _ :=
      encryptedDisk_writeAll hlaw htag hempty
    simp only [hlost] at hwrite
    exact hwrite

end Saving

/-! ## The round trip -/

/-- **`LoadsBack crates t codec coder a w`** — nothing that a disk carries beside its path is needed: every
file of an `Mmap` can be opened, as `Deserialize` does; and the secrets that are drawn for the second disk of
`meta.dat` open what is sealed under those of the first, none of which is lost, and give a description with
the same layout, although the tag is read as well. -/
structure LoadsBack {T C K : Type} (crates : Crates) (t : DiskType) (codec : Codec (Saved C) K) (coder : K)
    (a : DirectoryBackedArray T t.Disk C) (w : World) : Prop where
  opens : t = .mmap → ∀ e ∈ a.array.entries, w.tree.CanOpen (AsRefPath.path e.disk)
  secrets : t = .encrypted → ∃ ct tag out saved,
    crates.aes.encryptDetached (w.secrets 0).key (w.secrets 0).nonce (codec.encode coder a.serialize) =
        some (ct, tag) ∧
      ¬Lost (ct ++ tag) w ∧ unsealed crates.aes (w.secrets 1) (ct ++ tag) = some out ∧
      codec.decode coder out = some saved ∧ SameLayout saved a.serialize

section RoundTrip

variable {T C K : Type} {crates : Crates} {t : DiskType} {codec : Codec (Saved C) K} {coder : K}
variable {a : DirectoryBackedArray T t.Disk C} {w w' : World}

/-- The files of the array can be opened by disks that create them. -/
theorem allOpen_iff :
    AllOpen (t.spec crates) (a.serialize.entries.map Prod.fst) w ↔
      (t = .mmap → ∀ e ∈ a.array.entries, w.tree.CanOpen (AsRefPath.path e.disk)) := by
  have hpaths : a.serialize.entries.map Prod.fst = a.array.entries.map fun e => AsRefPath.path e.disk := by
    unfold DirectoryBackedArray.serialize
    rw [List.map_map]
    rfl
  unfold AllOpen
  rw [hpaths, t.creates_iff crates, List.forall_mem_map]

/-- On disks that store what they are given, the description comes back as it is. -/
theorem load_stored_iff (hdecode : codec.decode coder (codec.encode coder a.serialize) = some a.serialize)
    (hw : Written (t.spec crates) (a.directoryRoot.join metaFile) (codec.encode coder a.serialize) w w') :
    (∃ (a' : DirectoryBackedArray T t.Disk C) (w'' : World),
        DirectoryBackedArray.load (t.ops crates) codec coder a.directoryRoot w'.calm = .ok (.ok a', w'') ∧
          Restored a.serialize a') ↔
      (t = .mmap → ∀ e ∈ a.array.entries, w.tree.CanOpen (AsRefPath.path e.disk)) := by
  obtain ⟨stored, hc, hfresh⟩ := hw.fresh
  have hopen : AllOpen (t.spec crates) (a.serialize.entries.map Prod.fst) w'.calm ↔
      AllOpen (t.spec crates) (a.serialize.entries.map Prod.fst) w := allOpen_congr hw.canOpen
  rw [load_restores_iff (w := w'.calm) (t.follows crates) rfl hc hw.opened, hopen, allOpen_iff]
  constructor
  · rintro ⟨-, -, -, hall⟩
    exact hall
  · intro hall
    exact ⟨a.serialize, ⟨_, hfresh _, hdecode⟩, .refl _, hall⟩

/-- On an encrypted disk, another one is asked to read it. -/
theorem load_sealed_iff {aes : Aes} (htag : aes.tagSize = 16) {codec : Codec (Saved C) K}
    {root : Path String} {saved : Saved C} {stored : List UInt8} {lost : Prop} [Decidable lost]
    (hc : w.tree.content (root.join metaFile) = some (if lost then [] else stored)) :
    (∃ (a' : DirectoryBackedArray T (Encrypted Plainfile) C) (w' : World),
        DirectoryBackedArray.load (encryptedDisk aes) codec coder root w.calm = .ok (.ok a', w') ∧
          Restored saved a') ↔
      ¬lost ∧ ∃ out saved', unsealed aes (w.secrets 0) stored = some out ∧
        codec.decode coder out = some saved' ∧ SameLayout saved' saved := by
  rw [load_restores_iff (w := w.calm) (encryptedDisk_follows aes) rfl hc nofun]
  constructor
  · rintro ⟨saved', ⟨out, hout, hd⟩, hs, -⟩
    by_cases hlost : lost
    · -- nothing is no ciphertext, for want of a tag
      rw [if_pos hlost] at hout
      have hshort : unsealed aes (w.secrets 0) [] = none := by
        unfold unsealed Disks.openLoaded Logic.Aead.Cipher.decryptInPlace
        rw [htag]
        rfl
      rw [show (encryptedSpec aes).fresh (w.calm.secrets 0) [] = none from hshort] at hout
      cases hout
    · rw [if_neg hlost] at hout
      exact ⟨hlost, out, saved', hout, hd, hs⟩
  · rintro ⟨hlost, out, saved', hout, hd, hs⟩
    refine ⟨saved', ⟨out, ?_, hd⟩, hs, nofun⟩
    rw [if_neg hlost]
    exact hout

end RoundTrip

/-- **When a saved directory loads.**  The coder inverts, and the crates do what they promise.  If `save`
returns `Ok`, then `load` on the same files (of which no call fails by itself) returns the array with its
root, its tables and its paths, and no chunk loaded, exactly when nothing is needed but the paths. -/
theorem load_exact {T C K : Type} (crates : Crates) (t : DiskType) (codec : Codec (Saved C) K) (coder : K)
    (a : DirectoryBackedArray T t.Disk C) (w w' : World)
    (hzstd : ∀ level bytes, crates.zstd.decompress (crates.zstd.compress level bytes) = some bytes)
    (haes : Lawful crates.aes) (htag : crates.aes.tagSize = 16)
    (hcoder : ∀ saved, codec.decode coder (codec.encode coder saved) = some saved)
    (hsave : a.save (t.ops crates) codec coder w = .ok (.ok (), w')) :
    (∃ (a' : DirectoryBackedArray T t.Disk C) (w'' : World),
        DirectoryBackedArray.load (t.ops crates) codec coder a.directoryRoot w'.calm = .ok (.ok a', w'') ∧
          Restored a.serialize a') ↔
      LoadsBack crates t codec coder a w := by
  by_cases ht : t = .encrypted
  · subst ht
    have hstored := encryptedDisk_stores haes htag (a.directoryRoot.join metaFile)
      (codec.encode coder a.serialize) w
    obtain ⟨hsecrets, ct, tag, hseal, hc⟩ := (save_meets hstored).ok hsave
    refine (load_sealed_iff htag hc).trans ?_
    rw [hsecrets]
    constructor
    · rintro ⟨hlost, out, saved, hout, hd, hs⟩
      exact ⟨nofun, fun _ => ⟨ct, tag, out, saved, hseal, hlost, hout, hd, hs⟩⟩
    · intro h
      obtain ⟨ct', tag', out, saved, hseal', hlost, hout, hd, hs⟩ := h.secrets rfl
      rw [hseal] at hseal'
      cases hseal'
      exact ⟨hlost, out, saved, hout, hd, hs⟩
  · have hwritten := (save_meets (t.stores crates hzstd ht _ _ _)).ok hsave
    rw [load_stored_iff (hcoder _) hwritten]
    exact ⟨fun h => ⟨h, fun hno => absurd hno ht⟩, fun h => h.opens⟩

/-! ### A format -/

instance stringEncodable : Encodable String :=
  .ofLeftInverse (fun s => s.toList.map Char.toNat) (fun codes => .ofList (codes.map Char.ofNat))
    fun s => by
      have hid : Char.ofNat ∘ Char.toNat = id := funext Char.ofNat_toNat
      rw [List.map_map, hid, List.map_id, String.ofList_toList]

instance componentEncodable : Encodable (Component String) :=
  .ofLeftInverse
    (fun
      | .rootDir => none
      | .curDir => some none
      | .parentDir => some (some none)
      | .normal name => some (some (some name)))
    (fun
      | none => .rootDir
      | some none => .curDir
      | some (some none) => .parentDir
      | some (some (some name)) => .normal name)
    fun c => by cases c <;> rfl

instance savedEncodable {C : Type} [Encodable C] : Encodable (Saved C) :=
  .ofLeftInverse (fun s => (s.keyStarts, s.keyEnds, s.entries, s.directoryRoot))
    (fun s => ⟨s.1, s.2.1, s.2.2.1, s.2.2.2⟩) fun _ => rfl

/-- What is kept of `oneBlock`. -/
def oneSaved : Saved Unit :=
  { keyStarts := [0], keyEnds := [16], entries := [([.rootDir, .normal "a", .normal "x"], ())]
    directoryRoot := [.rootDir, .normal "a"] }

/-- A format for descriptions: sixteen zeros for this one, and for every other one a number of zeros that
counts it. -/
def countingFormat : Codec (Saved Unit) Unit where
  encode _ saved := if saved = oneSaved then .replicate 16 0 else .replicate (17 + Encodable.encode saved) 0
  decode _ bytes := if bytes.length = 16 then some oneSaved else Encodable.decode (bytes.length - 17)

theorem countingFormat_inverts (saved : Saved Unit) :
    countingFormat.decode () (countingFormat.encode () saved) = some saved := by
  unfold countingFormat
  by_cases h : saved = oneSaved
  · simp only [if_pos h, List.length_replicate, if_true]
    rw [h]
  · have hlen : 17 + Encodable.encode saved ≠ 16 := by omega
    simp only [if_neg h, List.length_replicate, if_neg hlen, Nat.add_sub_cancel_left]
    exact Encodable.encodek saved

/-- A file of the directory, and the secrets of `save` and of `load`. -/
def twoDraws : World :=
  { oneFile zeroBlockSealed otherSecrets with
    secrets := fun i => if i = 0 then zeroSecrets else otherSecrets }

/-- `save` seals the description of a directory and returns `Ok`; `load` draws other secrets, and returns an
error. -/
theorem sealedSave_unloadable :
    let disk : DiskType.encrypted.Disk := ⟨⟨[.rootDir, .normal "a", .normal "x"]⟩, zeroSecrets⟩
    let ops := DiskType.encrypted.ops vectorCrates
    (∀ level bytes, vectorCrates.zstd.decompress (vectorCrates.zstd.compress level bytes) = some bytes) ∧
      Lawful vectorCrates.aes ∧ vectorCrates.aes.tagSize = 16 ∧
      (∀ saved, countingFormat.decode () (countingFormat.encode () saved) = some saved) ∧
      ∃ w' w'', (oneBlock disk).save ops countingFormat () twoDraws = .ok (.ok (), w') ∧
        (DirectoryBackedArray.load ops countingFormat () (oneBlock disk).directoryRoot w'.calm :
            Exec (Except DiskReadErr (DirectoryBackedArray UInt8 DiskType.encrypted.Disk Unit) × World)) =
          .ok (.error (.ioErr (.encrypted .other)), w'') := by
  exact ⟨fun _ _ => rfl, vectorAes_lawful, rfl, countingFormat_inverts, _, _, rfl, rfl⟩

/-- A plain directory is saved, and loads. -/
theorem load_exact_plain :
    let disk : (DiskType.plain .plainfile).Disk := (⟨[.rootDir, .normal "a", .normal "x"]⟩ : Plainfile)
    let ops := (DiskType.plain .plainfile).ops vectorCrates
    ∃ w' w'', ∃ a' : DirectoryBackedArray UInt8 (DiskType.plain .plainfile).Disk Unit,
      (oneBlock disk).save ops countingFormat () twoDraws = .ok (.ok (), w') ∧
      DirectoryBackedArray.load ops countingFormat () (oneBlock disk).directoryRoot w'.calm =
        .ok (.ok a', w'') ∧ Restored (oneBlock disk).serialize a' := by
  intro disk ops
  have hexact := load_exact vectorCrates (.plain .plainfile) countingFormat () (oneBlock disk) twoDraws _
    (fun _ _ => rfl) vectorAes_lawful rfl countingFormat_inverts rfl
  obtain ⟨a', w'', hload, hr⟩ := hexact.mpr ⟨nofun, nofun⟩
  exact ⟨_, w'', a', rfl, hload, hr⟩

end BackedData.Directory
