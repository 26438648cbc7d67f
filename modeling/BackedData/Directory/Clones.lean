/-
# BackedData.Directory.Clones — `from_containers` over the disks of a file system

The disks that can be cloned are paths, and a clone of a path names the same file.  `from_containers`
writes every container to a clone of one disk, so each write replaces what the one before it wrote; as the
containers stay in memory, this shows only when they are unloaded (`fromContainers_exact`).

`PathDisk.medium` makes of a disk and a format the `Medium` that an entry works with, so that the entries
here are the entries of `BackedData.Array`, over the files.
-/
import BackedData.Array.Build
import BackedData.Array.Residency
import BackedData.Directory.SaveLoad

namespace BackedData.Directory

open Logic.Files
open Logic.Outcome
open Logic.Stateful
open BackedData.Array
open BackedData.Entry

set_option autoImplicit false

variable {T D C α : Type}

/-! ## Entries over files -/

/-- How a call of an entry ends when it does not return a value. -/
inductive Ended where
  | error (e : DiskError)
  | panic (p : Panic)
  deriving DecidableEq, Repr

/-- The end of a call, with the world it leaves; a panic ends the program. -/
def DiskM.run (m : DiskM α) (w : World) : Except Ended α × World :=
  match m w with
  | .error p => (.error (.panic p), w)
  | .ok (r, w) => (r.mapError .error, w)

/-- **`ops.medium codec`** — the calls of an entry on such a disk, with this format.  A writer is opened and
given everything in `encode`, a reader is opened and read in `decode`. -/
def PathDisk.medium (ops : PathDisk D) (codec : Codec T C) : Medium T D C World Ended where
  writeDisk d w := (.ok (), d, w)
  encode c v d w :=
    match DiskM.run (ops.writeDisk d >>= ops.writeAll (codec.encode c v)) w with
    | (r, w) => (r, d, w)
  readDisk d w := (.ok (), d, w)
  decode c d w :=
    match DiskM.run (ops.readDisk d >>= ops.readToEnd) w with
    | (.error e, w) => (.error e, d, w)
    | (.ok bytes, w) =>
        match codec.decode c bytes with
        | none => (.error (.error .coder), d, w)
        | some v => (.ok v, d, w)

/-- The disks that implement `Clone`. -/
def DiskType.Cloneable : DiskType → Prop
  | .plain _ => True
  | .zstd _ _ => True
  | .mmap => False
  | .encrypted => False

/-- **`Bare ops spec`** — a disk that is nothing but its path: building it again gives the same disk, and
its file is all that a read looks at. -/
structure Bare [AsRefPath D] (ops : PathDisk D) (spec : DiskSpec D) : Prop where
  rebuilt : ∀ disk, ops.tryFrom (AsRefPath.path disk) = pure disk
  settled : ∀ disk bytes, spec.settled disk bytes
  seals : spec.seals = false

theorem PlainType.bare : (file : PlainType) → Bare file.ops file.spec
  | .plainfile => ⟨fun _ => rfl, fun _ _ => trivial, rfl⟩
  | .unbuffered => ⟨fun _ => rfl, fun _ _ => trivial, rfl⟩
  | .writeUnbuffered => ⟨fun _ => rfl, fun _ _ => trivial, rfl⟩

/-- **The disks that can be cloned are paths.** -/
theorem DiskType.bare (crates : Crates) : (t : DiskType) → t.Cloneable →
    Bare (t.ops crates) (t.spec crates)
  | .plain file, _ => file.bare
  | .zstd _ inner, _ =>
      { rebuilt := fun disk => by
          show (inner.ops.tryFrom (AsRefPath.path disk.inner) >>= fun disk => pure (ZstdDisk.mk disk)) = _
          rw [inner.bare.rebuilt]
          rfl
        settled := fun disk bytes => inner.bare.settled disk.inner bytes
        seals := inner.bare.seals }

/-! ## One file, however often it is written -/

theorem run_ok {m : DiskM α} {a : α} {w w' : World} (h : m.run w = (.ok a, w')) :
    m w = .ok (.ok a, w') := by
  unfold DiskM.run at h
  rcases hm : m w with p | ⟨e | b, t⟩
  · rw [hm] at h
    cases h
  · rw [hm] at h
    cases h
  · rw [hm] at h
    cases h
    rfl

section Shared

variable [AsRefPath D] {ops : PathDisk D} {spec : DiskSpec D} {codec : Codec (List T) C} {disk : D}
  {coder : C} {x : List T} {w w' : World}

/-- **`Keeps spec codec disk coder x w`** — the file of the disk holds this container. -/
def Keeps (spec : DiskSpec D) (codec : Codec (List T) C) (disk : D) (coder : C) (x : List T) (w : World) :
    Prop :=
  ∃ file, w.tree.content (AsRefPath.path disk) = some file ∧
    spec.reads disk file = some (codec.encode coder x)

/-- Writing a container to a clone of the disk: the entry has the container in memory, the file has it
instead of what it had. -/
theorem write_keeps (hbare : Bare ops spec) (hfollows : Follows ops spec) (hstores : Stores ops spec)
    {entry : Chunk T D C}
    (h : (BackedEntry.new disk coder).write (ops.medium codec) x w = (.ok (), entry, w')) :
    entry.unload = .new disk coder ∧ Keeps spec codec disk coder x w' := by
  have hnew : writeNew ops (AsRefPath.path disk) (codec.encode coder x) =
      (ops.writeDisk disk >>= ops.writeAll (codec.encode coder x)) := by
    unfold writeNew
    rw [hbare.rebuilt]
    rfl
  have hstored := hstores (AsRefPath.path disk) (codec.encode coder x) w
  rw [hnew] at hstored
  simp only [BackedEntry.write, BackedEntry.encodeToDisk, BackedEntry.new, PathDisk.medium] at h
  rcases hrun : DiskM.run (ops.writeDisk disk >>= ops.writeAll (codec.encode coder x)) w with ⟨e | _, t⟩
  · rw [hrun] at h
    cases h
  · rw [hrun] at h
    cases h
    obtain ⟨file, hfile, hfresh⟩ := (hstored.ok (run_ok hrun)).fresh
    refine ⟨rfl, file, hfile, ?_⟩
    rw [hfollows.plain hbare.seals disk (w.secrets 0)]
    exact hfresh _

/-- Loading from the file. -/
theorem load_keeps (hbare : Bare ops spec) (hfollows : Follows ops spec)
    (hcodec : codec.decode coder (codec.encode coder x) = some x) (hcalm : w.tree.faults = [])
    (hkeeps : Keeps spec codec disk coder x w) :
    ∃ entry w', (BackedEntry.new disk coder).load (ops.medium codec) w = (.ok x, entry, w') ∧
      w'.tree.faults = [] ∧ Keeps spec codec disk coder x w' := by
  obtain ⟨file, hfile, hreads⟩ := hkeeps
  have hread := hfollows.read disk w fun bytes _ => hbare.settled disk bytes
  have hcan : spec.reads disk file ≠ none := by
    rw [hreads]
    exact nofun
  obtain ⟨out, w', hrun⟩ := hread.returns ⟨hcalm, file, hfile, hcan⟩
  obtain ⟨hsame, bytes, hbytes, hout⟩ := hread.ok hrun
  obtain rfl : bytes = file := Option.some.inj (hbytes.symm.trans hfile)
  obtain rfl : out = codec.encode coder x := Option.some.inj (hout.symm.trans hreads)
  refine ⟨{ value := some x, disk, coder }, w', ?_, hsame.calm hcalm, bytes, (hsame.content _).trans hfile, hreads⟩
  simp only [BackedEntry.load, BackedEntry.new, BackedEntry.decodeFromDisk, PathDisk.medium, DiskM.run,
    hrun, Except.mapError, hcodec]

/-- After all the writes the file holds the last container. -/
theorem buildEntries_keeps (hbare : Bare ops spec) (hfollows : Follows ops spec)
    (hstores : Stores ops spec) {containers : List (List T)} {start : Nat}
    {built : List ((Nat × Nat) × Chunk T D C)}
    (h : buildEntries (ops.medium codec) disk coder start containers w = .ok (.ok built, w'))
    (hlast : containers.getLast? = some x) : Keeps spec codec disk coder x w' := by
  induction containers generalizing start w built with
  | nil => cases hlast
  | cons y ys ih =>
      obtain ⟨entry, w₁, rest, hwrite, hrest, -⟩ := buildEntries_cons h
      cases ys with
      | nil =>
          cases hlast
          cases hrest
          exact (write_keeps hbare hfollows hstores hwrite).2
      | cons z zs =>
          rw [List.getLast?_cons_cons] at hlast
          exact ih hrest hlast

/-- Chunks that are unloaded, all over the one file, load back as what it holds. -/
theorem chunksFrom_keeps (hbare : Bare ops spec) (hfollows : Follows ops spec)
    (hcodec : codec.decode coder (codec.encode coder x) = some x) (n i : Nat)
    {arr : BackedArray (Chunk T D C)}
    (harr : ∀ j, i ≤ j → j < i + n → arr.entries[j]? = some (.new disk coder))
    (hcalm : w.tree.faults = []) (hkeeps : Keeps spec codec disk coder x w) :
    arr.chunksFrom (ops.medium codec) n i w = List.replicate n (.ok x) := by
  induction n generalizing arr i w with
  | zero => rfl
  | succ n ih =>
      have hi : arr.entries[i]? = some (.new disk coder) := harr i (by omega) (by omega)
      obtain ⟨entry, w₁, hload, hcalm', hkeeps'⟩ := load_keeps hbare hfollows hcodec hcalm hkeeps
      have hrest : ∀ j, i + 1 ≤ j → j < i + 1 + n →
          (arr.setEntry i entry).entries[j]? = some (.new disk coder) := by
        intro j hj hj'
        show (arr.entries.set i entry)[j]? = _
        rw [List.getElem?_set_ne (by omega)]
        exact harr j (by omega) (by omega)
      have hnext : arr.chunkNext (ops.medium codec) i w = (some (.ok x), arr.setEntry i entry, w₁) := by
        unfold BackedArray.chunkNext
        rw [hi]
        simp only [hload]
      unfold BackedArray.chunksFrom
      simp only [hnext, ih (i + 1) hrest hcalm' hkeeps', List.replicate_succ]

end Shared

/-! ## When the containers load back -/

/-- **What `from_containers` over a file keeps.**  Over every disk that can be cloned, whenever it returns
`Ok`, the chunks load back as the containers once they have been unloaded exactly when the containers are
all the same. -/
theorem fromContainers_exact (crates : Crates) (t : DiskType) (codec : Codec (List T) C)
    (containers : List (List T)) (disk : t.Disk) (coder : C) (w w' : World)
    (arr : BackedArray (Chunk T t.Disk C)) (ht : t.Cloneable)
    (hzstd : ∀ level bytes, crates.zstd.decompress (crates.zstd.compress level bytes) = some bytes)
    (hcodec : ∀ x, codec.decode coder (codec.encode coder x) = some x)
    (hrun : BackedArray.fromContainers ((t.ops crates).medium codec) containers disk coder w =
      .ok (.ok arr, w')) :
    arr.clearMemory.collectChunks ((t.ops crates).medium codec) w'.calm = containers.map .ok ↔
      ∀ x ∈ containers, ∀ y ∈ containers, x = y := by
  have hbare := t.bare crates ht
  have hfollows := t.follows crates
  have hstores : Stores (t.ops crates) (t.spec crates) := by
    apply t.stores crates hzstd
    rintro rfl
    exact ht
  obtain ⟨hwf, built, hbuilt⟩ := fromContainers_inv hrun
  have hlen : arr.clearMemory.entries.length = containers.length :=
    (List.length_map _).trans hwf.entries_length
  rcases hlast : containers.getLast? with _ | last
  · obtain rfl : containers = [] := List.getLast?_eq_none_iff.mp hlast
    have hnone : arr.clearMemory.collectChunks ((t.ops crates).medium codec) w'.calm = [] := by
      unfold BackedArray.collectChunks
      rw [hlen]
      rfl
    exact ⟨fun _ x hx => absurd hx List.not_mem_nil, fun _ => hnone⟩
  · have hkeeps := buildEntries_keeps hbare hfollows hstores hbuilt hlast
    -- unloaded, every entry is the same
    have hsame : ∀ j, j < containers.length → arr.clearMemory.entries[j]? = some (.new disk coder) := by
      intro j hj
      obtain ⟨entry, hentry, s, s', hwrite⟩ := hwf.entry (List.getElem?_eq_getElem hj)
      show (arr.entries.map BackedEntry.unload)[j]? = _
      rw [List.getElem?_map, hentry, Option.map_some, (write_keeps hbare hfollows hstores hwrite).1]
    have hback : arr.clearMemory.collectChunks ((t.ops crates).medium codec) w'.calm =
        List.replicate containers.length (.ok last) := by
      unfold BackedArray.collectChunks
      rw [hlen]
      exact chunksFrom_keeps hbare hfollows (hcodec last) _ 0 (fun j _ hj => hsame j (by omega)) rfl hkeeps
    have hmem : last ∈ containers := List.mem_of_getLast? hlast
    rw [hback]
    constructor
    · intro heq
      have hall : ∀ x ∈ containers, x = last := by
        intro x hx
        have hin : (Except.ok x : Except Ended (List T)) ∈ List.replicate containers.length (.ok last) := by
          rw [heq]
          exact List.mem_map_of_mem hx
        exact Except.ok.inj (List.eq_of_mem_replicate hin)
      exact fun x hx y hy => (hall x hx).trans (hall y hy).symm
    · intro hall
      apply (List.eq_replicate_iff.mpr ⟨List.length_map _, ?_⟩).symm
      intro r hr
      obtain ⟨x, hx, rfl⟩ := List.mem_map.mp hr
      rw [hall x hx last hmem]

/-- A format for chunks of bytes. -/
def byteFormat : Codec (List UInt8) Unit where
  encode _ chunk := chunk
  decode _ bytes := some bytes

/-- A directory without files. -/
def emptyDirectory : World where
  tree := { files := ∅, dirs := [[.rootDir], [.rootDir, .normal "a"]], faults := [] }
  holes := []
  secrets _ := { key := .replicate 32 1, nonce := .replicate 12 0 }
  uses := []

/-- Two different containers over a `Plainfile`: `Ok`, and both chunks load back as the second. -/
theorem clonedFile_overwritten :
    let disk : (DiskType.plain .plainfile).Disk := (⟨[.rootDir, .normal "a", .normal "x"]⟩ : Plainfile)
    let io := ((DiskType.plain .plainfile).ops vectorCrates).medium byteFormat
    (∀ x, byteFormat.decode () (byteFormat.encode () x) = some x) ∧
      ∃ arr w', BackedArray.fromContainers io [[1], [2]] disk () emptyDirectory = .ok (.ok arr, w') ∧
        arr.clearMemory.collectChunks io w'.calm = [.ok [2], .ok [2]] ∧
        arr.clearMemory.collectChunks io w'.calm ≠ [[1], [2]].map .ok := by
  intro disk io
  refine ⟨fun _ => rfl, _, _, rfl, rfl, ?_⟩
  show ([.ok [2], .ok [2]] : List (Except Ended (List UInt8))) ≠ [.ok [1], .ok [2]]
  decide

/-- The same container twice, through a compression. -/
theorem fromContainers_exact_same :
    let disk : (DiskType.zstd 3 .plainfile).Disk := ⟨(⟨[.rootDir, .normal "a", .normal "x"]⟩ : Plainfile)⟩
    let io := ((DiskType.zstd 3 .plainfile).ops vectorCrates).medium byteFormat
    ∃ arr w', BackedArray.fromContainers io [[7], [7]] disk () emptyDirectory = .ok (.ok arr, w') ∧
      arr.clearMemory.collectChunks io w'.calm = [.ok [7], .ok [7]] := by
  intro disk io
  have hexact := fromContainers_exact vectorCrates (.zstd 3 .plainfile) byteFormat [[7], [7]] disk ()
    emptyDirectory _ _ trivial (fun _ _ => rfl) (fun _ => rfl) rfl
  exact ⟨_, _, rfl, hexact.mpr (by decide)⟩

end BackedData.Directory
