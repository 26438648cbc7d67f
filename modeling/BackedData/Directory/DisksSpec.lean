/-
# BackedData.Directory.DisksSpec — what each disk does, in terms of the files

`DiskSpec` is the account of a disk that the operations of a directory need: what a newly built one makes
of the bytes of its file (given the secrets that were drawn for it), what a given one makes of them, which
of its states belong to a file, and whether building it creates the file or draws secrets.  `Follows` says
that the calls of a `PathDisk` act by such an account; every disk of the repository does
(`DiskType.follows`).
-/
import BackedData.Directory.Disks
import BackedData.Disks.MmapSessions

namespace BackedData.Directory

open Logic.Files
open Logic.Outcome
open Logic.Stateful
open BackedData.Disks (Aes Encrypted KeyNonce MmapM MmapWriter Os Quiet SwitchingMmap openLoaded)

set_option autoImplicit false

/-! ## Calls on the world -/

section Calls

variable {α : Type} {w : World} {path q : Path String} {Q : Post DiskError World α}

/-- A call on the file tree. -/
theorem meets_onTree {f : FileTree String → Except FileError α × FileTree String} :
    Meets (onTree f) w Q ↔
      (∀ a t, f w.tree = (.ok a, t) → Q.ok a { w with tree := t }) ∧
        ∀ e t, f w.tree = (.error e, t) → Q.error (.file e) { w with tree := t } := by
  unfold Meets onTree
  rcases f w.tree with ⟨e | a, t⟩
  · refine ⟨fun h => ⟨nofun, fun _ _ heq => ?_⟩, fun h => h.2 e t rfl⟩
    cases heq
    exact h
  · refine ⟨fun h => ⟨fun _ _ heq => ?_, nofun⟩, fun h => h.1 a t rfl⟩
    cases heq
    exact h

/-- Calls on a file that exists. -/
theorem meets_onFile {m : Method Disks.IoError Os α} {file : List UInt8}
    (hc : w.tree.content path = some file) :
    Meets (onFile path m) w Q ↔
      Meets m (w.toOs file)
        { ok := fun a os => Q.ok a (w.putOs path os)
          error := fun e os => Q.error (.mmap e) (w.putOs path os)
          panic := Q.panic } := by
  unfold Meets onFile
  simp only [hc]
  rcases m (w.toOs file) with p | ⟨e | a, os⟩
  · exact Iff.rfl
  · exact Iff.rfl
  · exact Iff.rfl

/-- Calls on what the mutex holds. -/
theorem meets_holding {mmap : SwitchingMmap} {m : MmapM α} {os : Os}
    {Q : Post Disks.IoError Os (α × SwitchingMmap)} :
    Meets (holding mmap m) os Q ↔
      Meets m (mmap, os)
        { ok := fun a t => Q.ok (a, t.1) t.2
          error := fun e t => Q.error e t.2
          panic := Q.panic } := by
  unfold Meets holding
  rcases m (mmap, os) with p | ⟨e | a, t⟩
  · exact Iff.rfl
  · exact Iff.rfl
  · exact Iff.rfl

theorem putOs_content_self (w : World) (path : Path String) (os : Os) :
    (w.putOs path os).tree.content path = some os.file := AList.lookup_insert _

theorem putOs_content_ne (w : World) (os : Os) (hq : q ≠ path) :
    (w.putOs path os).tree.content q = w.tree.content q := AList.lookup_insert_ne hq

/-- A file that has not changed is put back as it was. -/
theorem putOs_content_same {os : Os} {file : List UInt8} (hc : w.tree.content path = some file)
    (hfile : os.file = file) (q : Path String) :
    (w.putOs path os).tree.content q = w.tree.content q := by
  by_cases hq : q = path
  · rw [hq, putOs_content_self, hfile, hc]
  · exact putOs_content_ne w os hq

end Calls

/-! ## What a call leaves of the files -/

/-- Files may have been created; none that was there has changed. -/
structure Grows (w w' : World) : Prop where
  kept : ∀ q bytes, w.tree.content q = some bytes → w'.tree.content q = some bytes
  dirs : w'.tree.dirs = w.tree.dirs
  calm : w.tree.faults = [] → w'.tree.faults = []

theorem Grows.refl (w : World) : Grows w w := ⟨fun _ _ h => h, rfl, id⟩

theorem Grows.trans {w w' w'' : World} (h : Grows w w') (h' : Grows w' w'') : Grows w w'' :=
  ⟨fun q bytes hq => h'.kept q bytes (h.kept q bytes hq), h'.dirs.trans h.dirs,
    fun hc => h'.calm (h.calm hc)⟩

/-- Nothing but the schedules has changed. -/
structure Undisturbed (w w' : World) : Prop where
  content : ∀ q, w'.tree.content q = w.tree.content q
  dirs : w'.tree.dirs = w.tree.dirs
  calm : w.tree.faults = [] → w'.tree.faults = []
  secrets : w'.secrets = w.secrets

/-! ## The account of a disk -/

/-- **`DiskSpec D`** — what a disk does with the bytes of its file. -/
structure DiskSpec (D : Type) where
  fresh : KeyNonce → List UInt8 → Option (List UInt8)
  reads : D → List UInt8 → Option (List UInt8)
  settled : D → List UInt8 → Prop
  creates : Bool
  seals : Bool

section Account

variable {D : Type} [AsRefPath D]

/-- **`Built spec path w disk w'`** — the disk has been built from this path. -/
structure Built (spec : DiskSpec D) (path : Path String) (w : World) (disk : D) (w' : World) : Prop where
  grows : Grows w w'
  named : AsRefPath.path disk = path
  reads : spec.reads disk = spec.fresh (w.secrets 0)
  settled : ∀ bytes, w'.tree.content path = some bytes → spec.settled disk bytes
  others : ∀ q, q ≠ path → w'.tree.content q = w.tree.content q
  file : w'.tree.content path =
    if spec.creates then some ((w.tree.content path).getD []) else w.tree.content path
  opened : spec.creates = true → w.tree.CanOpen path
  secrets : spec.seals = true → w'.secrets = fun i => w.secrets (i + 1)

/-- **`Follows ops spec`** — the calls of a disk act by this account. -/
structure Follows (ops : PathDisk D) (spec : DiskSpec D) : Prop where
  tryFrom : ∀ path w, Meets (ops.tryFrom path) w
    (sure (w.tree.faults = [] ∧ (spec.creates = true → w.tree.CanOpen path)) (Built spec path w) (Grows w))
  deserialize : ops.deserialize = ops.tryFrom
  read : ∀ disk w, (∀ bytes, w.tree.content (AsRefPath.path disk) = some bytes → spec.settled disk bytes) →
    Meets (ops.readDisk disk >>= ops.readToEnd) w
      (sure (w.tree.faults = [] ∧ ∃ bytes, w.tree.content (AsRefPath.path disk) = some bytes ∧
          spec.reads disk bytes ≠ none)
        (fun out w' => Undisturbed w w' ∧ ∃ bytes,
          w.tree.content (AsRefPath.path disk) = some bytes ∧ spec.reads disk bytes = some out)
        fun _ => True)
  drop : ∀ disk bytes w, spec.settled disk bytes → ops.drop disk w = .ok (.ok (), w)
  plain : spec.seals = false → ∀ disk secrets, spec.reads disk = spec.fresh secrets

end Account

/-! ## Plain files -/

/-- A plain disk reads the bytes as they are. -/
def fileSpec (D : Type) : DiskSpec D where
  fresh _ bytes := some bytes
  reads _ bytes := some bytes
  settled _ _ := True
  creates := false
  seals := false

theorem fileDisk_follows {D : Type} [AsRefPath D] {make : Path String → D}
    (hmake : ∀ path, AsRefPath.path (make path) = path) : Follows (fileDisk make) (fileSpec D) where
  tryFrom path w := by
    show Built (fileSpec D) path w (make path) w
    exact ⟨.refl w, hmake path, rfl, fun _ _ => trivial, fun _ _ => rfl, rfl, nofun, nofun⟩
  deserialize := rfl
  read disk w _ := by
    generalize hpath : AsRefPath.path disk = path
    show Meets ((onTree (FileTree.openRead (AsRefPath.path disk)) >>= fun _ =>
      pure (AsRefPath.path disk)) >>= fun file => onTree (FileTree.read file)) w _
    rw [hpath, meets_bind, meets_bind, meets_onTree]
    refine ⟨fun _ t hopen => ?_, fun e t hopen => ⟨?_, trivial⟩⟩
    · have ht : t = { w.tree with faults := w.tree.faults.tail } := by
        rw [← FileTree.openRead_snd path w.tree, hopen]
      show Meets (onTree (FileTree.read path)) { w with tree := t } _
      rw [meets_onTree]
      refine ⟨fun bytes u hbytes => ?_, fun e u hfail => ⟨?_, trivial⟩⟩
      · have hu : u = { t with faults := t.faults.tail } := by
          rw [← FileTree.read_snd path t, hbytes]
        have hsame : t.content path = w.tree.content path := by rw [ht]; rfl
        refine ⟨⟨fun q => by rw [hu, ht]; rfl, by rw [hu, ht], fun hc => ?_, rfl⟩, bytes,
          hsame ▸ FileTree.read_ok hbytes, rfl⟩
        show u.faults = []
        rw [hu, ht, hc]
        rfl
      · rintro ⟨hcalm, bytes, hc, -⟩
        have hsame : t.content path = some bytes := by rw [ht]; exact hc
        have hfaults : t.faults = [] := by rw [ht, hcalm]; rfl
        have hok := FileTree.read_calm hfaults hsame
        rw [show t.read path = (.error e, u) from hfail] at hok
        cases hok
    · rintro ⟨hcalm, bytes, hc, -⟩
      have hok := FileTree.openRead_calm hcalm hc
      rw [show w.tree.openRead path = (.error e, t) from hopen] at hok
      cases hok
  drop _ _ _ _ := rfl
  plain _ _ _ := rfl

/-- The buffer of a `Plainfile` is one of its writer. -/
theorem bufferedDisk_follows (pieces : List UInt8 → List (List UInt8)) :
    Follows (bufferedDisk pieces) (fileSpec Plainfile) :=
  have h : Follows (fileDisk Plainfile.mk) (fileSpec Plainfile) := fileDisk_follows fun _ => rfl
  ⟨h.tryFrom, h.deserialize, h.read, h.drop, h.plain⟩

/-! ## Compression -/

/-- A compressed disk reads what the decoder makes of what its inner disk reads. -/
def zstdSpec {B : Type} (zstd : Zstd) (inner : DiskSpec B) : DiskSpec (ZstdDisk B) where
  fresh secrets bytes := (inner.fresh secrets bytes).bind zstd.decompress
  reads disk bytes := (inner.reads disk.inner bytes).bind zstd.decompress
  settled disk bytes := inner.settled disk.inner bytes
  creates := inner.creates
  seals := inner.seals

theorem zstdDisk_follows {B : Type} [AsRefPath B] {zstd : Zstd} {level : UInt8} {ops : PathDisk B}
    {inner : DiskSpec B} (h : Follows ops inner) :
    Follows (zstdDisk zstd level ops) (zstdSpec zstd inner) where
  tryFrom path w := by
    show Meets (ops.tryFrom path >>= fun disk => pure (ZstdDisk.mk disk)) w _
    rw [meets_bind]
    refine (h.tryFrom path w).mono (fun disk t hb => ?_) (fun _ _ he => he) fun _ hp => hp
    refine ⟨hb.grows, hb.named, ?_, hb.settled, hb.others, hb.file, hb.opened, hb.secrets⟩
    show (fun bytes => (inner.reads disk bytes).bind zstd.decompress) = _
    rw [hb.reads]
    rfl
  deserialize := by
    show (fun path => ops.deserialize path >>= fun disk => pure (ZstdDisk.mk disk)) = _
    rw [h.deserialize]
    rfl
  read disk w hsettled := by
    have hweaker : (w.tree.faults = [] ∧ ∃ bytes, w.tree.content (AsRefPath.path disk) = some bytes ∧
        (zstdSpec zstd inner).reads disk bytes ≠ none) → w.tree.faults = [] ∧ ∃ bytes,
        w.tree.content (AsRefPath.path disk.inner) = some bytes ∧ inner.reads disk.inner bytes ≠ none := by
      rintro ⟨hcalm, bytes, hc, hne⟩
      refine ⟨hcalm, bytes, hc, fun hnone => hne ?_⟩
      show (inner.reads disk.inner bytes).bind zstd.decompress = none
      rw [hnone]
      rfl
    refine ((h.read disk.inner w hsettled).assume hweaker).andThen fun out u hu => ?_
    obtain ⟨hsame, bytes, hc, hout⟩ := hu
    have hreads : (zstdSpec zstd inner).reads disk bytes = zstd.decompress out := by
      show (inner.reads disk.inner bytes).bind zstd.decompress = _
      rw [hout]
      rfl
    rcases hd : zstd.decompress out with _ | plain
    · dsimp only
      refine ⟨?_, trivial⟩
      rintro ⟨-, bytes', hc', hne⟩
      have heq : bytes' = bytes := Option.some.inj (hc'.symm.trans hc)
      rw [heq, hreads, hd] at hne
      exact hne rfl
    · dsimp only
      exact ⟨hsame, bytes, hc, hreads.trans hd⟩
  drop disk bytes w hs := h.drop disk.inner bytes w hs
  plain hs disk secrets := by
    show (fun bytes => (inner.reads disk.inner bytes).bind zstd.decompress) = _
    rw [h.plain hs disk.inner secrets]
    rfl

/-! ## Mapped files -/

/-- A mapping reads the bytes as they are, and opening it creates the file. -/
def mmapSpec : DiskSpec MmapDisk where
  fresh _ bytes := some bytes
  reads _ bytes := some bytes
  settled disk bytes := ∃ writing, Disks.Idle bytes writing disk.mmap
  creates := true
  seals := false

/-- A new `Mmap` on a file that has just been opened. -/
theorem new_opened {calm : Prop} {file : List UInt8} {faults holes : List Bool}
    (hcalm : calm → faults = []) :
    Meets Disks.Mmap.new { file, faults := false :: faults, holes }
      (sure calm (fun held os => Disks.Settled calm file false (held, os)) (Quiet calm file)) := by
  by_cases hc : calm
  · rw [hcalm hc]
    have hnew : Meets Disks.Mmap.new { file, faults := [], holes }
        (sure calm (fun held os => Disks.Settled calm file false (held, os)) (Quiet calm file)) :=
      Disks.new_settled ⟨rfl, fun _ => rfl⟩
    exact hnew
  · exact Disks.new_settled ⟨rfl, fun h => absurd h hc⟩

/-- Building an `Mmap` opens its file, creates it where it is missing, and maps it for reading. -/
theorem mmap_tryFrom (path : Path String) (w : World) :
    Meets (mmapDisk.tryFrom path) w
      (sure (w.tree.faults = [] ∧ w.tree.CanOpen path) (fun disk w' => Built mmapSpec path w disk w' ∧
        ∀ bytes, w'.tree.content path = some bytes → Disks.Idle bytes false disk.mmap) (Grows w)) := by
  show Meets ((onTree (FileTree.openCreate path) >>= fun _ => onFile path fun os =>
    Disks.Mmap.new { os with faults := false :: os.faults }) >>= fun mmap =>
      pure (MmapDisk.mk path mmap)) w _
  have hrest := FileTree.openCreate_rest path w.tree
  have hkeeps : ∀ q bytes, w.tree.content q = some bytes →
      (w.tree.openCreate path).2.content q = some bytes :=
    fun q bytes hq => FileTree.openCreate_keeps hq
  rw [meets_bind, meets_bind, meets_onTree]
  refine ⟨fun _ t hopen => ?_, fun e t hopen => ?_⟩
  · obtain ⟨hfile, hothers, hcan⟩ := FileTree.openCreate_ok hopen
    rw [hopen] at hrest hkeeps
    have hcalm : w.tree.faults = [] → t.faults = [] := fun hc => by rw [hrest.2, hc]; rfl
    refine (meets_onFile (w := { w with tree := t }) hfile).mpr ?_
    -- the file has its content, and the mapping covers it
    refine (new_opened hcalm).mono (fun held os hs => ?_)
      (fun e os hq => ⟨fun hc => hq.1 hc.1, ?_⟩) fun _ hp hc => hp hc.1
    · have hcontent := putOs_content_same (w := { w with tree := t }) hfile hs.quiet.file
      have hidle : ∀ bytes, (World.putOs { w with tree := t } path os).tree.content path = some bytes →
          Disks.Idle bytes false held := by
        intro bytes hb
        rw [hcontent path, show FileTree.content t path = _ from hfile] at hb
        rw [← Option.some.inj hb]
        exact hs.held
      exact ⟨⟨⟨fun q bytes hq => (hcontent q).trans (hkeeps q bytes hq), hrest.1, hs.quiet.faults⟩, rfl,
        rfl, fun bytes hb => ⟨false, hidle bytes hb⟩, fun q hq => (hcontent q).trans (hothers q hq),
        (hcontent path).trans hfile, fun _ => hcan, nofun⟩, hidle⟩
    · have hcontent := putOs_content_same (w := { w with tree := t }) hfile hq.2.file
      exact ⟨fun q bytes hb => (hcontent q).trans (hkeeps q bytes hb), hrest.1, hq.2.faults⟩
  · rw [hopen] at hrest hkeeps
    refine ⟨fun hc => ?_, hkeeps, hrest.1, fun hc => by rw [hrest.2, hc]; rfl⟩
    have hok := FileTree.openCreate_calm hc.1 hc.2
    rw [hopen] at hok
    cases hok

/-- The calls of a reader. -/
theorem mmap_read_steps (disk : MmapDisk) : (mmapDisk.readDisk disk >>= mmapDisk.readToEnd) =
    ((onFile disk.path (holding disk.mmap Disks.Mmap.readDisk) >>= fun r =>
      pure (MmapDisk.mk disk.path r.2)) >>= fun source =>
        onFile source.path (holding source.mmap Disks.Mmap.readGuard) >>= fun r => pure r.1) := rfl

/-- Reading a settled mapping. -/
theorem mmap_read {disk : MmapDisk} {w : World} {file : List UInt8} {writing : Bool}
    (hc : w.tree.content disk.path = some file) (hidle : Disks.Idle file writing disk.mmap) :
    Meets (mmapDisk.readDisk disk >>= mmapDisk.readToEnd) w
      (sure (w.tree.faults = []) (fun out w' => out = file ∧ Undisturbed w w') fun _ => True) := by
  rw [mmap_read_steps, meets_bind, meets_bind, meets_onFile hc, meets_holding]
  have hsettled : Disks.Settled (w.tree.faults = []) file writing (disk.mmap, w.toOs file) :=
    ⟨hidle, rfl, id⟩
  refine (Disks.readDisk_settled hsettled).mono (fun _ m hm => ?_) (fun _ _ he => he) fun _ hp => hp
  obtain ⟨held, os⟩ := m
  obtain ⟨map, hcovers, hheld, hquiet⟩ := hm
  have hfile : os.file = file := hquiet.file
  have hcontent := putOs_content_same hc hfile
  show Meets (onFile disk.path (holding held Disks.Mmap.readGuard) >>= fun r => pure r.1)
    (w.putOs disk.path os) _
  rw [meets_bind, meets_onFile ((hcontent _).trans hc), meets_holding]
  cases hheld
  -- the guard reads without a call
  show map.asRef file = file ∧ Undisturbed w _
  have hcontent' : ∀ q, ((w.putOs disk.path os).putOs disk.path
      ((w.putOs disk.path os).toOs file)).tree.content q = (w.putOs disk.path os).tree.content q :=
    putOs_content_same ((hcontent _).trans hc) rfl
  exact ⟨Disks.ReadMmap.asRef_covers hcovers,
    fun q => (hcontent' q).trans (hcontent q), rfl, hquiet.faults, rfl⟩

theorem mmapDisk_follows : Follows mmapDisk mmapSpec where
  tryFrom path w := by
    refine (mmap_tryFrom path w).mono (fun _ _ h => h.1) (fun _ _ he => ⟨fun hc => he.1 ⟨hc.1, hc.2 rfl⟩, he.2⟩)
      fun _ hp hc => hp ⟨hc.1, hc.2 rfl⟩
  deserialize := rfl
  read disk w hsettled := by
    rcases hc : w.tree.content (AsRefPath.path disk) with _ | file
    · have hnone : onFile disk.path (holding disk.mmap Disks.Mmap.readDisk) w =
          .ok (.error (.file .notFound), w) := by
        unfold onFile
        simp only [show w.tree.content disk.path = none from hc]
      rw [mmap_read_steps, meets_bind, meets_bind]
      unfold Meets
      rw [hnone]
      exact ⟨fun h => by simp at h, trivial⟩
    · obtain ⟨writing, hidle⟩ := hsettled file hc
      exact (mmap_read hc hidle).mono (fun out w' h => ⟨h.2, file, rfl, h.1 ▸ rfl⟩)
        (fun _ _ he => ⟨fun h => he.1 h.1, trivial⟩) fun _ hp h => hp h.1
  drop disk bytes w hs := by
    obtain ⟨path, mmap⟩ := disk
    obtain ⟨writing, hidle⟩ := hs
    have hheld : Disks.Idle bytes writing mmap := hidle
    show dropMmap { path, mmap } w = _
    unfold dropMmap
    cases hheld with
    | reading hcovers => rfl
    | writing sparse =>
        simp only [Nat.lt_irrefl, if_false]
        rfl
  plain _ _ _ := rfl

/-! ## Encryption -/

/-- What these secrets make of the bytes of a file. -/
def unsealed (aes : Aes) (secrets : KeyNonce) (bytes : List UInt8) : Option (List UInt8) :=
  match openLoaded aes secrets bytes with
  | .error () => none
  | .ok decrypted => some decrypted.inner

/-- An encrypted disk reads what its own secrets make of the bytes, and a new one draws its secrets. -/
def encryptedSpec (aes : Aes) : DiskSpec (Encrypted Plainfile) where
  fresh := unsealed aes
  reads disk := unsealed aes disk.secrets
  settled _ _ := True
  creates := false
  seals := true

theorem encryptedDisk_follows (aes : Aes) : Follows (encryptedDisk aes) (encryptedSpec aes) where
  tryFrom path w := by
    show Built (encryptedSpec aes) path w _ { w with secrets := fun i => w.secrets (i + 1) }
    exact ⟨⟨fun _ _ h => h, rfl, id⟩, rfl, rfl, fun _ _ => trivial, fun _ _ => rfl, rfl, nofun,
      fun _ => rfl⟩
  deserialize := rfl
  read disk w _ := by
    rw [meets_bind]
    unfold Meets
    simp only [encryptedDisk, Encrypted.readDisk, plainfileRaw]
    rcases hopen : w.tree.openRead disk.inner.path with ⟨e | _, t⟩
    · refine ⟨?_, trivial⟩
      rintro ⟨hcalm, bytes, hc, -⟩
      have hok := FileTree.openRead_calm hcalm hc
      rw [show w.tree.openRead (AsRefPath.path disk) = (.error e, t) from hopen] at hok
      cases hok
    · have ht : t = { w.tree with faults := w.tree.faults.tail } := by
        rw [← FileTree.openRead_snd disk.inner.path w.tree, hopen]
      have hsame : t.content disk.inner.path = w.tree.content disk.inner.path := by rw [ht]; rfl
      rcases hread : t.read disk.inner.path with ⟨e | bytes, u⟩
      · simp only [hread]
        refine ⟨?_, trivial⟩
        rintro ⟨hcalm, bytes, hc, -⟩
        have hfaults : t.faults = [] := by rw [ht, hcalm]; rfl
        have hok := FileTree.read_calm hfaults (hsame.trans hc)
        rw [hread] at hok
        cases hok
      · have hu : u = { t with faults := t.faults.tail } := by
          rw [← FileTree.read_snd disk.inner.path t, hread]
        have hbytes : w.tree.content disk.inner.path = some bytes := hsame ▸ FileTree.read_ok hread
        simp only [hread]
        rcases hloaded : openLoaded aes disk.secrets bytes with _ | decrypted
        · refine ⟨?_, trivial⟩
          rintro ⟨-, bytes', hc, hne⟩
          have heq : bytes' = bytes := Option.some.inj (hc.symm.trans hbytes)
          rw [heq] at hne
          apply hne
          show unsealed aes disk.secrets bytes = none
          unfold unsealed
          simp only [hloaded]
        · refine ⟨⟨fun q => by rw [hu, ht]; rfl, by rw [hu, ht], fun hc => ?_, rfl⟩, bytes, hbytes, ?_⟩
          · show u.faults = []
            rw [hu, ht, hc]
            rfl
          · show unsealed aes disk.secrets bytes = some _
            unfold unsealed
            simp only [hloaded]
            rw [Disks.SecretReadVec.readToEnd_ofBuffer]
  drop _ _ _ _ := rfl
  plain h := nomatch h

/-! ## The types of disks -/

/-- The account of a plain disk. -/
def PlainType.spec (file : PlainType) : DiskSpec file.Disk := fileSpec file.Disk

theorem PlainType.follows : (file : PlainType) → Follows file.ops file.spec
  | .plainfile => bufferedDisk_follows _
  | .unbuffered => fileDisk_follows fun _ => rfl
  | .writeUnbuffered => fileDisk_follows fun _ => rfl

/-- The account of a disk. -/
def DiskType.spec (crates : Crates) : (t : DiskType) → DiskSpec t.Disk
  | .plain file => file.spec
  | .zstd _ inner => zstdSpec crates.zstd inner.spec
  | .mmap => mmapSpec
  | .encrypted => encryptedSpec crates.aes

/-- **Every disk that is built from a path acts by its account.** -/
theorem DiskType.follows (crates : Crates) : (t : DiskType) → Follows (t.ops crates) (t.spec crates)
  | .plain file => file.follows
  | .zstd _ inner => zstdDisk_follows inner.follows
  | .mmap => mmapDisk_follows
  | .encrypted => encryptedDisk_follows crates.aes

/-- Only `Encrypted` draws secrets. -/
theorem DiskType.seals_iff (crates : Crates) (t : DiskType) :
    (t.spec crates).seals = true ↔ t = .encrypted := by
  cases t with
  | plain file => exact ⟨nofun, nofun⟩
  | zstd level inner => exact ⟨nofun, nofun⟩
  | mmap => exact ⟨nofun, nofun⟩
  | encrypted => exact ⟨fun _ => rfl, fun _ => rfl⟩

/-- Only `Mmap` creates its file. -/
theorem DiskType.creates_iff (crates : Crates) (t : DiskType) :
    (t.spec crates).creates = true ↔ t = .mmap := by
  cases t with
  | plain file => exact ⟨nofun, nofun⟩
  | zstd level inner => exact ⟨nofun, nofun⟩
  | mmap => exact ⟨fun _ => rfl, fun _ => rfl⟩
  | encrypted => exact ⟨nofun, nofun⟩

end BackedData.Directory
