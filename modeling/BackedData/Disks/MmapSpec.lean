/-
# BackedData.Disks.MmapSpec — what the calls of the mapped file do

One rule for each call of `Disks.Mmap`, from the operating system up to the writer.  `calm` says that no
call to the operating system fails and that the bytes of the run fit in memory: with `sure calm`, every
rule says at once what a call leaves when it returns, and that it does return when nothing goes wrong.

The content of a writer is a prefix of the file (`Keeps`); between two calls its mapping covers the whole
file, which has the reserved length (`Mapped`).
-/
import BackedData.Disks.Mmap

namespace BackedData.Disks

open Logic.Outcome
open Logic.Stateful

set_option autoImplicit false

variable {calm : Prop}

/-! ## Bytes of a file -/

theorem resize_length (file : List UInt8) (len : Nat) : (resize file len).length = len := by
  unfold resize
  rw [List.length_append, List.length_take, List.length_replicate]
  omega

/-- Growing a file, or cutting it behind its content, keeps the content. -/
theorem resize_keeps {content file : List UInt8} {len : Nat} (h : content <+: file)
    (hlen : content.length ≤ len) : content <+: resize file len := by
  have hcut : content <+: file.take len := by
    rw [List.prefix_take_iff]
    exact ⟨h, hlen⟩
  exact hcut.trans (List.prefix_append _ _)

theorem overwrite_length {file buf : List UInt8} {pos : Nat} (h : pos + buf.length ≤ file.length) :
    (overwrite file pos buf).length = file.length := by
  unfold overwrite
  simp only [List.length_append, List.length_take, List.length_drop]
  omega

/-- Bytes stored right behind the content extend it. -/
theorem overwrite_keeps {content file buf : List UInt8} (h : content <+: file)
    (hfit : content.length + buf.length ≤ file.length) :
    content ++ buf <+: overwrite file content.length buf := by
  have hbuf : buf.take (file.length - content.length) = buf := List.take_of_length_le (by omega)
  unfold overwrite
  rw [← List.prefix_iff_eq_take.mp h, hbuf]
  exact List.prefix_append _ _

/-! ## The operating system -/

/-- The file has these bytes, and no failure is to come. -/
structure Quiet (calm : Prop) (file : List UInt8) (os : Os) : Prop where
  file : os.file = file
  faults : calm → os.faults = []

namespace Os

variable {file : List UInt8} {os : Os}

/-- Every call fails only against `calm`, and then leaves the file as it was. -/
theorem call_quiet (h : Quiet calm file os) :
    Meets call os (sure calm (fun _ => Quiet calm file) (Quiet calm file)) := by
  obtain ⟨bytes, faults, holes⟩ := os
  unfold Meets call
  match faults with
  | [] => exact ⟨h.file, fun _ => rfl⟩
  | false :: rest => exact ⟨h.file, fun hc => absurd (h.faults hc) (List.cons_ne_nil _ _)⟩
  | true :: rest =>
      have hno : ¬calm := fun hc => absurd (h.faults hc) (List.cons_ne_nil _ _)
      exact ⟨hno, h.file, fun hc => absurd hc hno⟩

/-- A call that answers with the length of the file. -/
theorem answer_quiet (h : Quiet calm file os) :
    Meets (do call; let os ← .get; pure os.file.length) os
      (sure calm (fun n os => n = file.length ∧ Quiet calm file os) (Quiet calm file)) :=
  (call_quiet h).seq fun _ _ ht => ⟨congrArg List.length ht.file, ht⟩

theorem len_quiet (h : Quiet calm file os) :
    Meets len os (sure calm (fun n os => n = file.length ∧ Quiet calm file os) (Quiet calm file)) :=
  answer_quiet h

theorem map_quiet (h : Quiet calm file os) :
    Meets map os (sure calm (fun n os => n = file.length ∧ Quiet calm file os) (Quiet calm file)) :=
  answer_quiet h

theorem setLen_quiet (h : Quiet calm file os) (n : Nat) :
    Meets (setLen n) os (sure calm (fun _ => Quiet calm (resize file n)) (Quiet calm file)) :=
  (call_quiet h).seq fun _ _ ht => ⟨congrArg (resize · n) ht.file, ht.faults⟩

theorem testForHole_quiet (h : Quiet calm file os) :
    Meets testForHole os (sure calm (fun _ => Quiet calm file) (Quiet calm file)) :=
  (call_quiet h).seq fun _ _ h1 => (call_quiet h1).seq fun _ _ h2 => ⟨h2.file, h2.faults⟩

end Os

/-! ## The writer -/

/-- The writer has written `content`, which the file starts with. -/
structure Keeps (calm : Prop) (content : List UInt8) (s : MmapWriter × Os) : Prop where
  written : s.1.writtenLen = content.length
  kept : content <+: s.2.file
  faults : calm → s.2.faults = []

/-- The file has the reserved length, and that is at most `limit`. -/
structure Reserved (calm : Prop) (limit : Nat) (content : List UInt8) (s : MmapWriter × Os) : Prop
    extends Keeps calm content s where
  file : s.2.file.length = s.1.reservedLen
  limit : calm → s.1.reservedLen ≤ limit

/-- The mapping covers the file. -/
structure Mapped (calm : Prop) (limit : Nat) (content : List UInt8) (s : MmapWriter × Os) : Prop
    extends Reserved calm limit content s where
  mmap : s.1.mmap = s.1.reservedLen

/-- The writer after a flush: nothing is reserved behind the content. -/
structure Flushed (calm : Prop) (content : List UInt8) (s : MmapWriter × Os) : Prop where
  writer : ∃ sparseFile, s.1 =
    { mmap := content.length, writtenLen := content.length, reservedLen := content.length, sparseFile }
  quiet : Quiet calm content s.2

namespace MmapWriter

variable {limit : Nat} {content : List UInt8} {s : MmapWriter × Os}

theorem fit (h : Reserved calm limit content s) : s.1.writtenLen ≤ s.1.reservedLen := by
  have hlen := h.kept.length_le
  rw [h.file, ← h.written] at hlen
  exact hlen

theorem quiet (h : Keeps calm content s) : Quiet calm s.2.file s.2 := ⟨rfl, h.faults⟩

theorem keeps_of_quiet {os : Os} (h : Keeps calm content s) (hq : Quiet calm s.2.file os) :
    Keeps calm content (s.1, os) :=
  ⟨h.written, hq.file ▸ h.kept, hq.faults⟩

/-- The length of the file is set, so that it may be recorded as the reservation. -/
theorem setLen_reserved {F : MmapWriter × Os → Prop} (h : Keeps calm content s) {n : Nat}
    (hn : content.length ≤ n) (hlimit : calm → n ≤ limit)
    (hF : ∀ t, Keeps calm content t → F t) :
    Meets (Method.onSnd (Os.setLen n)) s
      (sure calm (fun _ t => Reserved calm limit content ({ t.1 with reservedLen := n }, t.2)) F) := by
  rw [meets_onSnd]
  refine (Os.setLen_quiet (quiet h) n).mono ?_ ?_ fun _ hp => hp
  · intro _ os hos
    have hkept : content <+: os.file := by
      rw [hos.file]
      exact resize_keeps h.kept hn
    have hfile : os.file.length = n := by
      rw [hos.file]
      exact resize_length _ _
    exact ⟨⟨h.written, hkept, hos.faults⟩, hfile, hlimit⟩
  · rintro _ os ⟨hc, hos⟩
    exact ⟨hc, hF _ (keeps_of_quiet h hos)⟩

/-- The first step of a sparse reservation. -/
theorem reserveFtruncate_keeps (h : Keeps calm content s) {n : Nat} (hn : content.length ≤ n)
    (hlimit : calm → n ≤ limit) :
    Meets (reserveFtruncate n) s
      { ok := fun _ t => Reserved calm limit content t ∧ t.1.reservedLen = n,
        error := fun _ => Keeps calm content, panic := fun _ => ¬calm } := by
  unfold reserveFtruncate
  by_cases hbig : i64Size ≤ n
  · simp only [if_pos hbig, meets_bind, meets_fail]
    exact h
  · simp only [if_neg hbig]
    exact (meets_bind _ _).mpr <| (setLen_reserved h hn hlimit fun _ ht => ht).mono
      (fun _ _ ht => ⟨ht, rfl⟩) (fun _ _ he => he.2) fun _ hp => hp

/-- The second step, which needs the first. -/
theorem reserveSparse_keeps (h : Reserved calm limit content s)
    (hlimit : calm → s.1.reservedLen + eightGib ≤ limit) :
    Meets reserveSparse s
      { ok := fun _ t => Reserved calm limit content t ∧ s.1.reservedLen ≤ t.1.reservedLen,
        error := fun _ => Keeps calm content, panic := fun _ => ¬calm } := by
  unfold reserveSparse
  rw [meets_bind, meets_attempt, meets_onSnd]
  refine (Os.testForHole_quiet (quiet h.toKeeps)).mono ?_ ?_ fun _ hp => hp
  · intro hole os hos
    have hk := keeps_of_quiet h.toKeeps hos
    have hfit := fit h
    rw [h.written] at hfit
    have hfile : os.file.length = s.1.reservedLen := by rw [hos.file, h.file]
    cases hole with
    | false => exact ⟨⟨⟨h.written, hk.kept, hk.faults⟩, hfile, h.limit⟩, Nat.le_refl _⟩
    | true =>
        simp only [meets_bind, meets_get]
        have hgrow : s.1.reservedLen ≤ s.1.reservedLen + eightGib := Nat.le_add_right _ _
        generalize s.1.reservedLen + eightGib = n at hlimit hgrow ⊢
        by_cases hbig : i64Size ≤ n
        · simp only [if_pos hbig, meets_bind, meets_fail]
          exact hk
        · simp only [if_neg hbig]
          exact (meets_bind _ _).mpr <| (setLen_reserved hk (Nat.le_trans hfit hgrow) hlimit
            fun _ ht => ht).mono (fun _ _ ht => ⟨ht, hgrow⟩) (fun _ _ he => he.2) fun _ hp => hp
  · rintro _ os ⟨-, hos⟩
    have hk := keeps_of_quiet h.toKeeps hos
    have hfile : os.file.length = s.1.reservedLen := by rw [hos.file, h.file]
    exact ⟨⟨hk, hfile, h.limit⟩, Nat.le_refl _⟩

/-- Where a sparse reservation succeeds it is large enough; where it fails the content is kept. -/
theorem sparseAlloc_keeps (h : Reserved calm limit content s) {n : Nat} (hn : content.length ≤ n)
    (hlimit : calm → n + eightGib ≤ limit) :
    Meets (sparseAlloc n) s
      (sure calm (fun sparse t => Keeps calm content t ∧
        (sparse = true → Reserved calm limit content t ∧ n ≤ t.1.reservedLen)) fun _ => True) := by
  have hplain : calm → n ≤ limit := fun hc => Nat.le_trans (Nat.le_add_right _ _) (hlimit hc)
  unfold sparseAlloc
  rw [meets_get_bind]
  by_cases hs : s.1.sparseFile = true
  · simp only [if_pos hs]
    rw [meets_bind, meets_attempt]
    refine (reserveFtruncate_keeps h.toKeeps hn hplain).mono ?_ ?_ fun _ hp => hp
    · rintro _ t ⟨hr, ht⟩
      subst ht
      refine (meets_bind _ _).mpr ((meets_attempt _).mpr ?_)
      refine (reserveSparse_keeps hr hlimit).mono ?_ ?_ fun _ hp => hp
      · rintro _ u ⟨hu, hle⟩
        exact ⟨hu.toKeeps, fun _ => ⟨hu, hle⟩⟩
      · intro _ u hu
        exact ⟨hu, fun htrue => absurd htrue Bool.false_ne_true⟩
    · intro _ t ht
      exact ⟨ht, fun htrue => absurd htrue Bool.false_ne_true⟩
  · simp only [if_neg hs]
    exact ⟨h.toKeeps, fun htrue => absurd htrue Bool.false_ne_true⟩

/-- A call that changes nothing keeps the reservation. -/
theorem call_reserved (h : Reserved calm limit content s) :
    Meets (Method.onSnd Os.call) s
      (sure calm (fun _ t => t.1 = s.1 ∧ Reserved calm limit content t) fun _ => True) :=
  (Os.call_quiet (quiet h.toKeeps)).second.imp
    (fun _ t ht => by
      obtain ⟨w, os⟩ := t
      obtain ⟨rfl, hos⟩ := ht
      have hfile : os.file.length = s.1.reservedLen := by rw [hos.file, h.file]
      exact ⟨rfl, keeps_of_quiet h.toKeeps hos, hfile, h.limit⟩)
    fun _ _ => trivial

theorem remap_mapped (h : Reserved calm limit content s) :
    Meets remap s (sure calm (fun _ t => Mapped calm limit content t ∧
      t.1.reservedLen = s.1.reservedLen) fun _ => True) := by
  unfold remap
  apply (call_reserved h).seq
  intro _ t ht
  obtain ⟨hsame, ht⟩ := ht
  have hreserved : t.1.reservedLen = s.1.reservedLen := by rw [hsame]
  exact ⟨⟨⟨⟨ht.written, ht.kept, ht.faults⟩, ht.file, ht.limit⟩, rfl⟩, hreserved⟩

/-- A sum on `usize` that is in range when `calm` holds. -/
theorem usizeAdd_sure {σ : Type} {t : σ} {a b : Nat} (h : calm → a + b < usizeSize) :
    Meets (Method.ofExec (usizeAdd a b) : Method IoError σ Nat) t
      (sure calm (fun n u => n = a + b ∧ u = t) fun _ => True) := by
  by_cases hfit : a + b < usizeSize
  · rw [meets_ofExec_ok (usizeAdd_ok hfit)]
    exact ⟨rfl, rfl⟩
  · have hpanic : usizeAdd a b = .error .arithmeticOverflow := if_neg hfit
    rw [hpanic]
    exact fun hc => hfit (h hc)

/-- **Reserving** keeps the content, and makes room behind it. -/
theorem reserveFor_mapped (h : Mapped calm limit content s) {bufLen : Nat}
    (hroom : calm → content.length + bufLen + minReserveLen + eightGib ≤ limit)
    (hlimit : limit < usizeSize) :
    Meets (reserveFor bufLen) s
      (sure calm (fun _ t => Mapped calm limit content t ∧
        content.length + bufLen ≤ t.1.reservedLen) fun _ => True) := by
  have hfit := fit h.toReserved
  have hwritten := h.written
  unfold reserveFor
  rw [meets_get_bind, meets_bind, meets_ofExec_ok (usizeSub_ok hfit)]
  by_cases hfull : s.1.reservedLen - s.1.writtenLen < bufLen
  · simp only [if_pos hfull]
    -- what is missing, or the least step
    generalize hstep : max (bufLen - (s.1.reservedLen - s.1.writtenLen)) minReserveLen = step
    have hlow : content.length + bufLen ≤ s.1.reservedLen + step := by omega
    have hhigh : s.1.reservedLen + step ≤ content.length + bufLen + minReserveLen := by omega
    refine (usizeAdd_sure fun hc => ?_).seq ?_
    · have := hroom hc
      omega
    rintro n t ⟨hn, ht⟩
    subst hn ht
    apply (call_reserved h.toReserved).seq
    intro _ u hu
    obtain ⟨-, hu⟩ := hu
    refine (sparseAlloc_keeps hu (by omega) fun hc => ?_).seq fun sparse v hv => ?_
    · have := hroom hc
      omega
    have hlast : ∀ w, Reserved calm limit content w → t.1.reservedLen + step ≤ w.1.reservedLen →
        Meets remap w (sure calm (fun _ x => Mapped calm limit content x ∧
          content.length + bufLen ≤ x.1.reservedLen) fun _ => True) := fun w hw hle =>
      (remap_mapped hw).imp (fun _ x hx => ⟨hx.1, by omega⟩) fun _ hx => hx
    cases sparse with
    | true => exact hlast v (hv.2 rfl).1 (hv.2 rfl).2
    | false =>
        have hplain : calm → t.1.reservedLen + step ≤ limit := fun hc => by
          have := hroom hc
          omega
        have hset := setLen_reserved (F := fun _ => True) hv.1 (by omega) hplain fun _ _ => trivial
        exact hset.seq fun _ w hw => hlast _ hw (Nat.le_refl _)
  · simp only [if_neg hfull]
    exact ⟨h, by omega⟩

/-- Bytes that the reservation has room for. -/
theorem writeData_mapped (h : Mapped calm limit content s) {buf : List UInt8}
    (hfits : content.length + buf.length ≤ s.1.reservedLen)
    (hsize : calm → content.length + buf.length < usizeSize) :
    Meets (writeData buf) s (sure calm (fun _ t => Mapped calm limit (content ++ buf) t ∧
      t.1.reservedLen = s.1.reservedLen) fun _ => True) := by
  have hwritten := h.written
  unfold writeData
  rw [meets_get_bind]
  refine (usizeAdd_sure fun hc => ?_).seq ?_
  · rw [hwritten]
    exact hsize hc
  rintro n t ⟨hn, ht⟩
  subst hn ht
  have hslice : ¬t.1.mmap < t.1.writtenLen + buf.length := by
    rw [h.mmap]
    omega
  have hfile : content.length + buf.length ≤ t.2.file.length := by
    rw [h.file]
    exact hfits
  simp only [if_neg hslice, meets_modify]
  rw [hwritten]
  exact ⟨⟨⟨⟨by rw [List.length_append], overwrite_keeps h.kept hfile, h.faults⟩,
    (overwrite_length hfile).trans h.file, h.limit⟩, h.mmap⟩, rfl⟩

/-- **Writing** appends to the content. -/
theorem write_mapped (h : Mapped calm limit content s) (buf : List UInt8)
    (hroom : calm → content.length + buf.length + minReserveLen + eightGib ≤ limit)
    (hlimit : limit < usizeSize) :
    Meets (write buf) s
      (sure calm (fun _ => Mapped calm limit (content ++ buf)) fun _ => True) := by
  unfold write
  apply (reserveFor_mapped h hroom hlimit).seq
  intro _ t ht
  obtain ⟨ht, hfits⟩ := ht
  have hsize : calm → content.length + buf.length < usizeSize := fun hc => by
    have := hroom hc
    omega
  exact (writeData_mapped ht hfits hsize).seq fun _ u hu => hu.1

/-- Writing several buffers appends all of them: the one reservation has room for the last one too. -/
theorem writeVectored_mapped (h : Mapped calm limit content s) (bufs : List (List UInt8))
    (hroom : calm → content.length + bufs.flatten.length + minReserveLen + eightGib ≤ limit)
    (hlimit : limit < usizeSize) :
    Meets (writeVectored bufs) s
      (sure calm (fun _ => Mapped calm limit (content ++ bufs.flatten)) fun _ => True) := by
  have hsum : (bufs.map List.length).sum = bufs.flatten.length := List.length_flatten.symm
  unfold writeVectored
  rw [hsum]
  apply (reserveFor_mapped h hroom hlimit).seq
  intro _ t ht
  obtain ⟨ht, hfits⟩ := ht
  -- what is written and what is left make up the whole, which fits
  refine (Meets.forEach (F := fun _ => True)
    (I := fun rest u => ∃ done, Mapped calm limit done u ∧
      done ++ rest.flatten = content ++ bufs.flatten ∧
      content.length + bufs.flatten.length ≤ u.1.reservedLen) ?_ ⟨content, ht, rfl, hfits⟩).seq
    fun _ u hu => ?_
  · rintro buf rest u ⟨done, hu, hall, hu'⟩
    have hlen := congrArg List.length hall
    simp only [List.flatten_cons, List.length_append] at hlen
    have hsize : calm → done.length + buf.length < usizeSize := fun hc => by
      have := hroom hc
      omega
    refine (writeData_mapped hu (by omega) hsize).imp (fun _ v hv => ?_) fun _ he => he
    refine ⟨done ++ buf, hv.1, ?_, hv.2 ▸ hu'⟩
    rw [← hall, List.flatten_cons, List.append_assoc]
  · obtain ⟨done, hu, hall, -⟩ := hu
    rw [List.flatten_nil, List.append_nil] at hall
    exact hall ▸ hu

/-- A writer that has filled its reservation. -/
theorem flushed_of_mapped (h : Mapped calm limit content s)
    (hfull : s.1.reservedLen = content.length) : Flushed calm content s := by
  have hfile : content = s.2.file := h.kept.eq_of_length (by rw [h.file, hfull])
  have hmmap := h.mmap.trans hfull
  have hwritten := h.written
  obtain ⟨⟨mmap, written, reserved, sparse⟩, os⟩ := s
  cases hmmap
  cases hwritten
  cases hfull
  exact ⟨⟨sparse, rfl⟩, hfile.symm, h.faults⟩

/-- **Truncating** cuts the reservation behind the content. -/
theorem truncate_flushed (h : Mapped calm limit content s) :
    Meets truncate s (sure calm (fun _ => Flushed calm content) fun _ => True) := by
  have hfit := fit h.toReserved
  have hwritten := h.written
  unfold truncate
  rw [meets_get_bind]
  by_cases hmore : s.1.writtenLen < s.1.reservedLen
  · simp only [if_pos hmore]
    apply (call_reserved h.toReserved).seq
    intro _ t ht
    have hlimit : calm → content.length ≤ limit := fun hc => by
      have := h.limit hc
      omega
    have hset := setLen_reserved (F := fun _ => True) ht.2.toKeeps (Nat.le_refl _) hlimit
      fun _ _ => trivial
    rw [hwritten]
    apply hset.unwrapped.seq
    intro _ u hu
    have hw : u.1.writtenLen = content.length := hu.written
    have hcut : Reserved calm limit content ({ u.1 with reservedLen := u.1.writtenLen }, u.2) :=
      ⟨⟨hu.written, hu.kept, hu.faults⟩, hu.file.trans hw.symm,
        fun hc => Nat.le_trans (Nat.le_of_eq hw) (hu.limit hc)⟩
    exact (remap_mapped hcut).imp (fun _ v hv => flushed_of_mapped hv.1 (hv.2.trans hw))
      fun _ hv => hv
  · simp only [if_neg hmore]
    exact flushed_of_mapped h (by omega)

/-- A flushed writer has a mapping that covers its file. -/
theorem mapped_of_flushed (h : Flushed calm content s) (hlimit : calm → content.length ≤ limit) :
    Mapped calm limit content s := by
  obtain ⟨w, os⟩ := s
  obtain ⟨⟨sparse, hw⟩, hq⟩ := h
  cases hw
  have hfile : os.file = content := hq.file
  have hkept : content <+: os.file := by simp only [hfile, List.prefix_rfl]
  exact ⟨⟨⟨rfl, hkept, hq.faults⟩, congrArg List.length hq.file, hlimit⟩, rfl⟩

/-- **Flushing** leaves the content, and nothing else, in the file. -/
theorem flush_flushed (h : Mapped calm limit content s) :
    Meets flush s (sure calm (fun _ => Flushed calm content) fun _ => True) := by
  unfold flush
  apply (truncate_flushed h).seq
  intro _ t ht
  exact (Os.call_quiet ht.quiet).second.imp (fun _ u hu => ⟨hu.1.symm ▸ ht.writer, hu.2⟩)
    fun _ _ => trivial

/-- Dropping a writer that has filled its reservation does nothing. -/
theorem drop_full (h : s.1.writtenLen = s.1.reservedLen) : drop s = .ok (.ok (), s) := by
  have hno : ¬s.1.writtenLen < s.1.reservedLen := by omega
  have htruncate : truncate s = .ok (.ok (), s) := by
    simp only [truncate, bind, Method.bind, Method.get, if_neg hno]
    exact rfl
  unfold drop Method.orPanic
  rw [htruncate]

/-- **`get_map`** of a flushed writer hands out the mapping of the whole file. -/
theorem getMap_flushed (h : Flushed calm content s) :
    Meets getMap s (sure calm (fun map t => map = content.length ∧ Quiet calm content t.2 ∧
      t.1.writtenLen = t.1.reservedLen) fun _ => True) := by
  unfold getMap
  have hm : Mapped calm content.length content s := mapped_of_flushed h fun _ => Nat.le_refl _
  apply (flush_flushed hm).seq
  intro _ t ht
  obtain ⟨⟨sparse, hw⟩, hq⟩ := ht
  apply (Os.call_quiet hq).second.forget.seq
  intro _ u hu
  apply (Os.map_quiet hu.2).second.forget.seq
  intro stub v hv
  have hv1 := hv.1.trans (hu.1.trans hw)
  show v.1.mmap = content.length ∧ Quiet calm content v.2 ∧ v.1.writtenLen = v.1.reservedLen
  rw [hv1]
  exact ⟨rfl, hv.2.2, rfl⟩

/-- A new writer on a file, whatever the file holds, has written nothing. -/
theorem noAdvise_mapped {file : List UInt8} {os : Os} (h : Quiet calm file os)
    (hlimit : calm → file.length + 1 ≤ limit) :
    Meets noAdvise os
      (sure calm (fun w os => Mapped calm limit [] (w, os)) fun _ => True) := by
  unfold noAdvise
  apply (Os.call_quiet h).forget.seq
  intro _ t ht
  apply (Os.len_quiet ht).forget.seq
  intro n u hu
  obtain ⟨hn, hu⟩ := hu
  -- whichever way, a file that is mapped whole
  have hlast : ∀ (bytes : List UInt8) (v : Os), Quiet calm bytes v → (calm → bytes.length ≤ limit) →
      Meets (Os.map >>= fun mmap => pure (fromArgs mmap)) v
        (sure calm (fun w os => Mapped calm limit [] (w, os)) fun _ => True) := by
    intro bytes v hv hle
    apply (Os.map_quiet hv).forget.seq
    intro mmap x hx
    obtain ⟨hmmap, hx⟩ := hx
    have hfile : x.file.length = mmap := by rw [hx.file, hmmap]
    exact ⟨⟨⟨rfl, List.nil_prefix, hx.faults⟩, hfile, fun hc => hmmap ▸ hle hc⟩, rfl⟩
  by_cases hempty : n = 0
  · simp only [if_pos hempty]
    apply (Os.setLen_quiet hu 1).forget.seq
    intro _ v hv
    apply hlast _ v hv
    intro hc
    have := hlimit hc
    rw [resize_length]
    omega
  · simp only [if_neg hempty]
    apply hlast _ u hu
    intro hc
    have := hlimit hc
    omega

end MmapWriter

end BackedData.Disks
