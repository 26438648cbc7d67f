/-
# BackedData.Disks.MmapWritten — what a writer has written, and what it leaves

Any calls on one `MmapWriter`, however it was made and whatever the file held before: as long as each of them
returned, the writer reads back exactly what was written, its reservation is the mapping and the file, the
next reservation will have room, and a flush or a drop leaves the written bytes and nothing else
(`WrittenExactly`).  That is so under every answer of the hole test, and also where a sparse reservation
failed and a plain one was made in its place.

Where no call to the system fails they all return (`writer_exact`).  The system takes no file to be longer
than an `i64` says.
-/
import BackedData.Disks.MmapFaults
import BackedData.Logic.Buffer

namespace BackedData.Disks

open Logic.Outcome
open Logic.Stateful
open Logic.Buffer

set_option autoImplicit false

/-- The bytes a call writes. -/
def MmapCall.bytes : MmapCall → List UInt8
  | .write buf => buf
  | .writeVectored bufs => bufs.flatten
  | .flush => []

namespace MmapWriter

/-- `AsRef<[u8]>`: a slice of the mapping, whose bytes are those of the file. -/
def asRef (s : MmapWriter × Os) : Exec (List UInt8) := sliceOf (s.2.file.take s.1.mmap) 0 s.1.writtenLen

/-- Calls, one after another. -/
def runCalls (calls : List MmapCall) : WriterM Unit := .forEach MmapCall.run calls

/-- **`Makes os s`** — a new writer on the file `os`: on a mapping of the whole file, whatever is taken of
its holes, or by `no_advise`. -/
inductive Makes (os : Os) : MmapWriter × Os → Prop where
  | fromArgs (sparseFile : Bool) : Makes os ({ fromArgs os.file.length with sparseFile }, os)
  | noAdvise {w : MmapWriter} {os' : Os} (h : noAdvise os = .ok (.ok w, os')) : Makes os (w, os')

/-- **`WrittenExactly content s`** — the writer holds these bytes, and leaves them behind. -/
structure WrittenExactly (content : List UInt8) (s : MmapWriter × Os) : Prop where
  asRef : asRef s = .ok content
  written : s.1.writtenLen ≤ s.1.reservedLen
  mmap : s.1.reservedLen = s.1.mmap
  file : s.1.reservedLen = s.2.file.length
  room : ∀ bufLen t, reserveFor bufLen s = .ok (.ok (), t) → t.1.writtenLen + bufLen ≤ t.1.reservedLen
  flush : ∀ t, flush s = .ok (.ok (), t) → t.2.file = content
  drop : ∀ t, drop s = .ok (.ok (), t) → t.2.file = content

variable {calm : Prop} {limit : Nat} {content : List UInt8} {s : MmapWriter × Os}

/-- Dropping a writer cuts the file behind the content, as flushing does. -/
theorem drop_flushed (h : Mapped calm limit content s) :
    Meets drop s (sure calm (fun _ => Flushed calm content) fun _ => True) :=
  (truncate_flushed h).unwrapped

/-- The mapping covers the content. -/
theorem asRef_mapped (h : Mapped calm limit content s) : asRef s = .ok content := by
  have hcover : s.2.file.take s.1.mmap = s.2.file := by
    rw [h.mmap, ← h.file]
    exact List.take_length
  have hlen : content.length ≤ s.2.file.length := h.kept.length_le
  unfold asRef
  rw [hcover, h.written, sliceOf_ok (Nat.zero_le _) hlen, List.drop_zero, ← List.prefix_iff_eq_take.mp h.kept]

/-- **What is known of a mapped writer**, whatever the system answers next. -/
theorem writtenExactly_of_mapped (h : Mapped False limit content s) (hlimit : limit < usizeSize) :
    WrittenExactly content s where
  asRef := asRef_mapped h
  written := fit h.toReserved
  mmap := h.mmap.symm
  file := h.file.symm
  room bufLen t ht := by
    have hreserve : Meets (reserveFor bufLen) s
        (sure False (fun _ t => Mapped False limit content t ∧ content.length + bufLen ≤ t.1.reservedLen)
          fun _ => True) := reserveFor_mapped h nofun hlimit
    obtain ⟨hmapped, hroom⟩ := hreserve.ok ht
    rw [hmapped.written]
    exact hroom
  flush t ht := ((flush_flushed h).ok ht).quiet.file
  drop t ht := ((drop_flushed h).ok ht).quiet.file

/-- **The step lemma.** -/
theorem run_mapped (h : Mapped calm limit content s) (call : MmapCall)
    (hroom : calm → content.length + call.bytes.length + minReserveLen + eightGib ≤ limit)
    (hlimit : limit < usizeSize) :
    Meets call.run s (sure calm (fun _ => Mapped calm limit (content ++ call.bytes)) fun _ => True) := by
  cases call with
  | write buf =>
      show Meets (MmapWriter.write buf >>= fun _ => pure ()) s _
      apply (write_mapped h buf hroom hlimit).seq
      intro _ t ht
      exact ht
  | writeVectored bufs =>
      show Meets (MmapWriter.writeVectored bufs >>= fun _ => pure ()) s _
      apply (writeVectored_mapped h bufs hroom hlimit).seq
      intro _ t ht
      exact ht
  | flush =>
      show Meets MmapWriter.flush s _
      refine (flush_flushed h).imp (fun _ t ht => ?_) fun _ ht => ht
      rw [show content ++ MmapCall.flush.bytes = content from List.append_nil content]
      exact mapped_of_flushed ht fun hc => by
        have := hroom hc
        omega

/-- **The run lemma.** -/
theorem runCalls_mapped (h : Mapped calm limit content s) (calls : List MmapCall)
    (hroom : calm →
      content.length + (calls.flatMap MmapCall.bytes).length + minReserveLen + eightGib ≤ limit)
    (hlimit : limit < usizeSize) :
    Meets (runCalls calls) s
      (sure calm (fun _ => Mapped calm limit (content ++ calls.flatMap MmapCall.bytes)) fun _ => True) := by
  -- what is written and what is left make up the whole
  refine (Meets.forEach (F := fun _ => True)
    (I := fun rest t => ∃ done, Mapped calm limit done t ∧
      done ++ rest.flatMap MmapCall.bytes = content ++ calls.flatMap MmapCall.bytes) ?_
    ⟨content, h, rfl⟩).imp (fun _ t ht => ?_) fun _ ht => ht
  · rintro call rest t ⟨done, ht, hall⟩
    have hlen := congrArg List.length hall
    simp only [List.flatMap_cons, List.length_append] at hlen
    refine (run_mapped ht call (fun hc => ?_) hlimit).imp (fun _ u hu => ?_) fun _ hu => hu
    · have := hroom hc
      omega
    · refine ⟨done ++ call.bytes, hu, ?_⟩
      rw [List.append_assoc, ← List.flatMap_cons]
      exact hall
  · obtain ⟨done, ht, hall⟩ := ht
    rw [List.flatMap_nil, List.append_nil] at hall
    exact hall ▸ ht

/-- A new writer has written nothing, and maps the whole file. -/
theorem Makes.mapped {os : Os} (h : Makes os s) (hfaults : calm → os.faults = [])
    (hlimit : calm → os.file.length + 1 ≤ limit) : Mapped calm limit [] s := by
  have hquiet : Quiet calm os.file os := ⟨rfl, hfaults⟩
  cases h with
  | fromArgs sparseFile =>
      have hle : calm → os.file.length ≤ limit := fun hc => by
        have := hlimit hc
        omega
      exact ⟨⟨⟨rfl, List.nil_prefix, hfaults⟩, rfl, hle⟩, rfl⟩
  | noAdvise hnew => exact (noAdvise_mapped hquiet hlimit).ok hnew

end MmapWriter

open MmapWriter

/-- **What a writer has written.**  After any calls on a new writer that all returned, it holds exactly their
bytes.  If no call to the system fails, and neither the file nor what is written is longer than a file can
be, there is a new writer and every call on it returns, as do the next reservation, flush and drop. -/
theorem writer_exact (os : Os) (calls : List MmapCall) :
    (∀ s t, Makes os s → runCalls calls s = .ok (.ok (), t) →
        WrittenExactly (calls.flatMap MmapCall.bytes) t) ∧
      (os.faults = [] → os.file.length < i64Size → (calls.flatMap MmapCall.bytes).length < i64Size →
        (∃ w os', noAdvise os = .ok (.ok w, os')) ∧
          ∀ s, Makes os s → ∃ t, runCalls calls s = .ok (.ok (), t) ∧
            (∃ u, flush t = .ok (.ok (), u)) ∧ ∃ u, drop t = .ok (.ok (), u)) := by
  constructor
  · intro s t hs hrun
    have hnew : Mapped False 0 [] s := hs.mapped nofun nofun
    have hmapped := (runCalls_mapped hnew calls nofun (by decide)).ok hrun
    rw [List.nil_append] at hmapped
    exact writtenExactly_of_mapped hmapped (by decide)
  · intro hfaults hfile hbytes
    have hsizes : i64Size + minReserveLen + eightGib < usizeSize := by decide
    have hlast : usizeSize - 1 < usizeSize := by decide
    have hlimit : os.file.length + 1 ≤ usizeSize - 1 := by omega
    refine ⟨?_, fun s hs => ?_⟩
    · have hquiet : Quiet True os.file os := ⟨rfl, fun _ => hfaults⟩
      exact (noAdvise_mapped hquiet fun _ => hlimit).returns trivial
    · have hnew : Mapped True (usizeSize - 1) [] s := hs.mapped (fun _ => hfaults) fun _ => hlimit
      have hroom : True → ([] : List UInt8).length + (calls.flatMap MmapCall.bytes).length +
          minReserveLen + eightGib ≤ usizeSize - 1 := fun _ => by
        rw [List.length_nil]
        omega
      have hmeets := runCalls_mapped hnew calls hroom hlast
      obtain ⟨_, t, hrun⟩ := hmeets.returns trivial
      have hmapped := hmeets.ok hrun
      obtain ⟨_, u, hflush⟩ := (flush_flushed hmapped).returns trivial
      obtain ⟨_, v, hdrop⟩ := (drop_flushed hmapped).returns trivial
      exact ⟨t, hrun, ⟨u, hflush⟩, v, hdrop⟩

end BackedData.Disks
