/-
# BackedData.Disks.MmapSessions — what a session reads back

Sessions on one `Mmap`, each a read of everything or a list of writes.  A disk that stores one value would
read back what the last write session wrote (`expected`); the mapping that is kept between sessions
reads back `observed` instead: a write session that follows a write session goes on behind its bytes.

`sessions_observed` is the run lemma, and `sessions_exact` says for which sequences of sessions the two agree.
-/
import BackedData.Disks.MmapSpec

namespace BackedData.Disks

open Logic.Outcome
open Logic.Stateful

set_option autoImplicit false

/-- A call of `Write` on the guard for writing. -/
inductive WriteCall where
  | write (buf : List UInt8)
  | writeVectored (bufs : List (List UInt8))
  deriving DecidableEq, Repr

namespace WriteCall

/-- The bytes of the call. -/
def bytes : WriteCall → List UInt8
  | .write buf => buf
  | .writeVectored bufs => bufs.flatten

/-- The bytes of several calls. -/
def all (calls : List WriteCall) : List UInt8 := calls.flatMap bytes

@[simp] theorem all_nil : all [] = [] := rfl

@[simp] theorem all_cons (call : WriteCall) (calls : List WriteCall) :
    all (call :: calls) = call.bytes ++ all calls := rfl

/-- The call, whose answer is always that all bytes were taken. -/
def run (call : WriteCall) : MmapM Unit := do
  let _ ← Mmap.writeGuard <| match call with
    | .write buf => MmapWriter.write buf
    | .writeVectored bufs => MmapWriter.writeVectored bufs
  pure ()

end WriteCall

/-- A session: read everything, or make these calls one after another. -/
inductive Session where
  | read
  | write (calls : List WriteCall)
  deriving DecidableEq, Repr

namespace Session

/-- One session, and what it read. -/
def run : Session → MmapM (List (List UInt8))
  | .read => do
      Mmap.readDisk
      let bytes ← Mmap.readGuard
      Mmap.dropGuard
      pure [bytes]
  | .write calls => do
      Mmap.writeDisk
      .forEach WriteCall.run calls
      Mmap.writeGuard MmapWriter.flush
      Mmap.dropGuard
      pure []

/-- The bytes a session writes. -/
def bytes : Session → List UInt8
  | .read => []
  | .write calls => WriteCall.all calls

end Session

/-- One session after another, and what they read. -/
def runSessions : List Session → MmapM (List (List UInt8))
  | [] => pure []
  | s :: ss => do
      let out ← s.run
      let outs ← runSessions ss
      pure (out ++ outs)

/-- A new `Mmap` on the file, and the sessions on it. -/
def sessions (ss : List Session) : MmapM (List (List UInt8)) := do
  let mmap ← .onSnd Mmap.new
  SwitchingMmap.hold mmap
  runSessions ss

/-! ## What should be read, and what is -/

/-- A write session replaces the content `c`. -/
def expected (c : List UInt8) : List Session → List (List UInt8)
  | [] => []
  | .read :: ss => c :: expected c ss
  | .write calls :: ss => expected (WriteCall.all calls) ss

/-- A write session appends to the content `c` where the session before it wrote too. -/
def observed (c : List UInt8) (writing : Bool) : List Session → List (List UInt8)
  | [] => []
  | .read :: ss => c :: observed c false ss
  | .write calls :: ss => observed ((if writing then c else []) ++ WriteCall.all calls) true ss

/-- Does the sequence go on with a write session? -/
def writesNext : List Session → Bool
  | .write _ :: _ => true
  | _ => false

/-- **`Spaced`** — between a write session that stores something and the next write session there is a
read, unless nothing is read any more. -/
def Spaced : List Session → Prop
  | [] => True
  | .read :: ss => Spaced ss
  | .write calls :: ss =>
      (WriteCall.all calls ≠ [] → writesNext ss = true → Session.read ∉ ss) ∧ Spaced ss

instance decidableSpaced : (ss : List Session) → Decidable (Spaced ss)
  | [] => inferInstanceAs (Decidable True)
  | .read :: ss => decidableSpaced ss
  | .write calls :: ss =>
      have := decidableSpaced ss
      inferInstanceAs
        (Decidable
          ((WriteCall.all calls ≠ [] → writesNext ss = true → Session.read ∉ ss) ∧ Spaced ss))

/-- With no read there is nothing to tell apart. -/
theorem expected_unread {c : List UInt8} {ss : List Session} (h : Session.read ∉ ss) :
    expected c ss = [] := by
  induction ss generalizing c with
  | nil => rfl
  | cons s ss ih =>
      have hrest : Session.read ∉ ss := fun hm => h (List.mem_cons_of_mem _ hm)
      cases s with
      | read => exact absurd List.mem_cons_self h
      | write calls => exact ih hrest

theorem observed_unread {c : List UInt8} {writing : Bool} {ss : List Session}
    (h : Session.read ∉ ss) : observed c writing ss = [] := by
  induction ss generalizing c writing with
  | nil => rfl
  | cons s ss ih =>
      have hrest : Session.read ∉ ss := fun hm => h (List.mem_cons_of_mem _ hm)
      cases s with
      | read => exact absurd List.mem_cons_self h
      | write calls => exact ih hrest

theorem spaced_unread {ss : List Session} (h : Session.read ∉ ss) : Spaced ss := by
  induction ss with
  | nil => trivial
  | cons s ss ih =>
      have hrest : Session.read ∉ ss := fun hm => h (List.mem_cons_of_mem _ hm)
      cases s with
      | read => exact absurd List.mem_cons_self h
      | write calls => exact ⟨fun _ _ => hrest, ih hrest⟩

/-- Bytes too many stay until the next read, and show there. -/
theorem observed_drifts {c d : List UInt8} {ss : List Session} (hlen : c.length < d.length)
    (h : Session.read ∈ ss) : observed d true ss ≠ expected c ss := by
  induction ss generalizing c d with
  | nil => cases h
  | cons s ss ih =>
      cases s with
      | read =>
          intro heq
          have hhead : d = c := (List.cons.inj heq).1
          rw [hhead] at hlen
          omega
      | write calls =>
          have hrest : Session.read ∈ ss := by
            rcases List.mem_cons.mp h with hs | hs
            · cases hs
            · exact hs
          refine ih ?_ hrest
          simp only [if_true, List.length_append]
          omega

/-- The two agree exactly when no write session goes on behind bytes that a later read would show. -/
theorem observed_iff (c : List UInt8) (writing : Bool) (ss : List Session) :
    observed c writing ss = expected c ss ↔
      (writing = true → c ≠ [] → writesNext ss = true → Session.read ∉ ss) ∧ Spaced ss := by
  induction ss generalizing c writing with
  | nil => simp [observed, expected, Spaced]
  | cons s ss ih =>
      cases s with
      | read =>
          have hnext : writesNext (.read :: ss) = false := rfl
          have hrest := ih c false
          simp only [observed, expected, Spaced, List.cons.injEq, true_and, hnext]
          simpa using hrest
      | write calls =>
          have hnext : writesNext (.write calls :: ss) = true := rfl
          have hread : Session.read ∉ (.write calls :: ss : List Session) ↔ Session.read ∉ ss := by
            simp
          by_cases happ : writing = true ∧ c ≠ []
          · -- the bytes of the earlier session are still there
            obtain ⟨rfl, hc⟩ := happ
            have hpos : 0 < c.length := List.length_pos_iff.mpr hc
            have hlen : (WriteCall.all calls).length < (c ++ WriteCall.all calls).length := by
              rw [List.length_append]
              omega
            constructor
            · intro heq
              have hunread : Session.read ∉ ss := fun hm => observed_drifts hlen hm heq
              exact ⟨fun _ _ _ => hread.mpr hunread, fun _ _ => hunread, spaced_unread hunread⟩
            · intro h
              have hunread : Session.read ∉ ss := hread.mp (h.1 rfl hc hnext)
              show observed _ true ss = expected _ ss
              rw [observed_unread hunread, expected_unread hunread]
          · -- nothing is carried over
            have hkept : (if writing then c else []) = [] := by
              by_cases hw : writing = true
              · rw [if_pos hw]
                exact Classical.byContradiction fun hc => happ ⟨hw, hc⟩
              · exact if_neg hw
            have hthis := ih (WriteCall.all calls) true
            simp only [observed, expected, Spaced, hkept, List.nil_append]
            rw [hthis]
            constructor
            · intro h
              exact ⟨fun hw hc => absurd ⟨hw, hc⟩ happ, h.1 rfl, h.2⟩
            · intro h
              exact ⟨fun _ => h.2.1, h.2.2⟩

/-! ## The sessions on the mapped file -/

/-- The mapping for reading covers the content. -/
def ReadMmap.Covers (c : List UInt8) : ReadMmap → Prop
  | .empty => c = []
  | .nonEmpty mmap => mmap = c.length

theorem ReadMmap.asRef_covers {c : List UInt8} {map : ReadMmap} (h : map.Covers c) :
    map.asRef c = c := by
  cases map with
  | empty => exact h.symm
  | nonEmpty n =>
      have hn : n = c.length := h
      show c.take n = c
      rw [hn, List.take_length]

/-- What is held between two sessions, where the content is `c`: a mapping of all of it, or the writer
that wrote it. -/
inductive Idle (c : List UInt8) : Bool → SwitchingMmap → Prop
  | reading {map : ReadMmap} (h : map.Covers c) : Idle c false (.readMmap map 0)
  | writing (sparseFile : Bool) : Idle c true (.writeMmap
      { mmap := c.length, writtenLen := c.length, reservedLen := c.length, sparseFile } 0)

/-- The state between two sessions. -/
structure Settled (calm : Prop) (c : List UInt8) (writing : Bool) (m : Mmap) : Prop where
  held : Idle c writing m.1
  quiet : Quiet calm c m.2

section Sessions

variable {calm : Prop} {limit : Nat} {c : List UInt8} {writing : Bool}
variable {α : Type} {held : SwitchingMmap} {w : MmapWriter} {os : Os} {guards : Nat}

theorem onWriter_sure {m : MmapWriter.WriterM α} {P : α → MmapWriter × Os → Prop}
    {F : MmapWriter × Os → Prop} (h : Meets m (w, os) (sure calm P F)) :
    Meets (SwitchingMmap.onWriter w m) (held, os)
      (sure calm (fun r t => match r.1 with
        | .ok a => P a (r.2, t.2)
        | .error _ => ¬calm) fun _ => True) := by
  unfold Meets SwitchingMmap.onWriter at *
  rcases hm : m (w, os) with p | ⟨e | a, t⟩
  · simp only [hm] at h ⊢
    exact h
  · simp only [hm] at h ⊢
    exact h.1
  · simp only [hm] at h ⊢
    exact h

theorem onWriter_drop {Q : Post IoError Mmap (Except IoError Unit × MmapWriter)}
    (h : w.writtenLen = w.reservedLen) :
    Meets (SwitchingMmap.onWriter w MmapWriter.drop) (held, os) Q ↔ Q.ok (.ok (), w) (held, os) := by
  have hdrop : MmapWriter.drop (w, os) = .ok (.ok (), (w, os)) := MmapWriter.drop_full h
  unfold Meets SwitchingMmap.onWriter
  simp only [hdrop]

theorem orInvalid_sure {m : Method IoError Os α} {P : α → Os → Prop} {F : Os → Prop}
    (h : Meets m os (sure calm P F)) :
    Meets (SwitchingMmap.orInvalid m) (held, os)
      (sure calm (fun a t => t.1 = held ∧ P a t.2) fun _ => True) := by
  unfold SwitchingMmap.orInvalid
  rw [meets_bind, meets_attempt, meets_onSnd]
  exact h.mono (fun _ _ ht => ⟨rfl, ht⟩) (fun _ _ he => ⟨he.1, trivial⟩) fun _ hp => hp

theorem writeGuard_sure {m : MmapWriter.WriterM α} {P : α → MmapWriter × Os → Prop}
    {F : MmapWriter × Os → Prop} (h : Meets m (w, os) (sure calm P F)) :
    Meets (Mmap.writeGuard m) (.writeMmap w guards, os)
      (sure calm (fun a t => ∃ w, t.1 = .writeMmap w guards ∧ P a (w, t.2)) fun _ => True) := by
  unfold Meets Mmap.writeGuard at *
  rcases hm : m (w, os) with p | ⟨e | a, t⟩
  · simp only [hm] at h ⊢
    exact h
  · simp only [hm] at h ⊢
    exact ⟨h.1, trivial⟩
  · simp only [hm] at h ⊢
    exact ⟨t.1, rfl, h⟩

/-- Opening for reading: the mapping covers the content. -/
theorem readDisk_settled {m : Mmap} (h : Settled calm c writing m) :
    Meets Mmap.readDisk m
      (sure calm (fun _ t => ∃ map : ReadMmap, map.Covers c ∧ t.1 = .readMmap map 1 ∧
        Quiet calm c t.2) fun _ => True) := by
  obtain ⟨held, os⟩ := m
  obtain ⟨hheld, hq⟩ := h
  unfold Mmap.readDisk
  rw [meets_get_bind]
  cases hheld with
  | reading hcover => exact ⟨_, hcover, rfl, hq⟩
  | writing sparse =>
      -- the writer of the last session, whose bytes are the file
      have hf : Flushed calm c (_, os) := ⟨⟨sparse, rfl⟩, hq⟩
      unfold SwitchingMmap.readHandle
      by_cases hsome : 0 < c.length
      · simp only [if_true, if_pos hsome]
        apply (onWriter_sure (MmapWriter.getMap_flushed hf)).seq
        intro r t ht
        obtain ⟨r, w⟩ := r
        cases r with
        | error e => exact ⟨ht, trivial⟩
        | ok map =>
            obtain ⟨hmap, hqt, hfull⟩ := ht
            simp only [meets_bind, onWriter_drop hfull]
            exact (orInvalid_sure (Os.call_quiet hqt)).mono
              (fun _ u hu => ⟨.nonEmpty map, hmap, rfl, hu.2⟩) (fun _ _ he => he) fun _ hp => hp
      · simp only [if_true, if_neg hsome]
        have hnil : c = [] := List.eq_nil_of_length_eq_zero (by omega)
        simp only [meets_bind, onWriter_drop (w := ⟨c.length, c.length, c.length, sparse⟩) rfl]
        exact ⟨.empty, hnil, rfl, hq⟩

/-- A read session returns the content. -/
theorem read_settled {m : Mmap} (h : Settled calm c writing m) :
    Meets (Session.run .read) m
      (sure calm (fun out t => out = [c] ∧ Settled calm c false t) fun _ => True) := by
  unfold Session.run
  apply (readDisk_settled h).seq
  intro _ t ht
  obtain ⟨held, os⟩ := t
  obtain ⟨map, hcover, hheld, hq⟩ := ht
  cases hheld
  have hread : map.asRef os.file = c := by
    rw [hq.file]
    exact ReadMmap.asRef_covers hcover
  show [map.asRef os.file] = [c] ∧ Settled calm c false (.readMmap map 0, os)
  rw [hread]
  exact ⟨rfl, .reading hcover, hq⟩

/-- Opening for writing: the writer goes on where the last session wrote, and else starts anew. -/
theorem writeDisk_settled {m : Mmap} (h : Settled calm c writing m)
    (hlimit : calm → c.length + 1 ≤ limit) :
    Meets Mmap.writeDisk m
      (sure calm (fun _ t => ∃ w, t.1 = .writeMmap w 1 ∧
        Mapped calm limit (if writing then c else []) (w, t.2)) fun _ => True) := by
  obtain ⟨held, os⟩ := m
  obtain ⟨hheld, hq⟩ := h
  unfold Mmap.writeDisk
  rw [meets_get_bind]
  have hfits : calm → c.length ≤ limit := fun hc => Nat.le_of_succ_le (hlimit hc)
  cases hheld with
  | writing sparse =>
      have hf : Flushed calm c (_, os) := ⟨⟨sparse, rfl⟩, hq⟩
      exact ⟨_, rfl, MmapWriter.mapped_of_flushed hf hfits⟩
  | @reading map hcover =>
      unfold SwitchingMmap.writeHandle
      cases map with
      | empty =>
          apply (orInvalid_sure (MmapWriter.noAdvise_mapped hq hlimit)).seq
          intro w t ht
          exact ⟨w, rfl, ht.2⟩
      | nonEmpty n =>
          apply (orInvalid_sure (Os.call_quiet hq)).seq
          intro _ t ht
          have hn : n = c.length := hcover
          have hfile : t.2.file.length = n := by rw [ht.2.file, hn]
          exact ⟨.fromArgs n, rfl, ⟨⟨rfl, List.nil_prefix, ht.2.faults⟩, hfile,
            fun hc => hn ▸ hfits hc⟩, rfl⟩

/-- One call, through the guard. -/
theorem call_mapped (call : WriteCall) {content : List UInt8} {m : Mmap}
    (hm : m.1 = .writeMmap w 1) (h : Mapped calm limit content (w, m.2))
    (hroom : calm → content.length + call.bytes.length + MmapWriter.minReserveLen +
      MmapWriter.eightGib ≤ limit) (hlimit : limit < usizeSize) :
    Meets call.run m
      (sure calm (fun _ t => ∃ w, t.1 = .writeMmap w 1 ∧
        Mapped calm limit (content ++ call.bytes) (w, t.2)) fun _ => True) := by
  obtain ⟨held, os⟩ := m
  cases hm
  unfold WriteCall.run
  cases call with
  | write buf =>
      exact (writeGuard_sure (MmapWriter.write_mapped h buf hroom hlimit)).seq fun _ _ ht => ht
  | writeVectored bufs =>
      exact (writeGuard_sure (MmapWriter.writeVectored_mapped h bufs hroom hlimit)).seq
        fun _ _ ht => ht

/-- The calls of a session, one after another. -/
theorem calls_mapped (calls : List WriteCall) {content : List UInt8} {m : Mmap}
    (hm : m.1 = .writeMmap w 1) (h : Mapped calm limit content (w, m.2))
    (hroom : calm → content.length + (WriteCall.all calls).length +
      MmapWriter.minReserveLen + MmapWriter.eightGib ≤ limit) (hlimit : limit < usizeSize) :
    Meets (Method.forEach WriteCall.run calls) m
      (sure calm (fun _ t => ∃ w, t.1 = .writeMmap w 1 ∧
        Mapped calm limit (content ++ WriteCall.all calls) (w, t.2)) fun _ => True) := by
  -- what is written and what is left make up the whole
  refine (Meets.forEach (F := fun _ => True)
    (I := fun rest t => ∃ w done, t.1 = .writeMmap w 1 ∧ Mapped calm limit done (w, t.2) ∧
      done ++ WriteCall.all rest = content ++ WriteCall.all calls)
    ?_ ⟨w, content, hm, h, rfl⟩).imp ?_ fun _ ht => ht
  · rintro call rest m ⟨w, done, hm, hdone, hall⟩
    have hlen := congrArg List.length hall
    simp only [WriteCall.all_cons, List.length_append] at hlen
    refine (call_mapped call hm hdone (fun hc => ?_) hlimit).imp (fun _ t ht => ?_) fun _ he => he
    · have := hroom hc
      omega
    · obtain ⟨w, hw, ht⟩ := ht
      refine ⟨w, done ++ call.bytes, hw, ht, ?_⟩
      rw [← hall, WriteCall.all_cons, List.append_assoc]
  · rintro _ t ⟨w, done, ht, hdone, hall⟩
    rw [WriteCall.all_nil, List.append_nil] at hall
    exact ⟨w, ht, hall ▸ hdone⟩

/-- A write session leaves its bytes, behind those of a write session right before it. -/
theorem write_settled (calls : List WriteCall) {m : Mmap} (h : Settled calm c writing m)
    (hroom : calm → c.length + (WriteCall.all calls).length + MmapWriter.minReserveLen +
      MmapWriter.eightGib ≤ limit) (hlimit : limit < usizeSize) :
    Meets (Session.run (.write calls)) m
      (sure calm (fun out t => out = [] ∧
        Settled calm ((if writing then c else []) ++ WriteCall.all calls) true t)
        fun _ => True) := by
  have hlimit1 : calm → c.length + 1 ≤ limit := fun hc => by
    have := hroom hc
    have hmin : 1 ≤ MmapWriter.minReserveLen := by decide
    omega
  unfold Session.run
  apply (writeDisk_settled h hlimit1).seq
  intro _ t ht
  obtain ⟨w, hheld, hw⟩ := ht
  have hstart : (if writing then c else []).length ≤ c.length := by
    cases writing <;> simp
  refine (calls_mapped calls hheld hw (fun hc => ?_) hlimit).seq fun _ u hu => ?_
  · have := hroom hc
    omega
  obtain ⟨held, os⟩ := u
  obtain ⟨w, hheld, hw⟩ := hu
  cases hheld
  apply (writeGuard_sure (MmapWriter.flush_flushed hw)).seq
  intro _ v hv
  obtain ⟨held, os⟩ := v
  obtain ⟨w, hheld, ⟨sparse, hfull⟩, hq⟩ := hv
  cases hheld
  cases hfull
  exact ⟨rfl, .writing sparse, hq⟩

/-- The bytes all the sessions write. -/
def written (ss : List Session) : List UInt8 := ss.flatMap Session.bytes

/-- **The run lemma.** -/
theorem runSessions_observed (ss : List Session) {m : Mmap} (h : Settled calm c writing m)
    (hroom : calm → c.length + (written ss).length + MmapWriter.minReserveLen +
      MmapWriter.eightGib ≤ limit) (hlimit : limit < usizeSize) :
    Meets (runSessions ss) m
      (sure calm (fun outs _ => outs = observed c writing ss) fun _ => True) := by
  induction ss generalizing c writing m with
  | nil => exact rfl
  | cons s ss ih =>
      unfold runSessions
      cases s with
      | read =>
          apply (read_settled h).seq
          intro out t ht
          obtain ⟨rfl, ht⟩ := ht
          apply (ih ht hroom).seq
          intro outs u hu
          subst hu
          exact rfl
      | write calls =>
          have hall : (written (.write calls :: ss)).length =
              (WriteCall.all calls).length + (written ss).length := by
            unfold written
            rw [List.flatMap_cons, List.length_append]
            rfl
          rw [hall] at hroom
          refine (write_settled calls h (fun hc => ?_) hlimit).seq fun out t ht => ?_
          · have := hroom hc
            omega
          obtain ⟨rfl, ht⟩ := ht
          refine (ih ht fun hc => ?_).seq fun outs u hu => ?_
          · have hc := hroom hc
            have hstart : (if writing then c else []).length ≤ c.length := by
              cases writing <;> simp
            rw [List.length_append]
            omega
          subst hu
          exact rfl

/-- A new `Mmap` covers its file. -/
theorem new_settled {os : Os} (h : Quiet calm c os) :
    Meets Mmap.new os
      (sure calm (fun held os => Settled calm c false (held, os)) (Quiet calm c)) := by
  unfold Mmap.new ReadMmap.newArc
  simp only [meets_bind]
  refine (Os.call_quiet h).mono ?_ (fun _ _ he => he) fun _ hp => hp
  intro _ t ht
  refine (Os.len_quiet ht).mono ?_ (fun _ _ he => he) fun _ hp => hp
  rintro n u ⟨hn, hu⟩
  by_cases hempty : n = 0
  · simp only [if_pos hempty]
    have hnil : c = [] := List.eq_nil_of_length_eq_zero (by omega)
    have hcover : ReadMmap.Covers c .empty := hnil
    exact ⟨.reading hcover, hu⟩
  · simp only [if_neg hempty]
    refine (meets_bind _ _).mpr <| (Os.map_quiet hu).mono ?_ (fun _ _ he => he)
      fun _ hp => hp
    rintro len v ⟨hlen, hv⟩
    have hcover : ReadMmap.Covers c (.nonEmpty len) := hlen
    exact ⟨.reading hcover, hv⟩

/-- **What the sessions on a new `Mmap` read.** -/
theorem sessions_observed (ss : List Session) {os : Os} (hfaults : calm → os.faults = [])
    (hroom : calm → os.file.length + (written ss).length + MmapWriter.minReserveLen +
      MmapWriter.eightGib ≤ limit) (hlimit : limit < usizeSize) :
    Meets (sessions ss) (.invalid, os)
      (sure calm (fun outs _ => outs = observed os.file false ss) fun _ => True) := by
  have hq : Quiet calm os.file os := ⟨rfl, hfaults⟩
  unfold sessions
  apply (new_settled hq).second.forget.seq
  intro held t ht
  exact runSessions_observed ss ht.2 hroom hlimit

end Sessions

/-- With no failing call, and bytes that fit in memory, the sessions return. -/
theorem sessions_return (ss : List Session) {os : Os} (hfaults : os.faults = [])
    (hfits : os.file.length + (written ss).length ≤ 2 ^ 63) :
    ∃ m, sessions ss (.invalid, os) = .ok (.ok (observed os.file false ss), m) := by
  have hlimit : 2 ^ 63 + MmapWriter.minReserveLen + MmapWriter.eightGib < usizeSize := by decide
  have hmeets : Meets (sessions ss) (.invalid, os)
      (sure True (fun outs _ => outs = observed os.file false ss) fun _ => True) :=
    sessions_observed ss (fun _ => hfaults) (fun _ => by omega) hlimit
  obtain ⟨outs, m, hrun⟩ := hmeets.returns trivial
  have houts : outs = observed os.file false ss := hmeets.ok hrun
  rw [houts] at hrun
  exact ⟨m, hrun⟩

/-! ## What a store promises, and when it holds -/

/-- **What the sessions read back.**  If the sessions return, every read session returned what the write
session before it wrote exactly when the sequence is `Spaced`; and they do return when no call to the
operating system fails and the bytes fit in memory. -/
theorem sessions_exact (os : Os) (ss : List Session) :
    (∀ outs m, sessions ss (.invalid, os) = .ok (.ok outs, m) →
        (outs = expected os.file ss ↔ Spaced ss)) ∧
      (os.faults = [] → os.file.length + (written ss).length ≤ 2 ^ 63 →
        ∃ outs m, sessions ss (.invalid, os) = .ok (.ok outs, m)) := by
  constructor
  · intro outs m hrun
    have hmeets : Meets (sessions ss) (.invalid, os)
        (sure False (fun outs _ => outs = observed os.file false ss) fun _ => True) :=
      sessions_observed ss False.elim False.elim (by decide : 0 < usizeSize)
    have houts : outs = observed os.file false ss := hmeets.ok hrun
    rw [houts, observed_iff]
    exact ⟨fun h => h.2, fun h => ⟨nofun, h⟩⟩
  · intro hfaults hfits
    obtain ⟨m, hrun⟩ := sessions_return ss hfaults hfits
    exact ⟨_, m, hrun⟩

/-- A file of three bytes. -/
def threeBytes : Os := { file := [1, 2, 3], faults := [], holes := [true] }

/-- One byte each is written by two sessions in a row, and read back. -/
def twoWrites : List Session := [.write [.write [7]], .write [.write [8]], .read]

/-- The read returns both bytes: the second session went on behind the first. -/
theorem twoWrites_appended :
    ∃ m, sessions twoWrites (.invalid, threeBytes) = .ok (.ok [[7, 8]], m) ∧
      expected threeBytes.file twoWrites = [[8]] := by
  have hfits : threeBytes.file.length + (written twoWrites).length ≤ 2 ^ 63 := by decide
  obtain ⟨m, hrun⟩ := sessions_return twoWrites rfl hfits
  exact ⟨m, hrun, rfl⟩

/-- Reads between the write sessions, one of which writes nothing. -/
def spacedWrites : List Session :=
  [.read, .write [.write [7], .writeVectored [[8], [9]]], .read, .write [.write []],
    .write [.write [5]], .read, .read]

theorem sessions_exact_spaced :
    ∃ m, sessions spacedWrites (.invalid, threeBytes) =
      .ok (.ok [[1, 2, 3], [7, 8, 9], [5], [5]], m) := by
  have hexact := sessions_exact threeBytes spacedWrites
  obtain ⟨outs, m, hrun⟩ := hexact.2 rfl (by decide)
  have houts : outs = [[1, 2, 3], [7, 8, 9], [5], [5]] := (hexact.1 outs m hrun).mpr (by decide)
  rw [houts] at hrun
  exact ⟨m, hrun⟩

end BackedData.Disks
