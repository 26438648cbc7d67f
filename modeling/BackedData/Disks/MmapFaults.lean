/-
# BackedData.Disks.MmapFaults — the reservation and the mapping, when calls to the system fail

`MmapWriter` advances `reserved_len` as soon as the file has been lengthened, and the mapping follows at
the end of the reservation.  A call that fails in between leaves `reserved_len` advanced, and a later,
smaller write takes it for the length of the mapping.

`faults_exact`: over any calls on a writer and any failures of the calls to the system, every call leaves
`written_len ≤ reserved_len ≤` the mapping, slices inside it, and keeps the written bytes when it returns
an error, exactly when no reservation is left stranded (`Strands`): lengthened past the mapping, with a
failure behind that.

`Strands` reads the answers of the system in the order of the calls, and nothing else.
-/
import BackedData.Disks.MmapSpec
import BackedData.Logic.Trace

namespace BackedData.Disks

open Logic.Outcome
open Logic.Stateful
open Logic.Trace
open BackedData.Entry (nextFault)

set_option autoImplicit false

namespace MmapWriter

/-! ## The answers of the system to a reservation -/

/-- `remap`: when it fails, the file stays longer than the mapping, with this length. -/
def remapStrands (reserved : Nat) (faults : List Bool) : Option Nat :=
  if (nextFault faults).1 then some reserved else none

/-- `set_len` to `n` and `remap`; `left` is the length that the calls before have given the file, if they
have. -/
def plainStrands (left : Option Nat) (n : Nat) (faults : List Bool) : Option Nat :=
  match nextFault faults with
  | (true, _) => left
  | (false, faults) => remapStrands n faults

/-- `reserve_sparse`, in a file of this length: the length it is left with when the reservation is made
(`inl`), or when it is not (`inr`); with the answers still to come. -/
def holeAnswers (n : Nat) (faults holes : List Bool) : (Nat ⊕ Option Nat) × List Bool :=
  -- the two seeks of the hole test
  match nextFault faults with
  | (true, faults) => (.inl n, faults)
  | (false, faults) =>
      match nextFault faults with
      | (true, faults) => (.inl n, faults)
      | (false, faults) =>
          if (nextFault holes).1 = false then (.inl n, faults)
          else if i64Size ≤ n + eightGib then (.inr (some n), faults)
          else
            match nextFault faults with
            | (true, faults) => (.inr (some n), faults)
            | (false, faults) => (.inl (n + eightGib), faults)

/-- `reserve_ftruncate`, and `reserve_sparse` behind it. -/
def sparseAnswers (n : Nat) (faults holes : List Bool) : (Nat ⊕ Option Nat) × List Bool :=
  if i64Size ≤ n then (.inr none, faults)
  else
    match nextFault faults with
    | (true, faults) => (.inr none, faults)
    | (false, faults) => holeAnswers n faults holes

/-- The sparse reservation, as long as the file is taken to be sparse. -/
def sparseOutcome (sparseFile : Bool) (n : Nat) (faults holes : List Bool) :
    (Nat ⊕ Option Nat) × List Bool :=
  if sparseFile then sparseAnswers n faults holes else (.inr none, faults)

/-- What follows the sparse reservation. -/
def behindSparse (n : Nat) : (Nat ⊕ Option Nat) × List Bool → Option Nat
  | (.inl reserved, faults) => remapStrands reserved faults
  | (.inr left, faults) => plainStrands left n faults

/-- The length that a reservation of `n` bytes has given the file when a call behind that fails. -/
def stranded (sparseFile : Bool) (n : Nat) (os : Os) : Option Nat :=
  match nextFault os.faults with
  | (true, _) => none
  | (false, faults) =>
      behindSparse n (sparseOutcome sparseFile n faults os.holes)

/-- `new_reservation`. -/
def newReservation (w : MmapWriter) (bufLen : Nat) : Nat :=
  w.reservedLen + max (bufLen - (w.reservedLen - w.writtenLen)) minReserveLen

/-- **`Strands`** — a reservation is made, the system lengthens the file past the mapping, and a call
behind that fails. -/
def Strands (s : MmapWriter × Os) (bufLen : Nat) : Prop :=
  s.1.reservedLen - s.1.writtenLen < bufLen ∧ s.1.newReservation bufLen < usizeSize ∧
    ∃ reserved ∈ stranded s.1.sparseFile (s.1.newReservation bufLen) s.2, s.1.mmap < reserved

/-! ## What a reservation leaves -/

/-- The written bytes are those of `s`, and the file has the reserved length. -/
structure Extends (s t : MmapWriter × Os) : Prop where
  writtenLen : t.1.writtenLen = s.1.writtenLen
  kept : s.2.file.take s.1.writtenLen <+: t.2.file
  file : t.2.file.length = t.1.reservedLen
  fits : s.1.writtenLen ≤ t.1.reservedLen
  size : t.1.reservedLen < usizeSize

/-- **`Reserves s bufLen left`** — the end of a reservation: the mapping has followed, or it is the old
one and the file has the length `left`, if it was changed. -/
def Reserves (s : MmapWriter × Os) (bufLen : Nat) (left : Option Nat) :
    Post IoError (MmapWriter × Os) Unit where
  ok _ t := left = none ∧ Extends s t ∧ t.1.mmap = t.1.reservedLen ∧
    s.1.writtenLen + bufLen ≤ t.1.reservedLen
  error _ t := Extends s t ∧ t.1.mmap = s.1.mmap ∧ t.1.reservedLen = left.getD s.1.reservedLen
  panic _ := False

/-- A state within a reservation: the mapping is still the old one. -/
structure Underway (s t : MmapWriter × Os) : Prop extends Extends s t where
  mmap : t.1.mmap = s.1.mmap

variable {s t : MmapWriter × Os} {n bufLen : Nat}

/-- A call on the system, by its answer. -/
theorem call_answer {Q : Post IoError Os Unit} (os : Os) :
    Meets Os.call os Q ↔
      match nextFault os.faults with
      | (true, faults) => Q.error .os { os with faults }
      | (false, faults) => Q.ok () { os with faults } := by
  unfold Meets Os.call
  rcases nextFault os.faults with ⟨_ | _, faults⟩
  · exact Iff.rfl
  · exact Iff.rfl

theorem setLen_answer {Q : Post IoError Os Unit} (os : Os) (n : Nat) :
    Meets (Os.setLen n) os Q ↔
      match nextFault os.faults with
      | (true, faults) => Q.error .os { os with faults }
      | (false, faults) => Q.ok () { os with file := resize os.file n, faults } := by
  unfold Os.setLen
  rw [meets_bind, call_answer]
  rcases nextFault os.faults with ⟨_ | _, faults⟩
  · exact Iff.rfl
  · exact Iff.rfl

theorem testForHole_answer {Q : Post IoError Os Bool} (os : Os) :
    Meets Os.testForHole os Q ↔
      match nextFault os.faults with
      | (true, faults) => Q.error .os { os with faults }
      | (false, faults) =>
          match nextFault faults with
          | (true, faults) => Q.error .os { os with faults }
          | (false, faults) =>
              Q.ok (nextFault os.holes).1 { os with faults, holes := (nextFault os.holes).2 } := by
  unfold Os.testForHole
  rw [meets_bind, call_answer]
  rcases nextFault os.faults with ⟨_ | _, faults⟩
  · refine (meets_bind Os.call _).trans ((call_answer _).trans ?_)
    dsimp only
    rcases nextFault faults with ⟨_ | _, faults⟩
    · exact Iff.rfl
    · exact Iff.rfl
  · exact Iff.rfl

theorem Underway.faults (h : Underway s t) (faults : List Bool) :
    Underway s (t.1, { t.2 with faults }) :=
  ⟨⟨h.writtenLen, h.kept, h.file, h.fits, h.size⟩, h.mmap⟩

/-- The file is given a length, which is recorded. -/
theorem Underway.setLen (h : Underway s t) (hfit : s.1.writtenLen ≤ n) (hsize : n < usizeSize)
    (faults : List Bool) :
    Underway s ({ t.1 with reservedLen := n }, { t.2 with file := resize t.2.file n, faults }) := by
  have hlen : (s.2.file.take s.1.writtenLen).length ≤ n :=
    Nat.le_trans (List.length_take_le _ _) hfit
  exact ⟨⟨h.writtenLen, resize_keeps h.kept hlen, resize_length _ _, hfit, hsize⟩, h.mmap⟩

theorem remap_reserves (h : Underway s t) (hroom : s.1.writtenLen + bufLen ≤ t.1.reservedLen) :
    Meets remap t (Reserves s bufLen (remapStrands t.1.reservedLen t.2.faults)) := by
  unfold remap remapStrands
  rw [meets_bind, meets_onSnd, call_answer]
  rcases nextFault t.2.faults with ⟨_ | _, faults⟩
  · exact ⟨rfl, ⟨h.writtenLen, h.kept, h.file, h.fits, h.size⟩, rfl, hroom⟩
  · exact ⟨(h.faults faults).toExtends, h.mmap, rfl⟩

/-- `file.set_len(new_reservation)?; self.reserved_len = new_reservation; self.remap()`. -/
theorem plain_reserves {left : Option Nat} (h : Underway s t)
    (hleft : t.1.reservedLen = left.getD s.1.reservedLen) (hroom : s.1.writtenLen + bufLen ≤ n)
    (hsize : n < usizeSize) :
    Meets (do
      Method.onSnd (Os.setLen n)
      update fun w => { w with reservedLen := n }
      remap) t (Reserves s bufLen (plainStrands left n t.2.faults)) := by
  unfold plainStrands
  rw [meets_bind, meets_onSnd, setLen_answer]
  rcases nextFault t.2.faults with ⟨_ | _, faults⟩
  · have hset := h.setLen (n := n) (by omega) hsize faults
    exact remap_reserves hset hroom
  · exact ⟨(h.faults faults).toExtends, h.mmap, hleft⟩

/-- The larger reservation, in a file that has been given the length `n`. -/
theorem reserveSparse_answers (h : Underway s t) (hn : t.1.reservedLen = n) :
    Meets reserveSparse t
      { ok := fun _ u => Underway s u ∧
          holeAnswers n t.2.faults t.2.holes = (.inl u.1.reservedLen, u.2.faults) ∧
          n ≤ u.1.reservedLen,
        error := fun _ u => Underway s u ∧
          holeAnswers n t.2.faults t.2.holes = (.inr (some n), u.2.faults) ∧ u.1.reservedLen = n,
        panic := fun _ => False } := by
  subst hn
  unfold reserveSparse holeAnswers
  rw [meets_bind, meets_attempt, meets_onSnd, testForHole_answer]
  rcases nextFault t.2.faults with ⟨_ | _, faults⟩
  · simp only
    rcases nextFault faults with ⟨_ | _, faults⟩
    · simp only
      rcases nextFault t.2.holes with ⟨hole, holes⟩
      have hseek : ∀ sparseFile, Underway s ({ t.1 with sparseFile }, { t.2 with faults, holes }) :=
        fun _ => ⟨⟨h.writtenLen, h.kept, h.file, h.fits, h.size⟩, h.mmap⟩
      cases hole with
      | false => exact ⟨hseek false, rfl, Nat.le_refl _⟩
      | true =>
          have hgrow : t.1.reservedLen ≤ t.1.reservedLen + eightGib := Nat.le_add_right _ _
          have hfit : s.1.writtenLen ≤ t.1.reservedLen := h.fits
          simp only [meets_bind, meets_get]
          generalize t.1.reservedLen + eightGib = big at hgrow ⊢
          by_cases hbig : i64Size ≤ big
          · simp only [if_pos hbig, meets_bind, meets_fail]
            exact ⟨hseek _, rfl, trivial⟩
          · simp only [if_neg hbig, meets_bind, meets_onSnd, setLen_answer]
            rcases nextFault faults with ⟨_ | _, faults⟩
            · have hsize : big < usizeSize := Nat.lt_trans (Nat.lt_of_not_le hbig) (by decide)
              exact ⟨(hseek t.1.sparseFile).setLen (Nat.le_trans hfit hgrow) hsize faults, rfl, hgrow⟩
            · exact ⟨(hseek t.1.sparseFile).faults faults, rfl, trivial⟩
    · exact ⟨h.faults faults, rfl, Nat.le_refl _⟩
  · exact ⟨h.faults faults, rfl, Nat.le_refl _⟩

/-- **The sparse reservation**: it is made, or a plain one is to follow. -/
theorem sparseAlloc_answers (h : Underway s t) (hold : t.1.reservedLen = s.1.reservedLen)
    (hfit : s.1.writtenLen ≤ n) (hsize : n < usizeSize) :
    Meets (sparseAlloc n) t
      { ok := fun made u => Underway s u ∧
          if made then
            sparseOutcome t.1.sparseFile n t.2.faults t.2.holes =
              (.inl u.1.reservedLen, u.2.faults) ∧ n ≤ u.1.reservedLen
          else
            ∃ left, sparseOutcome t.1.sparseFile n t.2.faults t.2.holes = (.inr left, u.2.faults) ∧
              u.1.reservedLen = left.getD s.1.reservedLen,
        error := fun _ _ => False, panic := fun _ => False } := by
  unfold sparseAlloc sparseOutcome
  rw [meets_get_bind]
  by_cases hs : t.1.sparseFile = true
  · simp only [if_pos hs]
    rw [meets_bind, meets_attempt]
    unfold reserveFtruncate sparseAnswers
    by_cases hbig : i64Size ≤ n
    · simp only [if_pos hbig, meets_bind, meets_fail]
      exact ⟨h, none, rfl, hold⟩
    · simp only [if_neg hbig, meets_bind, meets_onSnd, setLen_answer]
      rcases nextFault t.2.faults with ⟨_ | _, faults⟩
      · have hset := h.setLen hfit hsize faults
        simp only [meets_attempt]
        refine (reserveSparse_answers hset rfl).mono ?_ ?_ fun _ hp => hp
        · rintro _ u ⟨hu, houtcome, hle⟩
          exact ⟨hu, houtcome, hle⟩
        · rintro _ u ⟨hu, houtcome, hlen⟩
          exact ⟨hu, some n, houtcome, hlen⟩
      · exact ⟨h.faults faults, none, rfl, hold⟩
  · simp only [if_neg hs]
    exact ⟨h, none, rfl, hold⟩

/-- **`Sound s`** — what every call is to leave: the written bytes are within the reservation, the
reservation within the mapping, and the file has the reserved length. -/
structure Sound (s : MmapWriter × Os) : Prop where
  written : s.1.writtenLen ≤ s.1.reservedLen
  reserved : s.1.reservedLen ≤ s.1.mmap
  file : s.2.file.length = s.1.reservedLen
  size : s.1.reservedLen < usizeSize

theorem Sound.underway (h : Sound s) : Underway s s :=
  ⟨⟨rfl, List.take_prefix _ _, h.file, h.written, h.size⟩, rfl⟩

/-- A state that keeps the bytes of a sound writer is sound when its mapping has followed. -/
theorem Extends.sound (h : Extends s t) (hmmap : t.1.reservedLen ≤ t.1.mmap) : Sound t :=
  ⟨h.writtenLen.symm ▸ h.fits, hmmap, h.file, h.size⟩

/-- A reservation behind the opening of the file. -/
theorem reserveBehind_answers (h : Underway s t) (hold : t.1.reservedLen = s.1.reservedLen)
    (hroom : s.1.writtenLen + bufLen ≤ n) (hsize : n < usizeSize) :
    Meets (do
      let sparse ← sparseAlloc n
      if !sparse then do
        Method.onSnd (Os.setLen n)
        update fun w => { w with reservedLen := n }
      remap) t
      (Reserves s bufLen (behindSparse n (sparseOutcome t.1.sparseFile n t.2.faults t.2.holes))) := by
  rw [meets_bind]
  refine (sparseAlloc_answers h hold (by omega) hsize).mono ?_ (fun _ _ he => he.elim) fun _ hp => hp.elim
  rintro made u ⟨hu, hmade⟩
  cases made with
  | true =>
      obtain ⟨houtcome, hle⟩ := hmade
      rw [houtcome]
      exact remap_reserves hu (by omega)
  | false =>
      obtain ⟨left, houtcome, hlen⟩ := hmade
      rw [houtcome]
      exact plain_reserves hu hlen hroom hsize

/-- **`Reserving s bufLen`** — what a reservation leaves of a sound writer: a failure breaks the bound on
the reservation exactly when it strands it. -/
def Reserving (s : MmapWriter × Os) (bufLen : Nat) : Post IoError (MmapWriter × Os) Unit where
  ok _ t := ¬Strands s bufLen ∧ Extends s t ∧ t.1.reservedLen ≤ t.1.mmap ∧
    s.1.writtenLen + bufLen ≤ t.1.reservedLen
  error _ t := Extends s t ∧ (t.1.reservedLen ≤ t.1.mmap ↔ ¬Strands s bufLen)
  panic p := ¬Strands s bufLen ∧ p = .arithmeticOverflow

/-- The part of `reserve_for` behind its arithmetic. -/
theorem reserveStep_answers (h : Sound s)
    (hfull : s.1.reservedLen - s.1.writtenLen < bufLen)
    (hsize : s.1.newReservation bufLen < usizeSize) :
    Meets (do
      Method.onSnd Os.openMmapFile
      let sparse ← sparseAlloc (s.1.newReservation bufLen)
      if !sparse then do
        Method.onSnd (Os.setLen (s.1.newReservation bufLen))
        update fun w => { w with reservedLen := s.1.newReservation bufLen }
      remap) s (Reserving s bufLen) := by
  have hroom : s.1.writtenLen + bufLen ≤ s.1.newReservation bufLen := by
    have hfit := h.written
    unfold newReservation
    omega
  have hstrands : Strands s bufLen ↔
      ∃ reserved ∈ stranded s.1.sparseFile (s.1.newReservation bufLen) s.2, s.1.mmap < reserved :=
    ⟨fun hs => hs.2.2, fun hs => ⟨hfull, hsize, hs⟩⟩
  unfold stranded at hstrands
  rw [meets_bind, meets_onSnd, Os.openMmapFile, call_answer]
  rcases hopen : nextFault s.2.faults with ⟨_ | _, faults⟩
  · rw [hopen] at hstrands
    refine (reserveBehind_answers (h.underway.faults faults) rfl hroom hsize).mono ?_ ?_ fun _ hp => hp.elim
    · rintro _ t ⟨hnone, ht, hmapped, hle⟩
      refine ⟨fun hs => ?_, ht, Nat.le_of_eq hmapped.symm, hle⟩
      obtain ⟨reserved, hmem, -⟩ := hstrands.mp hs
      exact Option.some_ne_none reserved (hmem.symm.trans hnone)
    · rintro _ t ⟨ht, hmapped, hlen⟩
      refine ⟨ht, ?_⟩
      rw [hmapped, hlen, hstrands]
      show (behindSparse (s.1.newReservation bufLen)
        (sparseOutcome s.1.sparseFile (s.1.newReservation bufLen) faults s.2.holes)).getD
          s.1.reservedLen ≤ s.1.mmap ↔ ¬∃ reserved ∈ behindSparse (s.1.newReservation bufLen)
        (sparseOutcome s.1.sparseFile (s.1.newReservation bufLen) faults s.2.holes), s.1.mmap < reserved
      rcases behindSparse (s.1.newReservation bufLen)
        (sparseOutcome s.1.sparseFile (s.1.newReservation bufLen) faults s.2.holes) with _ | reserved
      · exact ⟨fun _ hbad => by simp at hbad, fun _ => h.reserved⟩
      · simp
  · rw [hopen] at hstrands
    have hnone : ¬Strands s bufLen := fun hs => by
      obtain ⟨_, hmem, -⟩ := hstrands.mp hs
      cases hmem
    exact ⟨(h.underway.faults faults).toExtends, fun _ => hnone, fun _ => h.reserved⟩

/-- **`reserve_for`**, by the answers of the system. -/
theorem reserveFor_answers (h : Sound s) (bufLen : Nat) :
    Meets (reserveFor bufLen) s (Reserving s bufLen) := by
  have hfit := h.written
  unfold reserveFor
  rw [meets_get_bind, meets_bind, meets_ofExec_ok (usizeSub_ok hfit)]
  by_cases hfull : s.1.reservedLen - s.1.writtenLen < bufLen
  · simp only [if_pos hfull]
    rw [meets_bind]
    by_cases hsize : s.1.newReservation bufLen < usizeSize
    · rw [meets_ofExec_ok (usizeAdd_ok hsize)]
      exact reserveStep_answers h hfull hsize
    · have hpanic : usizeAdd s.1.reservedLen
          (max (bufLen - (s.1.reservedLen - s.1.writtenLen)) minReserveLen) =
          .error .arithmeticOverflow := if_neg hsize
      rw [hpanic]
      exact ⟨fun hs => hsize hs.2.1, rfl⟩
  · simp only [if_neg hfull]
    exact ⟨fun hs => hfull hs.1, h.underway.toExtends, h.reserved, by omega⟩

/-! ## What a call leaves -/

/-- **`Behaves s strands`** — what a call leaves of a sound writer, when its reservation is stranded or
not. -/
def Behaves {α : Type} (s : MmapWriter × Os) (strands : Prop) : Post IoError (MmapWriter × Os) α where
  ok _ t := ¬strands ∧ Sound t
  error _ t := Extends s t ∧ (t.1.reservedLen ≤ t.1.mmap ↔ ¬strands)
  panic p := ¬strands ∧ p ≠ .indexOutOfBounds

/-- Bytes that the reservation has room for are stored within the mapping. -/
theorem writeData_sound (h : Sound s) {buf : List UInt8} {more : Nat}
    (hroom : s.1.writtenLen + (buf.length + more) ≤ s.1.reservedLen) :
    Meets (writeData buf) s
      (sure True (fun _ t => Sound t ∧ t.1.writtenLen + more ≤ t.1.reservedLen) fun _ => True) := by
  have hsize := h.size
  have hreserved := h.reserved
  have hadd : s.1.writtenLen + buf.length < usizeSize := by omega
  have hslice : ¬s.1.mmap < s.1.writtenLen + buf.length := by omega
  have hfile : s.1.writtenLen + buf.length ≤ s.2.file.length := by
    rw [h.file]
    omega
  unfold writeData
  rw [meets_get_bind, meets_bind, meets_ofExec_ok (usizeAdd_ok hadd)]
  simp only [if_neg hslice, meets_modify]
  refine ⟨⟨by dsimp only; omega, h.reserved, ?_, h.size⟩, by dsimp only; omega⟩
  exact (overwrite_length hfile).trans h.file

/-- A call that reserves, and then only stores. -/
theorem behaves_of_reserving {α : Type} {m : Unit → WriterM α} (h : Sound s)
    (hm : ∀ t, Sound t → s.1.writtenLen = t.1.writtenLen →
      s.1.writtenLen + bufLen ≤ t.1.reservedLen →
      Meets (m ()) t (sure True (fun _ u => Sound u) fun _ => True)) :
    Meets (reserveFor bufLen >>= m) s (Behaves s (Strands s bufLen)) := by
  rw [meets_bind]
  refine (reserveFor_answers h bufLen).mono ?_ (fun _ _ he => he) ?_
  · rintro _ t ⟨hno, ht, hmmap, hroom⟩
    refine (hm t (ht.sound hmmap) ht.writtenLen.symm hroom).mono ?_ ?_ ?_
    · exact fun _ u hu => ⟨hno, hu⟩
    · exact fun _ _ he => absurd trivial he.1
    · exact fun _ hp => absurd trivial hp
  · rintro p ⟨hno, rfl⟩
    exact ⟨hno, nofun⟩

theorem write_behaves (h : Sound s) (buf : List UInt8) :
    Meets (write buf) s (Behaves s (Strands s buf.length)) := by
  apply behaves_of_reserving h
  intro t ht hw hroom
  have hfits : t.1.writtenLen + (buf.length + 0) ≤ t.1.reservedLen := by omega
  have hdata := writeData_sound ht hfits
  exact (hdata.imp (fun _ u hu => hu.1) fun _ hu => hu).seq fun _ u hu => hu

theorem writeVectored_behaves (h : Sound s) (bufs : List (List UInt8)) :
    Meets (writeVectored bufs) s (Behaves s (Strands s (bufs.map List.length).sum)) := by
  apply behaves_of_reserving h
  intro t ht hw hroom
  -- what is left to be stored fits
  have hstep : ∀ (buf : List UInt8) (rest : List (List UInt8)) (u : MmapWriter × Os),
      Sound u ∧ u.1.writtenLen + ((buf :: rest).map List.length).sum ≤ u.1.reservedLen →
      Meets (writeData buf) u (sure True (fun _ v =>
        Sound v ∧ v.1.writtenLen + (rest.map List.length).sum ≤ v.1.reservedLen) fun _ => True) :=
    fun buf rest u hu => writeData_sound hu.1 (by simpa using hu.2)
  have hstart : Sound t ∧ t.1.writtenLen + (bufs.map List.length).sum ≤ t.1.reservedLen :=
    ⟨ht, by omega⟩
  have hloop := Meets.forEach (I := fun rest u =>
    Sound u ∧ u.1.writtenLen + (rest.map List.length).sum ≤ u.1.reservedLen) hstep hstart
  exact (hloop.imp (fun _ u hu => hu.1) fun _ hu => hu).seq fun _ u hu => hu

theorem remap_behaves (h : Extends s t) (hmmap : t.1.reservedLen ≤ t.1.mmap) :
    Meets remap t
      { ok := fun _ u => Extends s u ∧ u.1.reservedLen ≤ u.1.mmap,
        error := fun _ u => Extends s u ∧ u.1.reservedLen ≤ u.1.mmap,
        panic := fun p => p ≠ .indexOutOfBounds } := by
  unfold remap
  rw [meets_bind, meets_onSnd, call_answer]
  rcases nextFault t.2.faults with ⟨_ | _, faults⟩
  · exact ⟨⟨h.writtenLen, h.kept, h.file, h.fits, h.size⟩, Nat.le_refl _⟩
  · exact ⟨⟨h.writtenLen, h.kept, h.file, h.fits, h.size⟩, hmmap⟩

/-- `truncate` only ever shortens the reservation. -/
theorem truncate_behaves (h : Sound s) :
    Meets truncate s
      { ok := fun _ u => Extends s u ∧ u.1.reservedLen ≤ u.1.mmap,
        error := fun _ u => Extends s u ∧ u.1.reservedLen ≤ u.1.mmap,
        panic := fun p => p ≠ .indexOutOfBounds } := by
  have hu := h.underway
  unfold truncate
  rw [meets_get_bind]
  by_cases hmore : s.1.writtenLen < s.1.reservedLen
  · simp only [if_pos hmore]
    rw [meets_bind, meets_onSnd, Os.openMmapFile, call_answer]
    rcases nextFault s.2.faults with ⟨_ | _, faults⟩
    · simp only [meets_bind, meets_orPanic, meets_onSnd, setLen_answer]
      rcases nextFault faults with ⟨_ | _, faults⟩
      · have hsize : s.1.writtenLen < usizeSize := Nat.lt_trans hmore h.size
        have hcut := (hu.setLen (Nat.le_refl _) hsize faults).toExtends
        exact remap_behaves hcut (Nat.le_trans h.written h.reserved)
      · intro hp
        cases hp
    · exact ⟨(hu.faults faults).toExtends, h.reserved⟩
  · simp only [if_neg hmore]
    exact ⟨hu.toExtends, h.reserved⟩

theorem flush_behaves (h : Sound s) : Meets flush s (Behaves s False) := by
  unfold flush
  rw [meets_bind]
  refine (truncate_behaves h).mono ?_ ?_ fun _ hp => ⟨id, hp⟩
  · rintro _ t ⟨ht, hmmap⟩
    show Meets (Method.onSnd Os.call) t (Behaves s False)
    rw [meets_onSnd, call_answer]
    have hcalled : ∀ faults, Extends s (t.1, { t.2 with faults }) :=
      fun _ => ⟨ht.writtenLen, ht.kept, ht.file, ht.fits, ht.size⟩
    rcases nextFault t.2.faults with ⟨_ | _, faults⟩
    · exact ⟨id, (hcalled faults).sound hmmap⟩
    · exact ⟨hcalled faults, fun _ => id, fun _ => hmmap⟩
  · rintro _ t ⟨ht, hmmap⟩
    exact ⟨ht, fun _ => id, fun _ => hmmap⟩

end MmapWriter

/-! ## Runs -/

/-- A call on the writer. -/
inductive MmapCall where
  | write (buf : List UInt8)
  | writeVectored (bufs : List (List UInt8))
  | flush
  deriving DecidableEq, Repr

namespace MmapCall

open MmapWriter

/-- Make the call. -/
def run : MmapCall → WriterM Unit
  | .write buf => do
      let _ ← MmapWriter.write buf
  | .writeVectored bufs => do
      let _ ← MmapWriter.writeVectored bufs
  | .flush => MmapWriter.flush

/-- The reservation of the call is stranded. -/
def Strands (call : MmapCall) (s : MmapWriter × Os) : Prop :=
  match call with
  | .write buf => MmapWriter.Strands s buf.length
  | .writeVectored bufs => MmapWriter.Strands s (bufs.map List.length).sum
  | .flush => False

theorem run_behaves {s : MmapWriter × Os} (h : Sound s) (call : MmapCall) :
    Meets call.run s (Behaves s (call.Strands s)) := by
  cases call with
  | write buf =>
      exact (meets_bind _ _).mpr ((write_behaves h buf).mono (fun _ _ hu => hu) (fun _ _ he => he) fun _ hp => hp)
  | writeVectored bufs =>
      exact (meets_bind _ _).mpr
        ((writeVectored_behaves h bufs).mono (fun _ _ hu => hu) (fun _ _ he => he) fun _ hp => hp)
  | flush => exact flush_behaves h

/-- A call in a run; a panic ends the run. -/
def next : Option (MmapWriter × Os) → MmapCall →
    Option (Exec (Except IoError Unit) × Option (MmapWriter × Os))
  | none, _ => none
  | some s, call =>
      match call.run s with
      | .error p => some (.error p, none)
      | .ok (r, s) => some (.ok r, some s)

end MmapCall

/-- The written bytes, the reservation and the mapping are within each other. -/
def InBounds (w : MmapWriter) : Prop := w.writtenLen ≤ w.reservedLen ∧ w.reservedLen ≤ w.mmap

/-- **`CallSafe`** — a call does not slice outside the mapping, leaves the bounds in order, and keeps the
written bytes when it returns an error. -/
def CallSafe (st : Option (MmapWriter × Os)) (l : MmapCall × Exec (Except IoError Unit))
    (st' : Option (MmapWriter × Os)) : Prop :=
  l.2 ≠ .error .indexOutOfBounds ∧ (∀ t ∈ st', InBounds t.1) ∧
    ∀ s ∈ st, ∀ t ∈ st', ∀ e, l.2 = .ok (.error e) →
      t.1.writtenLen = s.1.writtenLen ∧ t.2.file.take t.1.writtenLen = s.2.file.take s.1.writtenLen

/-- **`NotStranded`** — no call of the system fails behind one that lengthened the file past the
mapping. -/
def NotStranded (st : Option (MmapWriter × Os)) (l : MmapCall × Exec (Except IoError Unit))
    (_ : Option (MmapWriter × Os)) : Prop :=
  ∀ s ∈ st, ¬l.1.Strands s

section Run

open MmapWriter

variable {st st' : Option (MmapWriter × Os)} {l : MmapCall × Exec (Except IoError Unit)}

/-- The bytes written before are the same bytes. -/
theorem MmapWriter.Extends.take_eq {s t : MmapWriter × Os} (h : Extends s t) (hs : Sound s) :
    t.2.file.take t.1.writtenLen = s.2.file.take s.1.writtenLen := by
  have hlen : (s.2.file.take s.1.writtenLen).length = s.1.writtenLen := by
    rw [List.length_take, hs.file]
    exact Nat.min_eq_left hs.written
  have hprefix := List.prefix_iff_eq_take.mp h.kept
  rw [hlen] at hprefix
  rw [h.writtenLen]
  exact hprefix.symm

/-- **The step lemma**: from a sound writer a call is safe exactly when it is not stranded, and then it
leaves a sound writer. -/
theorem callSafe_iff (h : ∀ s ∈ st, Sound s) (hs : Reacts MmapCall.next st l st') :
    (CallSafe st l st' ↔ NotStranded st l st') ∧ (NotStranded st l st' → ∀ t ∈ st', Sound t) := by
  obtain ⟨call, answer⟩ := l
  cases st with
  | none => cases hs
  | some s =>
      have hsound := h s rfl
      have hcall := MmapCall.run_behaves hsound call
      have hcond : NotStranded (some s) (call, answer) st' ↔ ¬call.Strands s :=
        ⟨fun hn => hn s rfl, fun hn s' hs' => Option.some.inj hs' ▸ hn⟩
      unfold Reacts MmapCall.next at hs
      unfold Meets at hcall
      rw [hcond]
      rcases hrun : call.run s with p | ⟨e | _, t⟩
      · rw [hrun] at hcall
        simp only [hrun, Option.some.injEq, Prod.mk.injEq] at hs
        obtain ⟨rfl, rfl⟩ := hs
        refine ⟨⟨fun _ => hcall.1, fun _ => ⟨fun hp => hcall.2 ?_, nofun, ?_⟩⟩, fun _ => nofun⟩
        · exact Except.error.inj hp
        · exact fun _ _ => nofun
      · rw [hrun] at hcall
        simp only [hrun, Option.some.injEq, Prod.mk.injEq] at hs
        obtain ⟨rfl, rfl⟩ := hs
        obtain ⟨hext, hiff⟩ := hcall
        refine ⟨⟨fun hsafe => hiff.mp (hsafe.2.1 t rfl).2, fun hno => ⟨nofun, ?_, ?_⟩⟩, fun hno => ?_⟩
        · rintro _ ⟨⟩
          exact ⟨hext.writtenLen.symm ▸ hext.fits, hiff.mpr hno⟩
        · rintro _ ⟨⟩ _ ⟨⟩ _ _
          exact ⟨hext.writtenLen, hext.take_eq hsound⟩
        · rintro _ ⟨⟩
          exact hext.sound (hiff.mpr hno)
      · rw [hrun] at hcall
        simp only [hrun, Option.some.injEq, Prod.mk.injEq] at hs
        obtain ⟨rfl, rfl⟩ := hs
        refine ⟨⟨fun _ => hcall.1, fun _ => ⟨nofun, ?_, ?_⟩⟩, fun _ => ?_⟩
        · rintro _ ⟨⟩
          exact ⟨hcall.2.written, hcall.2.reserved⟩
        · rintro _ _ _ _ _ ⟨⟩
        · rintro _ ⟨⟩
          exact hcall.2

/-- **The exact condition of a writer under failures.**  Over any calls on a writer of a mapped file, and
any answers of the system: every call is safe exactly when none is stranded. -/
theorem faults_exact (os : Os) (hsize : os.file.length < usizeSize)
    {tr : List ((MmapCall × Exec (Except IoError Unit)) × Option (MmapWriter × Os))}
    (htr : IsTrace (Reacts MmapCall.next) (some (.fromArgs os.file.length, os)) tr) :
    StepsMeet CallSafe (some (.fromArgs os.file.length, os)) tr ↔
      StepsMeet NotStranded (some (.fromArgs os.file.length, os)) tr := by
  have hnew : ∀ s ∈ some (fromArgs os.file.length, os), Sound s := by
    rintro _ ⟨⟩
    exact ⟨Nat.zero_le _, Nat.le_refl _, rfl, hsize⟩
  exact stepsMeet_iff (I := fun st => ∀ s ∈ st, Sound s) (fun _ _ _ h hs hc => (callSafe_iff h hs).2 hc)
    (fun _ _ _ h hs => (callSafe_iff h hs).1) hnew htr

end Run

/-! ### A remap that fails -/

/-- A file of one byte, with these failures to come. -/
def oneByte (faults : List Bool) : Os := { file := [0], faults, holes := [] }

/-- Ten bytes are written, for which the file is lengthened and the remap fails; then two. -/
def strandedCalls : List ((MmapCall × Exec (Except IoError Unit)) × Option (MmapWriter × Os)) :=
  react MmapCall.next (some (.fromArgs 1, oneByte [false, false, false, false, true]))
    [.write (List.replicate 10 7), .write [7, 7]]

/-- The first call returns the error, and the second slices outside the mapping. -/
theorem strandedCalls_slice :
    strandedCalls.map (·.1.2) = [.ok (.error .os), .error .indexOutOfBounds] ∧
      ¬StepsMeet CallSafe (some (.fromArgs 1, oneByte [false, false, false, false, true]))
        strandedCalls := by
  refine ⟨rfl, fun h => ?_⟩
  have hslice := h.2.1.1
  exact hslice rfl

instance (s : MmapWriter × Os) (bufLen : Nat) : Decidable (MmapWriter.Strands s bufLen) :=
  inferInstanceAs (Decidable (_ ∧ _ ∧ _))

instance (call : MmapCall) (s : MmapWriter × Os) : Decidable (call.Strands s) :=
  match call with
  | .write buf => inferInstanceAs (Decidable (MmapWriter.Strands s buf.length))
  | .writeVectored bufs => inferInstanceAs (Decidable (MmapWriter.Strands s (bufs.map List.length).sum))
  | .flush => inferInstanceAs (Decidable False)

instance (st : Option (MmapWriter × Os)) (l : MmapCall × Exec (Except IoError Unit))
    (st' : Option (MmapWriter × Os)) : Decidable (NotStranded st l st') :=
  inferInstanceAs (Decidable (∀ s ∈ st, ¬l.1.Strands s))

/-- A byte is written, ten more where the file cannot be opened, and what is written is flushed. -/
def openFailing : List ((MmapCall × Exec (Except IoError Unit)) × Option (MmapWriter × Os)) :=
  react MmapCall.next (some (.fromArgs 1, oneByte [true]))
    [.write [7], .writeVectored [[7, 7], List.replicate 8 7], .flush]

theorem faults_exact_openFailing :
    StepsMeet CallSafe (some (.fromArgs 1, oneByte [true])) openFailing :=
  (faults_exact (oneByte [true]) (by decide) (isTrace_react _ _ _)).mpr (by decide)

example : openFailing.map (·.1.2) = [.ok (.ok ()), .ok (.error .os), .ok (.ok ())] := by decide

end BackedData.Disks
