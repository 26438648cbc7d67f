/-
# BackedData.Adapters.Pipeline — a value stored and read back through the adapters

An asynchronous entry over a synchronous coder and disk stores through `Adapters.EncodeThrough` and loads through
`Adapters.DecodeThrough`, from the same file.  The two halves meet at that file: what the writer has accepted when
`encode` has returned `Ok`, and what a reader of it gives (`FromFile`).

`pipeline_exact`: behind an `Ok` of `encode`, a `decode` whose reader does not fail gives the value back exactly
if the value is encoded as nothing, or is no shorter than the least size of the writer's buffer and the reader has
a buffer at all.  Else the handle has been given an empty file.
-/
import BackedData.Adapters.EncodeThrough
import BackedData.Adapters.DecodeThrough

namespace BackedData.Adapters.AsyncRead

open Logic.Trace

set_option autoImplicit false

variable {B E F T : Type}

/-! ## A reader of a file -/

/-- The bytes of all answers. -/
def given (answers : List (Except E (List B))) : List B := (answers.map bytesOf).flatten

/-- **`FromFile file`** — the step does not call the reader, or the reader gives what comes next in the file; it
gives nothing only at the end of the file, or for want of room. -/
def FromFile (file : List B) (p : Decoding B E F T × Heard B E) (ev : DecodeEvent B E)
    (_ : Decoding B E F T × Heard B E) : Prop :=
  match ev with
  | .bg (.read bytes) =>
      bytes <+: file.drop (given p.2.answers).length ∧
        (bytes = [] → p.1.state.bufferSize = 0 ∨ file.length ≤ (given p.2.answers).length)
  | _ => True

instance [DecidableEq B] (file : List B) (p : Decoding B E F T × Heard B E) (ev : DecodeEvent B E)
    (q : Decoding B E F T × Heard B E) : Decidable (FromFile file p ev q) :=
  match ev with
  | .bg (.read bytes) =>
      inferInstanceAs (Decidable (bytes <+: file.drop (given p.2.answers).length ∧
        (bytes = [] → p.1.state.bufferSize = 0 ∨ file.length ≤ (given p.2.answers).length)))
  | .bg .silent => isTrue trivial
  | .bg (.failed _) => isTrue trivial
  | .poll _ _ => isTrue trivial
  | .read => isTrue trivial
  | .poller => isTrue trivial

/-- **`InFile file size p`** — what the answers of a reader of `file` have in common. -/
structure InFile (file : List B) (size : Nat) (p : Decoding B E F T × Heard B E) : Prop where
  room : p.1.state.bufferSize = size
  fits : ∀ bytes, .ok bytes ∈ p.2.answers → bytes.length ≤ size
  inOrder : given p.2.answers <+: file
  atEnd : .ok [] ∈ p.2.answers → size = 0 ∨ given p.2.answers = file

theorem given_append (answers : List (Except E (List B))) (res : Except E (List B)) :
    given (answers ++ [res]) = given answers ++ bytesOf res := by
  simp [given]

theorem given_readThrough {answers : List (Except E (List B))} {chunks : List (List B)}
    (h : ReadThrough answers chunks) : given answers = chunks.flatten := by
  rw [h.all]
  unfold given
  rw [List.map_map]
  congr 1
  exact List.map_id' chunks

/-- What comes next in a file, behind what has been read of it. -/
theorem prefix_next {file before bytes : List B} (hbefore : before <+: file)
    (hnext : bytes <+: file.drop before.length) : before ++ bytes <+: file := by
  obtain ⟨rest, rfl⟩ := hbefore
  rw [List.drop_left] at hnext
  exact List.prefix_append_right_inj before |>.mpr hnext

theorem bufferSize_next {s t : State B E} {ev : Event B E} (hs : next s ev = some t) :
    t.bufferSize = s.bufferSize := by
  cases next_moves hs with
  | @serves call => cases call <;> rfl
  | @takes call => cases call <;> rfl
  | _ => rfl

theorem read_fits {s t : State B E} {bytes : List B} (hs : next s (.bg (.read bytes)) = some t) :
    bytes.length ≤ s.bufferSize := by
  have hmoves := next_moves hs
  have hs : bgNext s (.read bytes) = some t := hs
  cases hmoves with
  | produced hb =>
      by_contra hlong
      simp [bgNext, hb, hlong] at hs

section File

variable {handle : Option (List B → Except F T)} {p q : Decoding B E F T} {ev : DecodeEvent B E}
  {n : Heard B E} {file : List B} {size : Nat}

/-- Without an answer of the reader nothing changes. -/
theorem InFile.same (h : InFile file size (p, n)) (hsize : q.state.bufferSize = p.state.bufferSize)
    {n' : Heard B E} (hanswers : n'.answers = n.answers) : InFile file size (q, n') := by
  refine ⟨hsize.trans h.room, ?_, ?_, ?_⟩
  · show ∀ bytes, .ok bytes ∈ n'.answers → bytes.length ≤ size
    rw [hanswers]
    exact h.fits
  · show given n'.answers <+: file
    rw [hanswers]
    exact h.inOrder
  · show .ok [] ∈ n'.answers → size = 0 ∨ given n'.answers = file
    rw [hanswers]
    exact h.atEnd

/-- The reader gives what comes next. -/
theorem InFile.gives {bytes : List B} {state : State B E} (h : InFile file size (p, n))
    (hnext : next p.state (.bg (.read bytes)) = some state)
    (hfile : bytes <+: file.drop (given n.answers).length ∧
      (bytes = [] → p.state.bufferSize = 0 ∨ file.length ≤ (given n.answers).length))
    {watch : Watch} :
    InFile file size (({ p with state } : Decoding B E F T), ⟨n.answers ++ [.ok bytes], watch⟩) := by
  have hinOrder : given (n.answers ++ [.ok bytes] : List (Except E (List B))) <+: file := by
    rw [given_append]
    exact prefix_next h.inOrder hfile.1
  refine ⟨(bufferSize_next hnext).trans h.room, fun other hmem => ?_, hinOrder, fun hmem => ?_⟩
  · rcases List.mem_append.mp hmem with hmem | hmem
    · exact h.fits other hmem
    · obtain rfl : other = bytes := Except.ok.inj (List.mem_singleton.mp hmem)
      have hroom : p.state.bufferSize = size := h.room
      rw [← hroom]
      exact read_fits hnext
  · have hwhole : file.length ≤ (given n.answers).length →
        given (n.answers ++ [.ok bytes] : List (Except E (List B))) = file := by
      intro hlong
      refine hinOrder.eq_of_length_le ?_
      rw [given_append, List.length_append]
      omega
    rcases List.mem_append.mp hmem with hmem | hmem
    · rcases h.atEnd hmem with hzero | hall
      · exact Or.inl hzero
      · exact Or.inr (hwhole (Nat.le_of_eq (congrArg List.length hall).symm))
    · obtain rfl : [] = bytes := Except.ok.inj (List.mem_singleton.mp hmem)
      rcases hfile.2 rfl with hzero | hlong
      · have hroom : p.state.bufferSize = size := h.room
        exact Or.inl (hroom.symm.trans hzero)
      · exact Or.inr (hwhole hlong)

theorem InFile.step (h : InFile file size (p, n)) (hs : DecodeMoves handle p ev q)
    (hfile : FromFile file (p, n) ev (q, noteDecode p ev q n)) :
    InFile file size (q, noteDecode p ev q n) := by
  cases hs with
  | polls _ _ _ hnext | drops _ hnext => exact h.same (bufferSize_next hnext) (noteDecode_answers nofun)
  | decodes | reads =>
      refine h.same ?_ (noteDecode_answers nofun)
      rfl
  | calls hnext => exact h.same (bufferSize_next hnext) rfl
  | @thread answer state hnext =>
      cases answer with
      | silent => exact h.same (bufferSize_next hnext) rfl
      | read bytes => exact h.gives hnext hfile
      | failed e =>
          have hsame : given (n.answers ++ [.error e] : List (Except E (List B))) = given n.answers := by
            rw [given_append]
            exact List.append_nil _
          refine ⟨(bufferSize_next hnext).trans h.room, fun bytes hmem => ?_, ?_, fun hmem => ?_⟩
          · rcases List.mem_append.mp hmem with hmem | hmem
            · exact h.fits bytes hmem
            · cases List.mem_singleton.mp hmem
          · show given (n.answers ++ [.error e]) <+: file
            rw [hsame]
            exact h.inOrder
          · show size = 0 ∨ given (n.answers ++ [.error e]) = file
            rw [hsame]
            rcases List.mem_append.mp hmem with hmem | hmem
            · exact h.atEnd hmem
            · cases List.mem_singleton.mp hmem

/-- **A file read to its end** was read whole, if there was any room to read into. -/
theorem InFile.complete (h : InFile file size (p, n)) {whole : List B} (hwhole : Complete n.answers whole) :
    whole = if size = 0 then [] else file := by
  obtain ⟨before, chunks, hanswers, hthrough, rfl⟩ := hwhole
  have hlast : .ok [] ∈ n.answers := by
    rw [hanswers]
    exact List.mem_append_right _ List.mem_cons_self
  have hgiven : given n.answers = chunks.flatten := by
    rw [hanswers, given_append, given_readThrough hthrough]
    exact List.append_nil _
  by_cases hzero : size = 0
  · rw [if_pos hzero]
    -- an answer of some bytes does not fit
    rcases chunks with _ | ⟨chunk, rest⟩
    · rfl
    · have hmem : .ok chunk ∈ n.answers := by
        rw [hanswers, hthrough.all]
        exact List.mem_append_left _ List.mem_cons_self
      have hlength : chunk.length ≤ size := h.fits chunk hmem
      have hsome := List.length_pos_of_ne_nil (hthrough.some chunk List.mem_cons_self)
      omega
  · rw [if_neg hzero]
    have hall : given n.answers = file := (h.atEnd hlast).resolve_left hzero
    rw [← hgiven, hall]

end File

theorem inFile_run (file : List B) (bufferSize : Nat) (handle : Option (List B → Except F T))
    {tr : List (DecodeEvent B E × (Decoding B E F T × Heard B E))}
    (htr : IsTrace (Steps (observed (decodeNext handle) noteDecode)) (.new bufferSize handle, .start) tr)
    (hfile : StepsMeet (FromFile file) (.new bufferSize handle, .start) tr) :
    StatesMeet (InFile file bufferSize) (.new bufferSize handle, .start) tr := by
  refine invariant_under (fun p ev q h hs hc => ?_) ⟨rfl, nofun, List.nil_prefix, nofun⟩ htr hfile
  obtain ⟨hnext, hnote⟩ := observed_inv hs
  obtain ⟨q, n⟩ := q
  obtain rfl : n = noteDecode p.1 ev q p.2 := hnote
  exact h.step (decodeNext_moves hnext) hc

/-! ## Stored and read back -/

/-- **A value through the adapters and back.**  Behind a run of `encode` that has returned `Ok`, take any run of
`decode` with a reader of what the writer has accepted, to its end: the reader failed, or the value comes back
exactly if it is encoded as nothing, or no shorter than the least size of the writer's buffer while the reader's
has any room.  The handles read back what they write, and an empty file gives no other value. -/
theorem pipeline_exact (bufferMinSize bufferSize : Nat) (encode : T → List B) (decode : List B → Except F T)
    (hcodec : ∀ value, decode (encode value) = .ok value)
    (hblank : ∀ value, decode [] = .ok value → encode value = []) (value : T)
    {stored : List (EncodeEvent E × (Encoding B E F × Seen E))}
    (hstored : IsTrace (Steps (observed encodeNext noteWriter))
      (.new bufferMinSize (some (.ok (encode value))), ⟨none, []⟩) stored)
    (hok : (last (.new bufferMinSize (some (.ok (encode value))), ⟨none, []⟩) stored).1.stage =
      .ended (.ok ()))
    {loaded : List (DecodeEvent B E × (Decoding B E F T × Heard B E))}
    (hloaded : IsTrace (Steps (observed (decodeNext (some decode)) noteDecode))
      (.new bufferSize (some decode), .start) loaded)
    (hfile : StepsMeet
      (FromFile (last (.new bufferMinSize (some (.ok (encode value))), ⟨none, []⟩) stored).1.state.writer)
      (.new bufferSize (some decode), .start) loaded)
    {res : Except (DecodeError E F) T}
    (hended : (last (.new bufferSize (some decode), .start) loaded).1.stage = .ended res) :
    (∃ e, res = .error (.reader e) ∧ Broken (last (.new bufferSize (some decode), .start) loaded).2.answers e) ∨
      (res = .ok value ↔
        encode value = [] ∨ bufferMinSize ≤ (encode value).length ∧ bufferSize ≠ 0) := by
  have hcourse := (course_run bufferMinSize (some (.ok (encode value))) hstored).last
  obtain ⟨encoded, hencoded, -, hkept, hlost⟩ := (hcourse.1.answered hcourse.2).ok hok
  obtain rfl : encode value = encoded := Except.ok.inj (Option.some.inj hencoded)
  generalize (last (.new bufferMinSize (some (.ok (encode value))), ⟨none, []⟩) stored).1.state.writer =
    file at hfile hkept hlost
  have hresult := (kept_run bufferSize (some decode) hloaded).last.decodes.ended res hended
  have hin := (inFile_run file bufferSize (some decode) hloaded hfile).last
  rcases hresult with ⟨hnone, -⟩ | ⟨decode', whole, hdecode, hcomplete, hres⟩ | ⟨e, hres, hbroken⟩
  · cases hnone
  · right
    obtain rfl : decode = decode' := Option.some.inj hdecode
    have hwhole := hin.complete hcomplete
    have hvalue : res = .ok value ↔ decode whole = .ok value := by
      cases hd : decode whole with
      | ok other =>
          rw [hd] at hres
          cases hres
          exact ⟨fun h => congrArg _ (Except.ok.inj h), fun h => congrArg _ (Except.ok.inj h)⟩
      | error err =>
          rw [hd] at hres
          cases hres
          exact ⟨nofun, nofun⟩
    rw [hvalue]
    by_cases hnil : encode value = []
    · -- the writer accepted nothing, and nothing is what the value is encoded as
      have hfile : file = [] := by
        rcases hlost with h | h
        · exact h.trans hnil
        · exact h
      have hread : whole = encode value := by
        rw [hwhole, hfile, ite_self, hnil]
      exact iff_of_true (hread ▸ hcodec value) (Or.inl hnil)
    · by_cases hback : bufferMinSize ≤ (encode value).length ∧ bufferSize ≠ 0
      · have hread : whole = encode value := by
          rw [hwhole, if_neg hback.2]
          exact hkept.mpr (Or.inl hback.1)
        exact iff_of_true (hread ▸ hcodec value) (Or.inr hback)
      · -- the handle was given an empty file
        have hread : whole = [] := by
          rw [hwhole]
          by_cases hzero : bufferSize = 0
          · exact if_pos hzero
          · rw [if_neg hzero]
            refine hlost.resolve_left fun hall => ?_
            rcases hkept.mp hall with hle | h
            · exact hback ⟨hle, hzero⟩
            · exact hnil h
        refine iff_of_false (fun hd => hnil (hblank value (hread ▸ hd))) ?_
        rintro (h | h)
        · exact hnil h
        · exact hback h
  · exact Or.inl ⟨e, hres, hbroken⟩

/-- Two numbers as two bytes, with nothing else that decodes. -/
def decodePair : List Nat → Except Unit (Nat × Nat)
  | [m, n] => .ok (m, n)
  | _ => .error ()

/-- One round of `read_to_end`: the poll asks, the reader answers, and a second poll takes the answer. -/
def readRound (bytes : List Nat) : List (DecodeEvent Nat Unit) :=
  [.poll 32 0, .poller, .poller, .read, .bg (.read bytes), .bg .silent, .bg .silent, .bg .silent, .poll 32 0,
    .poller, .read]

/-- It is read back byte by byte. -/
def loadedPair : List (DecodeEvent Nat Unit × (Decoding Nat Unit Unit (Nat × Nat) × Heard Nat Unit)) :=
  follow (observed (decodeNext (some decodePair)) noteDecode) (.new 1 (some decodePair), .start)
    (readRound [7] ++ readRound [8] ++ readRound [] ++ [.poll 32 0])

theorem decodePair_blank (value : Nat × Nat) (h : decodePair [] = .ok value) : [value.1, value.2] = [] := by
  cases h

/-- A pair stored in one write over a buffer of two comes back. -/
theorem pipeline_exact_pair :
    (last (.new 1 (some decodePair), .start) loadedPair).1.stage = .ended (.ok (7, 8)) ∧
      ((∃ e, (Except.ok (7, 8) : Except (DecodeError Unit Unit) (Nat × Nat)) = .error (.reader e) ∧
          Broken (last (.new 1 (some decodePair), .start) loadedPair).2.answers e) ∨
        ((Except.ok (7, 8) : Except (DecodeError Unit Unit) (Nat × Nat)) = .ok (7, 8) ↔
          [7, 8] = [] ∨ 2 ≤ [7, 8].length ∧ 1 ≠ 0)) := by
  have hstored : IsTrace (Steps (observed encodeNext noteWriter))
      (.new 2 (some (.ok [7, 8])), ⟨none, []⟩) storedEncode := isTrace_follow _ _ _
  have hloaded : IsTrace (Steps (observed (decodeNext (some decodePair)) noteDecode))
      (.new 1 (some decodePair), .start) loadedPair := isTrace_follow _ _ _
  have hended : (last (.new 1 (some decodePair), .start) loadedPair).1.stage = .ended (.ok (7, 8)) := by
    decide +kernel
  exact ⟨hended, pipeline_exact 2 1 (fun value : Nat × Nat => [value.1, value.2]) decodePair (fun _ => rfl)
    decodePair_blank (7, 8) hstored (by decide +kernel) hloaded (by decide +kernel) hended⟩

end BackedData.Adapters.AsyncRead
