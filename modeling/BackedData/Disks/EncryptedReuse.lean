/-
# BackedData.Disks.EncryptedReuse — what one disk seals under its key and its nonce

A disk hands its secrets to every writer it opens, and every flush of a writer seals under them all the
bytes written to it so far.  Over any run of one disk, with any number of writers of both kinds, this is
all that is ever sealed (`run_uses`); so the pair of key and nonce is used for two messages as soon as
two encryptions find different bytes.  That of an asynchronous writer may run from the making of its future
on, so also right behind `new`, or behind the poll that resets.
-/
import BackedData.Disks.AsyncEncrypted

namespace BackedData.Disks

open Logic.Aead
open Logic.Trace

set_option autoImplicit false

/-! ## A disk and its writers -/

/-- A writer that a disk has opened. -/
inductive Writer (H : Type) where
  | sync (w : EncryptedWriter H)
  | async (w : AsyncEncryptedWriter)

/-- A disk, the writers it has opened, the messages sealed and the surroundings. -/
structure DiskState (D H S : Type) where
  disk : Encrypted D
  writers : List (Writer H)
  uses : Uses
  s : S

/-- A call on the disk or on one of its writers.  `asyncWriteDisk` comes with what the inner disk
answers: an error, or a writer and what it has accepted. -/
inductive DiskCall (E : Type) where
  | writeDisk
  | asyncWriteDisk (opened : Except E (List UInt8))
  | sync (i : Nat) (call : WriterCall)
  | async (i : Nat) (call : AsyncCall E)

/-- What a call returned. -/
inductive DiskAnswer (E : Type) where
  | opened (r : Except (EncryptedError E) Unit)
  | sync (r : Except (EncryptedError E) Unit)
  | async (answer : AsyncAnswer E)
  deriving DecidableEq

variable {D H S E : Type} {aes : Aes} {io : RawDisk D H S E}

/-- Make a call. -/
def DiskState.next (aes : Aes) (io : RawDisk D H S E) (st : DiskState D H S) :
    DiskCall E → Option (DiskAnswer E × DiskState D H S)
  | .writeDisk =>
      match st.disk.writeDisk io st.s with
      | (.error e, disk, s) => some (.opened (.error e), { st with disk, s })
      | (.ok w, disk, s) =>
          some (.opened (.ok ()), { st with disk, s, writers := st.writers ++ [.sync w] })
  | .asyncWriteDisk (.error e) => some (.opened (.error (.inner e)), st)
  | .asyncWriteDisk (.ok inner) =>
      some (.opened (.ok ()),
        { st with writers := st.writers ++ [.async (.new inner st.disk.secrets)] })
  | .sync i call =>
      match st.writers[i]? with
      | some (.sync w) =>
          match call.exec aes io (w, st.uses, st.s) with
          | none => none
          | some (r, w, uses, s) =>
              some (.sync r, { st with writers := st.writers.set i (.sync w), uses, s })
      | _ => none
  | .async i call =>
      match st.writers[i]? with
      | some (.async w) =>
          match AsyncEncryptedWriter.next aes (w, st.uses) call with
          | none => none
          | some (answer, w, uses) =>
              some (.async answer, { st with writers := st.writers.set i (.async w), uses })
      | _ => none

/-! ## What is sealed -/

/-- The bytes that a call has written. -/
def WriterCall.payload : WriterCall → Except (EncryptedError E) Unit → List UInt8
  | .write buf, .ok () => buf
  | _, _ => []

def AsyncCall.payload : AsyncCall E → AsyncAnswer E → List UInt8
  | .pollWrite buf, .wrote (.ok _) => buf
  | _, _ => []

/-- The bytes that a run has written to a writer. -/
def writtenTo (i : Nat) (past : List (DiskCall E × DiskAnswer E)) : List UInt8 :=
  past.flatMap fun l =>
    match l with
    | (.sync j call, .sync r) => if j = i then call.payload r else []
    | (.async j call, .async answer) => if j = i then call.payload answer else []
    | _ => []

/-- The call hands the content of the writer to the cipher: every flush does. -/
def WriterCall.seals : WriterCall → Bool
  | .flush => true
  | .write _ => false

/-- A future runs its call in a poll that finds it ready, unless it has run. -/
def FlushFut.runs : FlushFut → Bool → Bool
  | .unpolled, ready => ready
  | .started, ready => ready
  | _, _ => false

/-- The same for an asynchronous writer: the future's call runs, by itself or in a poll. -/
def AsyncEncryptedWriter.seals (w : AsyncEncryptedWriter) : AsyncCall E → Bool
  | .encrypt => true
  | .pollFlush env => w.flushFut.runs env.ready
  | .pollClose env => w.flushFut.runs env.ready
  | .pollWrite _ => false

/-- The writer whose content a call hands to the cipher. -/
def DiskState.seals (st : DiskState D H S) : DiskCall E → Option Nat
  | .sync i call => if call.seals then some i else none
  | .async i call =>
      match st.writers[i]? with
      | some (.async w) => if w.seals call then some i else none
      | _ => none
  | _ => none

/-- The messages that a run hands to the cipher, in order: each is what has been written to one writer
so far. -/
def handedMessages (past : List (DiskCall E × DiskAnswer E)) :
    DiskState D H S → List ((DiskCall E × DiskAnswer E) × DiskState D H S) → List (List UInt8)
  | _, [] => []
  | st, (l, st') :: rest =>
      ((st.seals l.1).toList.map fun i => writtenTo i past) ++ handedMessages (past ++ [l]) st' rest

/-- Those of them that the cipher can seal. -/
def sealedMessages (aes : Aes) (st : DiskState D H S)
    (tr : List ((DiskCall E × DiskAnswer E) × DiskState D H S)) : List (List UInt8) :=
  (handedMessages [] st tr).filter fun m =>
    (aes.encryptDetached st.disk.secrets.key st.disk.secrets.nonce m).isSome

/-! ## One call on one writer -/

/-- What is recorded when a buffer is sealed. -/
theorem sealBuffer_uses (aes : Aes) (secrets : KeyNonce) (buffer : SecretVecBuffer) (uses : Uses) :
    (sealBuffer aes secrets buffer uses).2 =
      uses ++ aes.recorded secrets.key secrets.nonce buffer.inner := by
  have hrec : (aes.encryptInPlace secrets.key secrets.nonce (SecretVecBuffer.ofVec buffer.inner) uses).2 =
      uses ++ aes.recorded secrets.key secrets.nonce buffer.inner := Cipher.encryptInPlace_uses
  unfold sealBuffer
  rcases he : aes.encryptInPlace secrets.key secrets.nonce (SecretVecBuffer.ofVec buffer.inner) uses
    with ⟨_ | _, u⟩
  · rw [he] at hrec
    exact hrec
  · rw [he] at hrec
    exact hrec

/-- A call on a synchronous writer keeps the secrets, keeps what it writes, and seals what there is. -/
theorem WriterCall.exec_frame {call : WriterCall} {w w' : EncryptedWriter H} {uses uses' : Uses}
    {s s' : S} {r : Except (EncryptedError E) Unit}
    (h : call.exec aes io (w, uses, s) = some (r, w', uses', s')) :
    w'.secrets = w.secrets ∧ w'.buffer.inner = w.buffer.inner ++ call.payload r ∧
      uses' = uses ++ if call.seals then aes.recorded w.secrets.key w.secrets.nonce w.buffer.inner
        else [] := by
  cases call with
  | write buf =>
      unfold WriterCall.exec EncryptedWriter.write at h
      rcases hb : w.buffer.extendFromSlice buf with _ | buffer
      · simp only [hb, Option.some.injEq, Prod.mk.injEq] at h
        obtain ⟨rfl, rfl, rfl, -⟩ := h
        exact ⟨rfl, (List.append_nil _).symm, (List.append_nil _).symm⟩
      · simp only [hb, Option.some.injEq, Prod.mk.injEq] at h
        obtain ⟨rfl, rfl, rfl, -⟩ := h
        exact ⟨rfl, SecretVecBuffer.extendFromSlice_ok hb, (List.append_nil _).symm⟩
  | flush =>
      have huses := sealBuffer_uses aes w.secrets w.buffer uses
      unfold WriterCall.exec EncryptedWriter.flush at h
      rcases hs : sealBuffer aes w.secrets w.buffer uses with ⟨_ | stored, u⟩
      · rw [hs] at huses
        simp only [hs, Option.some.injEq, Prod.mk.injEq] at h
        obtain ⟨rfl, rfl, rfl, -⟩ := h
        exact ⟨rfl, (List.append_nil _).symm, huses⟩
      · rw [hs] at huses
        rcases hw : io.writeAll stored w.inner s with ⟨_ | _, inner, s₁⟩
        all_goals
          simp only [hs, hw, Option.some.injEq, Prod.mk.injEq] at h
          obtain ⟨rfl, rfl, rfl, -⟩ := h
          exact ⟨rfl, (List.append_nil _).symm, huses⟩

namespace AsyncEncryptedWriter

variable {w w' : AsyncEncryptedWriter} {uses uses' : Uses} {env : PollEnv E}

/-- A poll of the future keeps the secrets and the bytes, and runs the call only if it is ready and has
not run yet. -/
theorem pollFut_frame {ready : Bool} {p : Poll (Except Unit (List UInt8))}
    (h : w.pollFut aes ready uses = some (p, w', uses')) :
    w'.secrets = w.secrets ∧ w'.buffer = w.buffer ∧
      uses' = uses ++ if w.flushFut.runs ready then
        aes.recorded w.secrets.key w.secrets.nonce w.buffer.inner else [] := by
  unfold pollFut at h
  cases hf : w.flushFut with
  | finished => simp [hf] at h
  | done res =>
      cases ready with
      | false | true =>
          simp only [hf, Option.some.injEq, Prod.mk.injEq] at h
          obtain ⟨-, rfl, rfl⟩ := h
          exact ⟨rfl, rfl, (List.append_nil _).symm⟩
  | unpolled | started =>
      cases ready with
      | false =>
          simp only [hf, Option.some.injEq, Prod.mk.injEq] at h
          obtain ⟨-, rfl, rfl⟩ := h
          exact ⟨rfl, rfl, (List.append_nil _).symm⟩
      | true =>
          simp only [hf, Option.some.injEq, Prod.mk.injEq] at h
          obtain ⟨-, rfl, rfl⟩ := h
          exact ⟨rfl, rfl, sealBuffer_uses aes w.secrets w.buffer uses⟩

theorem pollFlush_frame {p : Poll (Except (EncryptedError E) Unit)}
    (h : w.pollFlush aes env uses = some (p, w', uses')) :
    w'.secrets = w.secrets ∧ w'.buffer = w.buffer ∧
      uses' = uses ++ if w.seals (.pollFlush env) then
        aes.recorded w.secrets.key w.secrets.nonce w.buffer.inner else [] := by
  unfold pollFlush at h
  rcases hf : w.pollFut aes env.ready uses with _ | ⟨_ | _ | buf, v, u⟩
  · simp [hf] at h
  · simp only [hf, Option.some.injEq, Prod.mk.injEq] at h
    obtain ⟨-, rfl, rfl⟩ := h
    exact pollFut_frame hf
  · simp only [hf, Option.some.injEq, Prod.mk.injEq] at h
    obtain ⟨-, rfl, rfl⟩ := h
    exact pollFut_frame hf
  · simp only [hf, Option.some.injEq, Prod.mk.injEq] at h
    obtain ⟨-, rfl, rfl⟩ := h
    obtain ⟨hsec, hbuf, huses⟩ := pollFut_frame hf
    obtain ⟨hsec', hbuf'⟩ := offer_frame v env buf
    exact ⟨hsec'.trans hsec, hbuf'.trans hbuf, huses⟩

/-- A call on an asynchronous writer does as one on a synchronous one. -/
theorem next_frame {call : AsyncCall E} {answer : AsyncAnswer E}
    (h : AsyncEncryptedWriter.next aes (w, uses) call = some (answer, w', uses')) :
    w'.secrets = w.secrets ∧ w'.buffer.inner = w.buffer.inner ++ call.payload answer ∧
      uses' = uses ++ if w.seals call then aes.recorded w.secrets.key w.secrets.nonce w.buffer.inner
        else [] := by
  cases call with
  | pollWrite buf =>
      rcases hb : w.buffer.extendFromSlice buf with _ | buffer
      · simp only [next, pollWrite, hb, Option.some.injEq, Prod.mk.injEq] at h
        obtain ⟨rfl, rfl, rfl⟩ := h
        exact ⟨rfl, (List.append_nil _).symm, (List.append_nil _).symm⟩
      · simp only [next, pollWrite, hb, Option.some.injEq, Prod.mk.injEq] at h
        obtain ⟨rfl, rfl, rfl⟩ := h
        exact ⟨rfl, SecretVecBuffer.extendFromSlice_ok hb, (List.append_nil _).symm⟩
  | pollFlush env | pollClose env =>
      rcases hf : w.pollFlush aes env uses with _ | ⟨p, v, u⟩
      · simp only [next, hf, Option.some.injEq, Prod.mk.injEq] at h
        obtain ⟨rfl, rfl, rfl⟩ := h
        have hno : w.flushFut.runs env.ready = false := by rw [pollFlush_none.mp hf]; rfl
        refine ⟨rfl, (List.append_nil _).symm, ?_⟩
        simp [seals, hno]
      · simp only [next, hf, Option.some.injEq, Prod.mk.injEq] at h
        obtain ⟨rfl, rfl, rfl⟩ := h
        obtain ⟨hsec, hbuf, huses⟩ := pollFlush_frame hf
        exact ⟨hsec, by rw [hbuf]; exact (List.append_nil _).symm, huses⟩
  | encrypt =>
      cases hf : w.flushFut with
      | unpolled | started =>
          simp only [next, hf, Option.some.injEq, Prod.mk.injEq] at h
          obtain ⟨rfl, rfl, rfl⟩ := h
          exact ⟨rfl, (List.append_nil _).symm, sealBuffer_uses aes w.secrets w.buffer uses⟩
      | done res | finished => simp [next, hf] at h

end AsyncEncryptedWriter

/-! ## One call on the disk -/

namespace Writer

/-- The secrets of a writer, and the bytes it keeps. -/
def secrets : Writer H → KeyNonce
  | .sync w => w.secrets
  | .async w => w.secrets

def bytes : Writer H → List UInt8
  | .sync w => w.buffer.inner
  | .async w => w.buffer.inner

end Writer

/-- **`Carries secrets past st`** — disk and writers have these secrets, and a writer keeps what was
written to it. -/
structure Carries (secrets : KeyNonce) (past : List (DiskCall E × DiskAnswer E))
    (st : DiskState D H S) : Prop where
  disk : st.disk.secrets = secrets
  writers : ∀ i w, st.writers[i]? = some w → w.secrets = secrets ∧ w.bytes = writtenTo i past
  unopened : ∀ i, st.writers.length ≤ i → writtenTo i past = []

section Steps

variable {secrets : KeyNonce} {past : List (DiskCall E × DiskAnswer E)} {st st' : DiskState D H S}

theorem writtenTo_append (i : Nat) (past : List (DiskCall E × DiskAnswer E))
    (l : DiskCall E × DiskAnswer E) : writtenTo i (past ++ [l]) = writtenTo i past ++ writtenTo i [l] :=
  List.flatMap_append

/-- A call that opens a writer, or does not. -/
theorem Carries.opened (h : Carries secrets past st) {l : DiskCall E × DiskAnswer E}
    (hl : ∀ i, writtenTo i [l] = []) (hdisk : st'.disk.secrets = secrets)
    (hw : st'.writers = st.writers ∨ ∃ w : Writer H,
      st'.writers = st.writers ++ [w] ∧ w.secrets = secrets ∧ w.bytes = []) :
    Carries secrets (past ++ [l]) st' := by
  have hsame : ∀ i, writtenTo i (past ++ [l]) = writtenTo i past := fun i => by
    rw [writtenTo_append, hl i, List.append_nil]
  refine ⟨hdisk, fun i w hi => ?_, fun i hi => ?_⟩
  · rw [hsame i]
    rcases hw with hw | ⟨v, hw, hsec, hbytes⟩
    · exact h.writers i w (hw ▸ hi)
    · rw [hw] at hi
      rcases Nat.lt_or_ge i st.writers.length with hlt | hge
      · rw [List.getElem?_append_left hlt] at hi
        exact h.writers i w hi
      · rw [List.getElem?_append_right hge] at hi
        obtain rfl : v = w := List.mem_singleton.mp (List.mem_of_getElem? hi) |>.symm
        exact ⟨hsec, hbytes.trans (h.unopened i hge).symm⟩
  · rw [hsame i]
    refine h.unopened i (Nat.le_trans ?_ hi)
    rcases hw with hw | ⟨v, hw, -⟩
    · exact hw ▸ Nat.le_refl _
    · rw [hw, List.length_append]
      exact Nat.le_add_right _ _

/-- A call on a writer. -/
theorem Carries.called (h : Carries secrets past st) {l : DiskCall E × DiskAnswer E} {i : Nat}
    {w w' : Writer H} (hi : st.writers[i]? = some w) (hdisk : st'.disk = st.disk)
    (hw : st'.writers = st.writers.set i w') (hsec : w'.secrets = w.secrets)
    (hbytes : w'.bytes = w.bytes ++ writtenTo i [l])
    (hother : ∀ j, j ≠ i → writtenTo j [l] = []) : Carries secrets (past ++ [l]) st' := by
  obtain ⟨hlt, -⟩ := List.getElem?_eq_some_iff.mp hi
  obtain ⟨hold, hkept⟩ := h.writers i w hi
  have hsame : ∀ j, j ≠ i → writtenTo j (past ++ [l]) = writtenTo j past := fun j hj => by
    rw [writtenTo_append, hother j hj, List.append_nil]
  refine ⟨hdisk ▸ h.disk, fun j v hj => ?_, fun j hj => ?_⟩
  · rw [hw] at hj
    by_cases hji : j = i
    · subst hji
      rw [List.getElem?_set_self hlt] at hj
      obtain rfl : w' = v := Option.some.inj hj
      rw [writtenTo_append]
      exact ⟨hsec.trans hold, hbytes.trans (by rw [hkept])⟩
    · rw [List.getElem?_set_ne (Ne.symm hji)] at hj
      rw [hsame j hji]
      exact h.writers j v hj
  · rw [hw, List.length_set] at hj
    rw [hsame j (by omega)]
    exact h.unopened j hj

/-- The record of what one call seals. -/
def sealedNow (aes : Aes) (secrets : KeyNonce) (past : List (DiskCall E × DiskAnswer E))
    (st : DiskState D H S) (call : DiskCall E) : Uses :=
  ((st.seals call).toList.map fun i => writtenTo i past).flatMap
    (aes.recorded secrets.key secrets.nonce)

theorem sealedNow_eq {call : DiskCall E} {b : Bool} {i : Nat}
    (h : st.seals call = if b then some i else none) :
    sealedNow aes secrets past st call =
      if b then aes.recorded secrets.key secrets.nonce (writtenTo i past) else [] := by
  unfold sealedNow
  rw [h]
  cases b with
  | false => rfl
  | true => exact List.append_nil _

/-- **The step lemma.** -/
theorem Carries.step (h : Carries secrets past st) {l : DiskCall E × DiskAnswer E}
    (hs : Reacts (DiskState.next aes io) st l st') :
    Carries secrets (past ++ [l]) st' ∧
      st'.uses = st.uses ++ sealedNow aes secrets past st l.1 := by
  obtain ⟨call, answer⟩ := l
  unfold Reacts DiskState.next at hs
  cases call with
  | writeDisk =>
      unfold Encrypted.writeDisk at hs
      rcases ho : io.writeDisk st.disk.inner st.s with ⟨_ | hd, inner, s⟩
      · simp only [ho, Option.some.injEq, Prod.mk.injEq] at hs
        obtain ⟨rfl, rfl⟩ := hs
        exact ⟨h.opened (fun _ => rfl) h.disk (Or.inl rfl), (List.append_nil _).symm⟩
      · simp only [ho, Option.some.injEq, Prod.mk.injEq] at hs
        obtain ⟨rfl, rfl⟩ := hs
        exact ⟨h.opened (fun _ => rfl) h.disk (Or.inr ⟨_, rfl, h.disk, rfl⟩),
          (List.append_nil _).symm⟩
  | asyncWriteDisk opened =>
      cases opened with
      | error e =>
          simp only [Option.some.injEq, Prod.mk.injEq] at hs
          obtain ⟨rfl, rfl⟩ := hs
          exact ⟨h.opened (fun _ => rfl) h.disk (Or.inl rfl), (List.append_nil _).symm⟩
      | ok inner =>
          simp only [Option.some.injEq, Prod.mk.injEq] at hs
          obtain ⟨rfl, rfl⟩ := hs
          exact ⟨h.opened (fun _ => rfl) h.disk (Or.inr ⟨_, rfl, h.disk, rfl⟩),
            (List.append_nil _).symm⟩
  | sync i call =>
      rcases hi : st.writers[i]? with _ | ⟨w | w⟩
      · simp [hi] at hs
      · rcases hc : call.exec aes io (w, st.uses, st.s) with _ | ⟨r, w', uses', s'⟩
        · simp [hi, hc] at hs
        · simp only [hi, hc, Option.some.injEq, Prod.mk.injEq] at hs
          obtain ⟨rfl, rfl⟩ := hs
          obtain ⟨hsec, hbytes, huses⟩ := WriterCall.exec_frame hc
          obtain ⟨hold, hkept⟩ := h.writers i _ hi
          refine ⟨h.called hi rfl rfl hsec ?_ fun j hj => ?_, ?_⟩
          · simpa [writtenTo, Writer.bytes] using hbytes
          · simp [writtenTo, Ne.symm hj]
          · rw [sealedNow_eq (i := i) (b := call.seals) (by simp [DiskState.seals]), ← hkept, ← hold]
            exact huses
      · simp [hi] at hs
  | async i call =>
      rcases hi : st.writers[i]? with _ | ⟨w | w⟩
      · simp [hi] at hs
      · simp [hi] at hs
      · rcases hc : AsyncEncryptedWriter.next aes (w, st.uses) call with _ | ⟨a, w', uses'⟩
        · simp [hi, hc] at hs
        · simp only [hi, hc, Option.some.injEq, Prod.mk.injEq] at hs
          obtain ⟨rfl, rfl⟩ := hs
          obtain ⟨hsec, hbytes, huses⟩ := AsyncEncryptedWriter.next_frame hc
          obtain ⟨hold, hkept⟩ := h.writers i _ hi
          refine ⟨h.called hi rfl rfl hsec ?_ fun j hj => ?_, ?_⟩
          · simpa [writtenTo, Writer.bytes] using hbytes
          · simp [writtenTo, Ne.symm hj]
          · rw [sealedNow_eq (i := i) (b := w.seals call) (by simp [DiskState.seals, hi]), ← hkept, ← hold]
            exact huses

/-- **The run lemma.** -/
theorem Carries.run (h : Carries secrets past st)
    {tr : List ((DiskCall E × DiskAnswer E) × DiskState D H S)}
    (htr : IsTrace (Reacts (DiskState.next aes io)) st tr) :
    (last st tr).uses =
      st.uses ++ (handedMessages past st tr).flatMap (aes.recorded secrets.key secrets.nonce) := by
  induction tr generalizing st past with
  | nil => exact (List.append_nil _).symm
  | cons a rest ih =>
      obtain ⟨l, st'⟩ := a
      obtain ⟨hstep, huses⟩ := h.step htr.1
      have hrest := ih hstep htr.2
      rw [huses, sealedNow] at hrest
      rw [last, hrest, handedMessages, List.flatMap_append, List.append_assoc]

end Steps

/-- A pair of key and nonce is used for two messages. -/
def PairReused (uses : Uses) : Prop :=
  ∃ u ∈ uses, ∃ v ∈ uses, u.key = v.key ∧ u.nonce = v.nonce ∧ u.msg ≠ v.msg

/-- **What a disk seals.**  Over any run of a disk without `set_key` and `set_nonce`: every message is
sealed under the disk's one key and nonce, and is what had been written to one writer when its encryption
ran.  So the pair is used for two messages exactly when two of these differ. -/
theorem run_uses (disk : Encrypted D) (s : S)
    {tr : List ((DiskCall E × DiskAnswer E) × DiskState D H S)}
    (htr : IsTrace (Reacts (DiskState.next aes io)) ⟨disk, [], [], s⟩ tr) :
    (last ⟨disk, [], [], s⟩ tr).uses =
        (sealedMessages aes ⟨disk, [], [], s⟩ tr).map (fun m =>
          ⟨disk.secrets.key, disk.secrets.nonce, m⟩) ∧
      (PairReused (last ⟨disk, [], [], s⟩ tr).uses ↔
        ∃ m ∈ sealedMessages aes ⟨disk, [], [], s⟩ tr,
          ∃ m' ∈ sealedMessages aes ⟨disk, [], [], s⟩ tr, m ≠ m') := by
  have hnew : Carries (E := E) disk.secrets [] (⟨disk, [], [], s⟩ : DiskState D H S) :=
    ⟨rfl, fun i w hi => by simp at hi, fun _ _ => rfl⟩
  have huses : (last ⟨disk, [], [], s⟩ tr).uses =
      (sealedMessages aes ⟨disk, [], [], s⟩ tr).map fun m =>
        ⟨disk.secrets.key, disk.secrets.nonce, m⟩ := by
    rw [hnew.run htr, Cipher.flatMap_recorded]
    exact List.nil_append _
  refine ⟨huses, ?_⟩
  rw [huses]
  constructor
  · rintro ⟨u, hu, v, hv, -, -, hne⟩
    obtain ⟨m, hm, rfl⟩ := List.mem_map.mp hu
    obtain ⟨m', hm', rfl⟩ := List.mem_map.mp hv
    exact ⟨m, hm, m', hm', hne⟩
  · rintro ⟨m, hm, m', hm', hne⟩
    exact ⟨_, List.mem_map_of_mem hm, _, List.mem_map_of_mem hm', rfl, rfl, hne⟩

/-! ### Two flushes -/

/-- A new disk. -/
def zeroState : DiskState Unit (List UInt8) (List UInt8) := ⟨zeroDisk, [], [], []⟩

/-- A writer is opened, flushed, given a block, and flushed again. -/
def flushedTwice : List ((DiskCall Unit × DiskAnswer Unit) × DiskState Unit (List UInt8) (List UInt8)) :=
  react (DiskState.next vectorAes bufferedFile) zeroState
    [.writeDisk, .sync 0 .flush, .sync 0 (.write zeroBlock.flatten), .sync 0 .flush]

/-- Two messages are sealed under the zero key and the zero nonce. -/
theorem flushedTwice_reuses :
    flushedTwice.length = 4 ∧ (last zeroState flushedTwice).uses = zeroBlockUses ∧
      PairReused (last zeroState flushedTwice).uses := by
  refine ⟨rfl, rfl, ?_⟩
  refine ⟨⟨zeroSecrets.key, zeroSecrets.nonce, []⟩, List.mem_cons_self, ?_⟩
  exact ⟨⟨zeroSecrets.key, zeroSecrets.nonce, zeroBlock.flatten⟩,
    List.mem_cons_of_mem _ List.mem_cons_self, rfl, rfl, by decide⟩

/-- Without a flush in between, one message. -/
def flushedOnce : List ((DiskCall Unit × DiskAnswer Unit) × DiskState Unit (List UInt8) (List UInt8)) :=
  react (DiskState.next vectorAes bufferedFile) zeroState
    [.asyncWriteDisk (.ok []), .async 0 (.pollWrite zeroBlock.flatten), .async 0 (.pollFlush notReady),
      .async 0 .encrypt, .writeDisk, .sync 1 (.write zeroBlock.flatten), .sync 1 .flush]

theorem run_uses_once : ¬PairReused (last zeroState flushedOnce).uses := by
  have htr : IsTrace (Reacts (DiskState.next vectorAes bufferedFile)) zeroState flushedOnce :=
    isTrace_react _ _ _
  have hall : ∀ m ∈ sealedMessages vectorAes zeroState flushedOnce, m = zeroBlock.flatten := by decide
  intro hreused
  obtain ⟨m, hm, m', hm', hne⟩ := (run_uses zeroDisk [] htr).2.mp hreused
  exact hne ((hall m hm).trans (hall m' hm').symm)

end BackedData.Disks
