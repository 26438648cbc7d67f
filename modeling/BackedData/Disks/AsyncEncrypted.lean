/-
# BackedData.Disks.AsyncEncrypted — a flush that is resumed, and the future behind it

`AsyncEncryptedWriter` of `entry/disks/encrypted.rs`.  Its flush polls a future that seals the buffer,
and then hands the ciphertext to the inner writer piece by piece, one piece a poll.  The future is
replaced when the inner writer accepts nothing more and has answered to its own flush, or fails; after a
piece was accepted, or the inner writer was not ready, the next poll is one of a future that has already
returned.

`async_flush_exact`: in a run, no finished future is polled and every `Ready(Ok(()))` follows one
ciphertext exactly when each poll comes behind polls that did not find the future ready, or at which the
flush came to an end, and no inner writer refuses a ciphertext with `Ok(0)` and then flushes.  So no flush
ever succeeds as it should.

A poll takes what its environment answers as an argument: whether the future is ready, and what the
inner writer says.  When the encryption runs is the handle's choice: within the call that makes the future,
by itself later on, or in a poll.
-/
import BackedData.Disks.EncryptedStore

namespace BackedData.Disks

open Logic.Aead
open Logic.Trace

set_option autoImplicit false

/-! ## The writer -/

/-- The future `flush_fut`: neither polled yet nor its call run, polled before its call has run, its call has
run, or it has returned `Ready`. -/
inductive FlushFut where
  | unpolled
  | started
  | done (res : Except Unit (List UInt8))
  | finished
  deriving DecidableEq

/-- `AsyncEncryptedWriter`; `inner` is what the inner writer has accepted. -/
structure AsyncEncryptedWriter where
  inner : List UInt8
  buffer : SecretVecBuffer
  secrets : KeyNonce
  flushFut : FlushFut
  flushSliceStart : Nat
  deriving DecidableEq

/-- What a poll returned; `none` is `Pending`. -/
abbrev Poll (α : Type) : Type := Option α

/-- An error of the inner writer's `poll_write`: `ErrorKind::Interrupted`, or another. -/
inductive WriteFault (E : Type) where
  | interrupted
  | other (e : E)
  deriving DecidableEq, Repr

/-- What a poll of the writer meets: whether the future is ready, and the answers of the inner writer's
`poll_write`, `poll_flush` and `poll_close` if they are called. -/
structure PollEnv (E : Type) where
  ready : Bool
  write : Poll (Except (WriteFault E) Nat)
  flush : Poll (Except E Unit)
  close : Poll (Except E Unit)

namespace AsyncEncryptedWriter

variable {E : Type}

/-- `AsyncEncryptedWriter::new`. -/
def new (inner : List UInt8) (secrets : KeyNonce) : AsyncEncryptedWriter :=
  { inner, buffer := .empty, secrets, flushFut := .unpolled, flushSliceStart := 0 }

/-- `poll_write`. -/
def pollWrite (self : AsyncEncryptedWriter) (buf : List UInt8) :
    Except (EncryptedError E) Nat × AsyncEncryptedWriter :=
  match self.buffer.extendFromSlice buf with
  | .error () => (.error .outOfMemory, self)
  | .ok buffer => (.ok buf.length, { self with buffer })

/-- `EncryptBlocking::call`: the buffer is locked, and copied, when the call runs. -/
def encryptBlocking (aes : Aes) (self : AsyncEncryptedWriter) (uses : Uses) :
    Except Unit (List UInt8) × Uses :=
  sealBuffer aes self.secrets self.buffer uses

/-- `Pin::new(&mut self.flush_fut).poll(cx)`, of a future that may run its call within a poll, if it has not
run before; `none` when it has returned `Ready` before. -/
def pollFut (aes : Aes) (self : AsyncEncryptedWriter) (ready : Bool) (uses : Uses) :
    Option (Poll (Except Unit (List UInt8)) × AsyncEncryptedWriter × Uses) :=
  match self.flushFut, ready with
  | .finished, _ => none
  | .done res, true => some (some res, { self with flushFut := .finished }, uses)
  | .done _, false => some (none, self, uses)
  | _, true =>
      match self.encryptBlocking aes uses with
      | (res, uses) => some (some res, { self with flushFut := .finished }, uses)
  | _, false => some (none, { self with flushFut := .started }, uses)

/-- `reset`. -/
def reset (self : AsyncEncryptedWriter) : AsyncEncryptedWriter :=
  { self with flushFut := .unpolled, flushSliceStart := 0 }

/-- `poll_flush` on a ciphertext: the match on `write_res`. -/
def offer (self : AsyncEncryptedWriter) (env : PollEnv E) (buf : List UInt8) :
    Poll (Except (EncryptedError E) Unit) × AsyncEncryptedWriter :=
  match env.write with
  | some (.ok 0) =>
      match env.flush with
      | none => (none, self)
      | some (.ok ()) => (some (.ok ()), self.reset)
      | some (.error e) => (some (.error (.inner e)), self.reset)
  | some (.ok (n + 1)) =>
      (none, { self with
        inner := self.inner ++ (buf.drop self.flushSliceStart).take (n + 1)
        flushSliceStart := self.flushSliceStart + (n + 1) })
  | some (.error .interrupted) => (none, self)
  | some (.error (.other e)) => (some (.error (.inner e)), self.reset)
  | none => (none, self)

/-- `poll_flush`; `none` when it polls a future that has returned `Ready` before. -/
def pollFlush (aes : Aes) (self : AsyncEncryptedWriter) (env : PollEnv E) (uses : Uses) :
    Option (Poll (Except (EncryptedError E) Unit) × AsyncEncryptedWriter × Uses) :=
  match self.pollFut aes env.ready uses with
  | none => none
  | some (none, self, uses) => some (none, self, uses)
  -- `buf?` returns, and the future stays as it is
  | some (some (.error ()), self, uses) => some (some (.error .other), self, uses)
  | some (some (.ok buf), self, uses) =>
      match self.offer env buf with
      | (p, self) => some (p, self, uses)

/-- `poll_close`, behind its flush. -/
def closeAfter (flushed : Poll (Except (EncryptedError E) Unit)) (env : PollEnv E) :
    Poll (Except (EncryptedError E) Unit) :=
  match flushed with
  | none => none
  | some (.error e) => some (.error e)
  | some (.ok ()) => env.close.map fun r => r.mapError .inner

end AsyncEncryptedWriter

/-! ## The calls, and the thread -/

/-- A call on the writer, or the future's call running by itself. -/
inductive AsyncCall (E : Type) where
  | pollWrite (buf : List UInt8)
  | pollFlush (env : PollEnv E)
  | pollClose (env : PollEnv E)
  | encrypt

/-- What a call returned; of `poll_close` also what its `poll_flush` did.  `misused` is a poll of a
future that has returned `Ready`, whatever comes of it. -/
inductive AsyncAnswer (E : Type) where
  | wrote (r : Except (EncryptedError E) Nat)
  | flush (p : Poll (Except (EncryptedError E) Unit))
  | close (flushed p : Poll (Except (EncryptedError E) Unit))
  | encrypted
  | misused
  deriving DecidableEq

variable {E : Type} {aes : Aes} {uses uses' : Uses}

/-- The poll of the flush in a call. -/
def AsyncCall.polls : AsyncCall E → Option (PollEnv E)
  | .pollFlush env => some env
  | .pollClose env => some env
  | _ => none

/-- What `poll_flush` returned in a call. -/
def AsyncAnswer.flushed : AsyncAnswer E → Poll (Except (EncryptedError E) Unit)
  | .flush p => p
  | .close flushed _ => flushed
  | _ => none

/-- A call, or the run of the future's call: that one takes place at any time from the making of the future
on, once.  A handle that runs it at once makes that step right behind `new`, or the poll that resets. -/
def AsyncEncryptedWriter.next (aes : Aes) :
    AsyncEncryptedWriter × Uses → AsyncCall E → Option (AsyncAnswer E × AsyncEncryptedWriter × Uses)
  | (w, uses), .pollWrite buf =>
      match w.pollWrite buf with
      | (r, w) => some (.wrote r, w, uses)
  | (w, uses), .pollFlush env =>
      match w.pollFlush aes env uses with
      | none => some (.misused, w, uses)
      | some (p, w, uses) => some (.flush p, w, uses)
  | (w, uses), .pollClose env =>
      match w.pollFlush aes env uses with
      | none => some (.misused, w, uses)
      | some (p, w, uses) => some (.close p (closeAfter p env), w, uses)
  | (w, uses), .encrypt =>
      match w.flushFut with
      | .unpolled | .started =>
          match w.encryptBlocking aes uses with
          | (res, uses) => some (.encrypted, { w with flushFut := .done res }, uses)
      | .done _ | .finished => none

/-! ## One poll -/

/-- The answers of the inner writer that end a flush: an error but `Interrupted`, or nothing accepted, and
then an answer to its own flush. -/
def PollEnv.ends (env : PollEnv E) : Bool :=
  match env.write with
  | some (.ok 0) => env.flush.isSome
  | some (.error (.other _)) => true
  | _ => false

namespace AsyncEncryptedWriter

variable {w w' : AsyncEncryptedWriter} {env : PollEnv E}

/-- What the encryption makes of these bytes. -/
def sealed (aes : Aes) (secrets : KeyNonce) (msg : List UInt8) : Except Unit (List UInt8) :=
  (sealBuffer aes secrets (.ofVec msg) []).1

/-- The encryption looks at nothing but the secrets and the bytes. -/
theorem encryptBlocking_fst (aes : Aes) (w : AsyncEncryptedWriter) (uses : Uses) :
    (w.encryptBlocking aes uses).1 = sealed aes w.secrets w.buffer.inner := by
  unfold encryptBlocking sealed sealBuffer Cipher.encryptInPlace
  rw [show (SecretVecBuffer.ofVec w.buffer.inner).inner = w.buffer.inner from rfl]
  rcases aes.encryptDetached w.secrets.key w.secrets.nonce
    (Buffer.bytes (SecretVecBuffer.ofVec w.buffer.inner)) with _ | ⟨ct, tag⟩
  · rfl
  · dsimp only
    rcases Buffer.extendFromSlice (Buffer.setBytes (SecretVecBuffer.ofVec w.buffer.inner) ct) tag with _ | b
    · rfl
    · rfl

/-- The future gives a ciphertext at this poll. -/
def Yields (aes : Aes) (w : AsyncEncryptedWriter) (ready : Bool) (uses : Uses) : Prop :=
  ∃ buf w' uses', w.pollFut aes ready uses = some (some (.ok buf), w', uses')

theorem pollFut_none {ready : Bool} :
    w.pollFut aes ready uses = none ↔ w.flushFut = .finished := by
  unfold pollFut
  cases w.flushFut with
  | finished => simp
  | unpolled | started | done res => cases ready <;> simp

/-- A poll of the future leaves it finished with a result, or without one as it was or started. -/
theorem pollFut_inv {ready : Bool} {p : Poll (Except Unit (List UInt8))}
    (h : w.pollFut aes ready uses = some (p, w', uses')) :
    (p = none ∧ ∃ fut, w' = { w with flushFut := fut } ∧ fut ≠ .finished) ∨
      w' = { w with flushFut := .finished } := by
  unfold pollFut at h
  cases hf : w.flushFut with
  | finished => simp [hf] at h
  | done res =>
      cases ready with
      | false =>
          simp only [hf, Option.some.injEq, Prod.mk.injEq] at h
          obtain ⟨rfl, rfl, -⟩ := h
          exact Or.inl ⟨rfl, .done res, by rw [← hf], nofun⟩
      | true =>
          simp only [hf, Option.some.injEq, Prod.mk.injEq] at h
          exact Or.inr h.2.1.symm
  | unpolled | started =>
      cases ready with
      | false =>
          simp only [hf, Option.some.injEq, Prod.mk.injEq] at h
          obtain ⟨rfl, rfl, -⟩ := h
          exact Or.inl ⟨rfl, .started, rfl, nofun⟩
      | true =>
          simp only [hf, Option.some.injEq, Prod.mk.injEq] at h
          exact Or.inr h.2.1.symm

/-- Only an inner writer that accepts nothing, and then flushes, ends the flush with `Ok(())`. -/
theorem offer_ok (w : AsyncEncryptedWriter) (env : PollEnv E) (buf : List UInt8) :
    (w.offer env buf).1 = some (.ok ()) ↔ env.write = some (.ok 0) ∧ env.flush = some (.ok ()) := by
  unfold offer
  split
  next hw =>
    rcases hf : env.flush with _ | _ | _ <;> simp [hw]
  all_goals
    next hw => simp [hw]

/-- The inner writer accepts bytes only in a poll that returns `Pending` and keeps the future. -/
theorem offer_inner (w : AsyncEncryptedWriter) (env : PollEnv E) (buf : List UInt8) :
    (w.offer env buf).2.inner = w.inner ∨
      (w.offer env buf).1 = none ∧ (w.offer env buf).2.flushFut = w.flushFut := by
  unfold offer
  split
  next =>
    rcases env.flush with _ | _ | _ <;> exact Or.inl rfl
  next => exact Or.inr ⟨rfl, rfl⟩
  all_goals exact Or.inl rfl

theorem offer_frame (w : AsyncEncryptedWriter) (env : PollEnv E) (buf : List UInt8) :
    (w.offer env buf).2.secrets = w.secrets ∧ (w.offer env buf).2.buffer = w.buffer := by
  unfold offer
  split
  next =>
    rcases env.flush with _ | _ | _ <;> exact ⟨rfl, rfl⟩
  all_goals exact ⟨rfl, rfl⟩

/-- The future is replaced when the inner writer ends the flush, and only then. -/
theorem offer_flushFut (w : AsyncEncryptedWriter) (env : PollEnv E) (buf : List UInt8) :
    (w.offer env buf).2.flushFut = if env.ends then .unpolled else w.flushFut := by
  unfold offer PollEnv.ends
  split
  next hw =>
    rcases hf : env.flush with _ | _ | _ <;> simp [hw, reset]
  all_goals
    next hw => simp [hw, reset]

theorem pollFlush_none :
    (w.pollFlush aes env uses = none) ↔ w.flushFut = .finished := by
  have hfut : w.pollFut aes env.ready uses = none ↔ w.flushFut = .finished := pollFut_none
  rw [← hfut]
  unfold pollFlush
  rcases w.pollFut aes env.ready uses with _ | ⟨_ | _ | buf, v, u⟩ <;> simp

/-- **When a flush returns `Ready(Ok(()))`.** -/
theorem pollFlush_ok :
    (∃ w' uses', w.pollFlush aes env uses = some (some (.ok ()), w', uses')) ↔
      w.Yields aes env.ready uses ∧ env.write = some (.ok 0) ∧ env.flush = some (.ok ()) := by
  unfold pollFlush Yields
  rcases hf : w.pollFut aes env.ready uses with _ | ⟨_ | _ | buf, v, u⟩
  · simp
  · simp
  · simp
  · rw [← offer_ok v env buf]
    rcases ho : v.offer env buf with ⟨p, v'⟩
    simp [ho]

/-- A poll that is not the last of its future, or that ends the flush, has not fed the inner writer. -/
theorem pollFlush_inner {p : Poll (Except (EncryptedError E) Unit)}
    (h : w.pollFlush aes env uses = some (p, w', uses')) :
    w'.inner = w.inner ∨ p = none ∧ w'.flushFut = .finished := by
  unfold pollFlush at h
  rcases hf : w.pollFut aes env.ready uses with _ | ⟨_ | _ | buf, v, u⟩
  · simp [hf] at h
  · simp only [hf, Option.some.injEq, Prod.mk.injEq] at h
    obtain ⟨-, rfl, -⟩ := h
    rcases pollFut_inv hf with ⟨-, fut, rfl, -⟩ | rfl <;> exact Or.inl rfl
  · simp only [hf, Option.some.injEq, Prod.mk.injEq] at h
    obtain ⟨-, rfl, -⟩ := h
    rcases pollFut_inv hf with ⟨-, fut, rfl, -⟩ | rfl <;> exact Or.inl rfl
  · simp only [hf, Option.some.injEq, Prod.mk.injEq] at h
    obtain ⟨rfl, rfl, -⟩ := h
    obtain ⟨hnone, -⟩ | rfl := pollFut_inv hf
    · cases hnone
    · exact offer_inner _ env buf

end AsyncEncryptedWriter

/-- **`fut.Found aes secrets found`** — a future that has not returned `Ready`, with the bytes that its
encryption found if it has run. -/
def FlushFut.Found (aes : Aes) (secrets : KeyNonce) (fut : FlushFut) : Option (List UInt8) → Prop
  | none => fut = .unpolled ∨ fut = .started
  | some msg => fut = .done (AsyncEncryptedWriter.sealed aes secrets msg)

theorem FlushFut.Found.live {fut : FlushFut} {secrets : KeyNonce} {found : Option (List UInt8)}
    (h : fut.Found aes secrets found) : fut ≠ .finished := by
  rintro rfl
  cases found with
  | none => rcases h with h | h <;> cases h
  | some msg => cases h

namespace AsyncEncryptedWriter

variable {w w' : AsyncEncryptedWriter} {env : PollEnv E} {found : Option (List UInt8)}

/-- **A poll of such a future**: it is not ready and stays one, or it gives what the encryption makes of the
bytes it found, or finds now. -/
theorem pollFut_found (h : w.flushFut.Found aes w.secrets found) (ready : Bool) (uses : Uses) :
    (ready = false ∧ ∃ fut uses', fut.Found aes w.secrets found ∧
        w.pollFut aes ready uses = some (none, { w with flushFut := fut }, uses')) ∨
      (ready = true ∧ ∃ uses', w.pollFut aes ready uses =
        some (some (sealed aes w.secrets (found.getD w.buffer.inner)), { w with flushFut := .finished },
          uses')) := by
  unfold pollFut
  cases found with
  | none =>
      have hruns := encryptBlocking_fst aes w uses
      rcases hb : w.encryptBlocking aes uses with ⟨res, u⟩
      rw [hb] at hruns
      obtain rfl : res = _ := hruns
      rcases h with hf | hf
      all_goals
        cases ready with
        | false => exact Or.inl ⟨rfl, .started, uses, Or.inr rfl, by simp only [hf]⟩
        | true => exact Or.inr ⟨rfl, u, by simp only [hf, Option.getD_none]⟩
  | some msg =>
      have hf : w.flushFut = .done (sealed aes w.secrets msg) := h
      cases ready with
      | false =>
          refine Or.inl ⟨rfl, _, uses, h, ?_⟩
          simp only [hf]
          rw [← hf]
      | true =>
          refine Or.inr ⟨rfl, uses, ?_⟩
          simp only [hf]
          rfl

/-- Whether a ciphertext is given is told by the bytes. -/
theorem yields_iff (h : w.flushFut.Found aes w.secrets found) (ready : Bool) :
    w.Yields aes ready uses ↔
      ready = true ∧ ∃ buf, sealed aes w.secrets (found.getD w.buffer.inner) = .ok buf := by
  unfold Yields
  rcases pollFut_found h ready uses with ⟨hready, fut, u, -, hpoll⟩ | ⟨hready, u, hpoll⟩
  · rw [hpoll]
    simp [hready]
  · rw [hpoll]
    simp only [Option.some.injEq, Prod.mk.injEq, hready, true_and]
    constructor
    · rintro ⟨buf, _, _, hbuf, -⟩
      exact ⟨buf, hbuf⟩
    · rintro ⟨buf, hbuf⟩
      exact ⟨buf, _, _, hbuf, rfl, rfl⟩

/-- A poll of the flush keeps the secrets and the bytes. -/
theorem pollFlush_keeps {p : Poll (Except (EncryptedError E) Unit)}
    (h : w.pollFlush aes env uses = some (p, w', uses')) :
    w'.secrets = w.secrets ∧ w'.buffer = w.buffer := by
  unfold pollFlush at h
  rcases hf : w.pollFut aes env.ready uses with _ | ⟨_ | _ | buf, v, u⟩
  · simp [hf] at h
  all_goals
    have hv : v.secrets = w.secrets ∧ v.buffer = w.buffer := by
      rcases pollFut_inv hf with ⟨-, fut, rfl, -⟩ | rfl <;> exact ⟨rfl, rfl⟩
    simp only [hf, Option.some.injEq, Prod.mk.injEq] at h
    obtain ⟨-, rfl, -⟩ := h
  · exact hv
  · exact hv
  · obtain ⟨hsecrets, hbuffer⟩ := offer_frame v env buf
    exact ⟨hsecrets.trans hv.1, hbuffer.trans hv.2⟩

/-- **What a poll of the flush leaves of the future**: one that is not ready still has what it found; behind a
ready one there is a new future if the bytes could be sealed and the inner writer has ended the flush, and
else none to poll. -/
theorem pollFlush_leaves {p : Poll (Except (EncryptedError E) Unit)}
    (hfound : w.flushFut.Found aes w.secrets found) (h : w.pollFlush aes env uses = some (p, w', uses')) :
    (env.ready = false ∧ w'.flushFut.Found aes w.secrets found) ∨
      (env.ready = true ∧ (∃ buf, sealed aes w.secrets (found.getD w.buffer.inner) = .ok buf) ∧
        env.ends = true ∧ w'.flushFut = .unpolled) ∨
      (env.ready = true ∧
        ¬((∃ buf, sealed aes w.secrets (found.getD w.buffer.inner) = .ok buf) ∧ env.ends = true) ∧
        w'.flushFut = .finished) := by
  unfold pollFlush at h
  rcases pollFut_found hfound env.ready uses with ⟨hready, fut, u, hkept, hpoll⟩ |
    ⟨hready, u, hpoll⟩
  · simp only [hpoll, Option.some.injEq, Prod.mk.injEq] at h
    obtain ⟨-, rfl, -⟩ := h
    exact Or.inl ⟨hready, hkept⟩
  · right
    rcases hs : sealed aes w.secrets (found.getD w.buffer.inner) with _ | buf
    · simp only [hpoll, hs, Option.some.injEq, Prod.mk.injEq] at h
      obtain ⟨-, rfl, -⟩ := h
      refine Or.inr ⟨hready, ?_, rfl⟩
      rintro ⟨⟨buf, hbuf⟩, -⟩
      cases hbuf
    · simp only [hpoll, hs, Option.some.injEq, Prod.mk.injEq] at h
      obtain ⟨-, rfl, -⟩ := h
      have hfut := offer_flushFut { w with flushFut := .finished } env buf
      by_cases hends : env.ends = true
      · rw [if_pos hends] at hfut
        exact Or.inl ⟨hready, ⟨buf, rfl⟩, hends, hfut⟩
      · rw [if_neg hends] at hfut
        exact Or.inr ⟨hready, fun h => hends h.2, hfut⟩

end AsyncEncryptedWriter

/-! ## Runs -/

/-- Where a flush started: what had been written, and what the inner writer had accepted. -/
structure FlushStart where
  written : List UInt8
  received : List UInt8
  deriving DecidableEq

/-- A poll that found the future ready: the bytes that its encryption had found, and what the poll met. -/
structure ReadyPoll (E : Type) where
  message : List UInt8
  env : PollEnv E

/-- A writer, the bytes written to it, and the start of the flush that is under way; what the encryption of
its future has found, if it has run; and the polls so far that found a future ready. -/
structure AsyncSession (E : Type) where
  writer : AsyncEncryptedWriter
  written : List UInt8
  started : Option FlushStart
  found : Option (List UInt8)
  readied : List (ReadyPoll E)

namespace AsyncSession

/-- A session that begins. -/
def new (inner : List UInt8) (secrets : KeyNonce) : AsyncSession E :=
  { writer := .new inner secrets, written := [], started := none, found := none, readied := [] }

/-- The start of the flush that a poll belongs to. -/
def start (s : AsyncSession E) : FlushStart :=
  s.started.getD { written := s.written, received := s.writer.inner }

/-- The bytes of the future: those that its encryption has found, or would find now. -/
def message (s : AsyncSession E) : List UInt8 := s.found.getD s.written

/-- What is known of the session after a poll of the flush. -/
def polled (s : AsyncSession E) (env : PollEnv E) (p : Poll (Except (EncryptedError E) Unit))
    (w : AsyncEncryptedWriter) : AsyncSession E :=
  { s with
    writer := w
    started := if p = none then some s.start else none
    found := if env.ready then none else s.found
    readied := if env.ready then s.readied ++ [⟨s.message, env⟩] else s.readied }

/-- What is known of the session after a call. -/
def after (s : AsyncSession E) (call : AsyncCall E) (answer : AsyncAnswer E) (w : AsyncEncryptedWriter) :
    AsyncSession E :=
  match call, answer with
  | .pollWrite buf, .wrote (.ok _) => { s with writer := w, written := s.written ++ buf }
  | .pollFlush env, .flush p => s.polled env p w
  | .pollClose env, .close p _ => s.polled env p w
  | .encrypt, .encrypted => { s with writer := w, found := some s.written }
  | _, _ => { s with writer := w }

/-- A call on the writer of a session. -/
def next (aes : Aes) :
    AsyncSession E × Uses → AsyncCall E → Option (AsyncAnswer E × AsyncSession E × Uses)
  | (s, uses), call =>
      match AsyncEncryptedWriter.next aes (s.writer, uses) call with
      | none => none
      | some (answer, w, uses) => some (answer, s.after call answer w, uses)

end AsyncSession

/-- **`FlushSafe`** — the future is not polled after it returned `Ready`; and when `poll_flush` returns
`Ready(Ok(()))`, the inner writer has received, since that flush started, one ciphertext of the bytes
written before. -/
def FlushSafe (aes : Aes) (s : AsyncSession E × Uses) (l : AsyncCall E × AsyncAnswer E)
    (t : AsyncSession E × Uses) : Prop :=
  (l.1.polls.isSome → s.1.writer.flushFut ≠ .finished) ∧
    (l.2.flushed = some (.ok ()) → ∃ stored, t.1.writer.inner = s.1.start.received ++ stored ∧
      aes.Opens s.1.writer.secrets.key s.1.writer.secrets.nonce stored s.1.start.written)

/-- **`r.Ended aes secrets`** — at this poll the flush came to an end: the bytes could be sealed, and the inner
writer ended it. -/
def ReadyPoll.Ended (aes : Aes) (secrets : KeyNonce) (r : ReadyPoll E) : Prop :=
  (∃ buf, AsyncEncryptedWriter.sealed aes secrets r.message = .ok buf) ∧ r.env.ends = true

/-- **`PolledInTime`** — of the calls so far and what they met: a poll comes only when at every poll before that
found the future ready the flush came to an end; and where a poll finds the future ready, with bytes that can
be sealed, the inner writer does not accept nothing of the ciphertext and then flush. -/
def PolledInTime (aes : Aes) (s : AsyncSession E × Uses) (l : AsyncCall E × AsyncAnswer E)
    (_ : AsyncSession E × Uses) : Prop :=
  ∀ env, l.1.polls = some env → (∀ r ∈ s.1.readied, r.Ended aes s.1.writer.secrets) ∧
    ¬(env.ready = true ∧ (∃ buf, AsyncEncryptedWriter.sealed aes s.1.writer.secrets s.1.message = .ok buf) ∧
      env.write = some (.ok 0) ∧ env.flush = some (.ok ()))

/-- **`Unfed aes base s`** — the inner writer has nothing yet of what is sealed, while the future has not
returned; and that it has is told by the polls before: one of them has found it ready, and not come to an
end. -/
structure Unfed (aes : Aes) (base : List UInt8) (s : AsyncSession E × Uses) : Prop where
  inner : s.1.writer.flushFut ≠ .finished → s.1.writer.inner = base
  start : ∀ m, s.1.started = some m → m.received = base
  content : s.1.writer.buffer.inner = s.1.written
  live : (∀ r ∈ s.1.readied, r.Ended aes s.1.writer.secrets) →
    s.1.writer.flushFut.Found aes s.1.writer.secrets s.1.found
  spent : ¬(∀ r ∈ s.1.readied, r.Ended aes s.1.writer.secrets) → s.1.writer.flushFut = .finished

theorem unfed_new (inner : List UInt8) (secrets : KeyNonce) :
    Unfed aes inner ((.new inner secrets : AsyncSession E), uses) where
  inner _ := rfl
  start := nofun
  content := rfl
  live _ := Or.inl rfl
  spent h := (h nofun).elim

theorem Unfed.start_received {base : List UInt8} {s : AsyncSession E × Uses} (h : Unfed aes base s)
    (hf : s.1.writer.flushFut ≠ .finished) : s.1.start.received = base := by
  unfold AsyncSession.start
  cases hs : s.1.started with
  | none => exact h.inner hf
  | some m => exact h.start m hs

/-- The polls before a poll tell whether the future has returned. -/
theorem Unfed.live_iff {base : List UInt8} {s : AsyncSession E × Uses} (h : Unfed aes base s) :
    s.1.writer.flushFut ≠ .finished ↔ ∀ r ∈ s.1.readied, r.Ended aes s.1.writer.secrets :=
  ⟨fun hf => Classical.byContradiction fun hended => hf (h.spent hended), fun hended => (h.live hended).live⟩

section Steps

variable {base : List UInt8} {s t : AsyncSession E × Uses} {l : AsyncCall E × AsyncAnswer E}

/-- **A call that polls**: a misuse of the future, or one poll of the flush. -/
theorem polls_inv {env : PollEnv E} (h : Reacts (AsyncSession.next aes) s l t)
    (hp : l.1.polls = some env) :
    (s.1.writer.flushFut = .finished ∧ l.2.flushed = none ∧ t = s) ∨
      ∃ p w, s.1.writer.pollFlush aes env s.2 = some (p, w, t.2) ∧ l.2.flushed = p ∧
        t.1 = s.1.polled env p w := by
  obtain ⟨call, answer⟩ := l
  obtain ⟨session, uses⟩ := s
  have hpoll : ∀ {v : AsyncEncryptedWriter}, v.pollFlush aes env uses = none → v.flushFut = .finished :=
    AsyncEncryptedWriter.pollFlush_none.mp
  cases call with
  | pollWrite buf => cases hp
  | encrypt => cases hp
  | pollFlush env' | pollClose env' =>
      obtain rfl : env' = env := Option.some.inj hp
      rcases hf : session.writer.pollFlush aes env' uses with _ | ⟨p, w, uses'⟩
      · simp only [Reacts, AsyncSession.next, AsyncEncryptedWriter.next, hf, Option.some.injEq,
          Prod.mk.injEq] at h
        obtain ⟨rfl, rfl⟩ := h
        exact Or.inl ⟨hpoll hf, rfl, rfl⟩
      · simp only [Reacts, AsyncSession.next, AsyncEncryptedWriter.next, hf, Option.some.injEq,
          Prod.mk.injEq] at h
        obtain ⟨rfl, rfl⟩ := h
        exact Or.inr ⟨p, w, rfl, rfl, rfl⟩

/-- Every other call leaves the inner writer and the start of the flush alone: it writes, or the encryption
runs, and finds what has been written. -/
theorem other_inv (h : Reacts (AsyncSession.next aes) s l t) (hp : l.1.polls = none) :
    l.2.flushed = none ∧
      ((∃ buf buffer, s.1.writer.buffer.extendFromSlice buf = .ok buffer ∧
          t.1 = { s.1 with writer := { s.1.writer with buffer }, written := s.1.written ++ buf }) ∨
        t.1 = s.1 ∨
        ((s.1.writer.flushFut = .unpolled ∨ s.1.writer.flushFut = .started) ∧
          t.1 = { s.1 with
            writer := { s.1.writer with
              flushFut := .done (AsyncEncryptedWriter.sealed aes s.1.writer.secrets s.1.writer.buffer.inner) }
            found := some s.1.written })) := by
  obtain ⟨call, answer⟩ := l
  obtain ⟨session, uses⟩ := s
  cases call with
  | pollFlush env => cases hp
  | pollClose env => cases hp
  | pollWrite buf =>
      rcases hb : session.writer.buffer.extendFromSlice buf with _ | buffer
      · simp only [Reacts, AsyncSession.next, AsyncEncryptedWriter.next, AsyncEncryptedWriter.pollWrite,
          hb, Option.some.injEq, Prod.mk.injEq] at h
        obtain ⟨rfl, rfl⟩ := h
        exact ⟨rfl, Or.inr (Or.inl rfl)⟩
      · simp only [Reacts, AsyncSession.next, AsyncEncryptedWriter.next, AsyncEncryptedWriter.pollWrite,
          hb, Option.some.injEq, Prod.mk.injEq] at h
        obtain ⟨rfl, rfl⟩ := h
        exact ⟨rfl, Or.inl ⟨buf, buffer, hb, rfl⟩⟩
  | encrypt =>
      have hruns := AsyncEncryptedWriter.encryptBlocking_fst aes session.writer uses
      rcases hb : session.writer.encryptBlocking aes uses with ⟨res, u⟩
      rw [hb] at hruns
      obtain rfl : res = _ := hruns
      cases hf : session.writer.flushFut with
      | unpolled | started =>
          simp only [Reacts, AsyncSession.next, AsyncEncryptedWriter.next, hf, hb, Option.some.injEq,
            Prod.mk.injEq] at h
          obtain ⟨rfl, rfl⟩ := h
          exact ⟨rfl, Or.inr (Or.inr ⟨by simp, rfl⟩)⟩
      | done res | finished => simp [Reacts, AsyncSession.next, AsyncEncryptedWriter.next, hf] at h

/-- A call that does not poll. -/
theorem Unfed.other (h : Unfed aes base s) (hs : Reacts (AsyncSession.next aes) s l t)
    (hp : l.1.polls = none) : Unfed aes base t := by
  rcases (other_inv hs hp).2 with ⟨buf, buffer, hb, ht⟩ | ht | ⟨hf, ht⟩
  · refine ⟨?_, ?_, ?_, ?_, ?_⟩
    all_goals rw [ht]
    · exact h.inner
    · exact h.start
    · show buffer.inner = s.1.written ++ buf
      rw [SecretVecBuffer.extendFromSlice_ok hb, h.content]
    · exact h.live
    · exact h.spent
  · refine ⟨?_, ?_, ?_, ?_, ?_⟩
    all_goals rw [ht]
    · exact h.inner
    · exact h.start
    · exact h.content
    · exact h.live
    · exact h.spent
  · have hlive : s.1.writer.flushFut ≠ .finished := by
      rcases hf with hf | hf <;> rw [hf] <;> nofun
    refine ⟨?_, ?_, ?_, ?_, ?_⟩
    all_goals rw [ht]
    · exact fun _ => h.inner hlive
    · exact h.start
    · exact h.content
    · intro _
      show FlushFut.done _ = FlushFut.done _
      rw [h.content]
    · exact fun hended => (hlive (h.spent hended)).elim

/-- **The step lemma.** -/
theorem Unfed.step (h : Unfed aes base s) (hs : Reacts (AsyncSession.next aes) s l t)
    (hc : PolledInTime aes s l t) : Unfed aes base t := by
  cases hp : l.1.polls with
  | none => exact h.other hs hp
  | some env =>
      have hended := (hc env hp).1
      have hfound := h.live hended
      rcases polls_inv hs hp with ⟨hfin, -⟩ | ⟨p, w, hpoll, -, hafter⟩
      · exact absurd hfin hfound.live
      · obtain ⟨hsecrets, hbuffer⟩ := AsyncEncryptedWriter.pollFlush_keeps hpoll
        have hstart := h.start_received hfound.live
        have hinner : w.flushFut ≠ .finished → w.inner = base := by
          intro hf
          -- only the poll that ends the future feeds the inner writer
          rcases AsyncEncryptedWriter.pollFlush_inner hpoll with hsame | ⟨-, hfin⟩
          · exact hsame.trans (h.inner hfound.live)
          · exact absurd hfin hf
        have hmessage : s.1.found.getD s.1.writer.buffer.inner = s.1.message := by
          rw [h.content]
          rfl
        have hstarted : ∀ m, (s.1.polled env p w).started = some m → m.received = base := by
          intro m hm
          change (if p = none then some s.1.start else none) = some m at hm
          by_cases hnone : p = none
          · rw [if_pos hnone] at hm
            exact Option.some.inj hm ▸ hstart
          · rw [if_neg hnone] at hm
            cases hm
        have hcontent : (s.1.polled env p w).writer.buffer.inner = (s.1.polled env p w).written := by
          show w.buffer.inner = s.1.written
          rw [hbuffer]
          exact h.content
        -- the list of polls grows by this one if it found the future ready
        have hall : (∀ r ∈ (s.1.polled env p w).readied, r.Ended aes (s.1.polled env p w).writer.secrets) ↔
            (env.ready = true → ReadyPoll.Ended aes s.1.writer.secrets ⟨s.1.message, env⟩) := by
          show (∀ r ∈ (if env.ready then s.1.readied ++ [⟨s.1.message, env⟩] else s.1.readied),
            r.Ended aes w.secrets) ↔ _
          rw [hsecrets]
          by_cases hready : env.ready = true
          · rw [if_pos hready]
            refine ⟨fun hr _ => hr _ (List.mem_append_right _ List.mem_cons_self), fun hr r hmem => ?_⟩
            rcases List.mem_append.mp hmem with hmem | hmem
            · exact hended r hmem
            · obtain rfl := List.mem_singleton.mp hmem
              exact hr hready
          · rw [if_neg hready]
            exact ⟨fun _ hr => absurd hr hready, fun _ => hended⟩
        have hleaves := AsyncEncryptedWriter.pollFlush_leaves hfound hpoll
        rw [hmessage] at hleaves
        refine ⟨?_, ?_, ?_, ?_, ?_⟩
        all_goals rw [hafter]
        · exact hinner
        · exact hstarted
        · exact hcontent
        · intro hr
          show w.flushFut.Found aes w.secrets (if env.ready then none else s.1.found)
          rw [hsecrets]
          rcases hleaves with ⟨hready, hkept⟩ | ⟨hready, -, -, hnew⟩ | ⟨hready, hnot, -⟩
          · rw [hready]
            exact hkept
          · rw [hready]
            exact Or.inl hnew
          · exact absurd (hall.mp hr hready) hnot
        · intro hr
          rcases hleaves with ⟨hready, -⟩ | ⟨hready, hsealed, hends, -⟩ | ⟨-, -, hfin⟩
          · exact (hr (hall.mpr fun h => by rw [hready] at h; cases h)).elim
          · exact (hr (hall.mpr fun _ => ⟨hsealed, hends⟩)).elim
          · exact hfin

/-- In such a state, a step is safe exactly when its poll comes in time. -/
theorem Unfed.safe_iff (htag : aes.tagSize = 16) (h : Unfed aes base s)
    (hs : Reacts (AsyncSession.next aes) s l t) :
    FlushSafe aes s l t ↔ PolledInTime aes s l t := by
  cases hp : l.1.polls with
  | none =>
      obtain ⟨hflushed, -⟩ := other_inv hs hp
      refine ⟨fun _ env henv => ?_, fun _ => ⟨fun hsome => ?_, fun hok => ?_⟩⟩
      · rw [hp] at henv
        cases henv
      · rw [hp] at hsome
        cases hsome
      · rw [hflushed] at hok
        cases hok
  | some env =>
      rcases polls_inv hs hp with ⟨hfin, -⟩ | ⟨p, w, hpoll, hflushed, hafter⟩
      · refine ⟨fun hq => absurd hfin (hq.1 (by rw [hp]; rfl)), fun hc => ?_⟩
        exact absurd hfin (h.live_iff.mpr (hc env hp).1)
      · have hnot : s.1.writer.flushFut ≠ .finished := fun hfin => by
          rw [AsyncEncryptedWriter.pollFlush_none.mpr hfin] at hpoll
          cases hpoll
        have hended := h.live_iff.mp hnot
        -- the flush that returns `Ready(Ok(()))` has fed the inner writer nothing
        have hok : p = some (.ok ()) → ¬FlushSafe aes s l t := by
          rintro rfl ⟨-, hq⟩
          obtain ⟨stored, hstored, hopens⟩ := hq hflushed
          have hlen := hopens.length_le
          rw [hafter, h.start_received hnot] at hstored
          rcases AsyncEncryptedWriter.pollFlush_inner hpoll with hsame | ⟨hnone, -⟩
          · have hnil : stored = [] := by
              change w.inner = base ++ stored at hstored
              rw [hsame, h.inner hnot] at hstored
              exact List.self_eq_append_right.mp hstored
            rw [hnil, htag] at hlen
            cases hlen
          · cases hnone
        have hyields : s.1.writer.Yields aes env.ready s.2 ↔ env.ready = true ∧
            ∃ buf, AsyncEncryptedWriter.sealed aes s.1.writer.secrets s.1.message = .ok buf := by
          rw [AsyncEncryptedWriter.yields_iff (h.live hended), h.content]
          rfl
        have hiff : p = some (.ok ()) ↔ env.ready = true ∧
            (∃ buf, AsyncEncryptedWriter.sealed aes s.1.writer.secrets s.1.message = .ok buf) ∧
            env.write = some (.ok 0) ∧ env.flush = some (.ok ()) := by
          rw [← and_assoc, ← hyields, ← AsyncEncryptedWriter.pollFlush_ok, hpoll]
          exact ⟨fun hp => ⟨w, t.2, by rw [hp]⟩, fun ⟨w', u, hw⟩ => (Prod.mk.inj (Option.some.inj hw)).1⟩
        constructor
        · intro hq env' henv'
          obtain rfl : env = env' := Option.some.inj (hp.symm.trans henv')
          exact ⟨hended, fun hbad => hok (hiff.mpr hbad) hq⟩
        · intro hc
          refine ⟨fun _ => hnot, fun hready => absurd (hiff.mp ?_) (hc env hp).2⟩
          exact hflushed.symm.trans hready

end Steps

/-- **The exact condition of an asynchronous flush.**  Over any calls on a new writer, any answers of the
inner writer and any time at which the future's call runs: every step is safe exactly when every poll
comes in time. -/
theorem async_flush_exact (htag : aes.tagSize = 16) (inner : List UInt8) (secrets : KeyNonce)
    {tr : List ((AsyncCall E × AsyncAnswer E) × AsyncSession E × Uses)}
    (htr : IsTrace (Reacts (AsyncSession.next aes)) (.new inner secrets, uses) tr) :
    StepsMeet (FlushSafe aes) (.new inner secrets, uses) tr ↔
      StepsMeet (PolledInTime aes) (.new inner secrets, uses) tr :=
  stepsMeet_iff (fun _ _ _ h hs hc => h.step hs hc) (fun _ _ _ h hs => h.safe_iff htag hs)
    (unfed_new inner secrets) htr

/-! ### A block, flushed asynchronously -/

/-- The future is not ready. -/
def notReady : PollEnv Unit := { ready := false, write := none, flush := none, close := none }

/-- The future is ready, and the inner writer answers so. -/
def readyWith (write : Except (WriteFault Unit) Nat) : PollEnv Unit :=
  { ready := true, write := some write, flush := none, close := none }

/-- A new session. -/
def zeroSession : AsyncSession Unit × Uses := (.new [] zeroSecrets, [])

/-- A block is written, and flushed until the inner writer has accepted the whole ciphertext; then the
flush is polled once more. -/
def polledAgain : List ((AsyncCall Unit × AsyncAnswer Unit) × AsyncSession Unit × Uses) :=
  react (AsyncSession.next vectorAes) zeroSession
    [.pollWrite zeroBlock.flatten, .pollFlush notReady, .encrypt, .pollFlush (readyWith (.ok 32)),
      .pollFlush notReady]

/-- The ciphertext has arrived, and the last poll is one of the future that gave it. -/
theorem polledAgain_misused :
    polledAgain.map (·.1.2) =
        [.wrote (.ok 16), .flush none, .encrypted, .flush none, .misused] ∧
      (last zeroSession polledAgain).1.writer.inner = zeroBlockSealed ∧
      ¬StepsMeet (FlushSafe vectorAes) zeroSession polledAgain := by
  refine ⟨rfl, by decide, fun h => ?_⟩
  have hsafe := h.2.2.2.2.1.1 rfl
  exact hsafe rfl

/-- The same block, and an inner writer that fails. -/
def flushFailing : List ((AsyncCall Unit × AsyncAnswer Unit) × AsyncSession Unit × Uses) :=
  react (AsyncSession.next vectorAes) zeroSession
    [.pollWrite zeroBlock.flatten, .pollFlush notReady, .encrypt,
      .pollFlush (readyWith (.error (.other ()))), .pollClose notReady]

theorem async_flush_exact_failing :
    StepsMeet (FlushSafe vectorAes) zeroSession flushFailing := by
  refine (async_flush_exact rfl [] zeroSecrets (isTrace_react _ _ _)).mpr ?_
  refine ⟨nofun, ?_, nofun, ?_, ?_, trivial⟩
  · rintro env ⟨⟩
    exact ⟨nofun, nofun⟩
  · rintro env ⟨⟩
    exact ⟨nofun, nofun⟩
  · rintro env ⟨⟩
    refine ⟨fun r hr => ?_, nofun⟩
    obtain rfl := List.mem_singleton.mp hr
    exact ⟨⟨zeroBlockSealed, rfl⟩, rfl⟩

end BackedData.Disks
