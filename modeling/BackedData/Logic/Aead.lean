/-
# BackedData.Logic.Aead — authenticated encryption in place, on a buffer that grows and shrinks

A cipher seals a message under a key and a nonce into a ciphertext of the same length and a tag.  The
in-place calls work on any `Buffer`: sealing appends the tag, opening checks the last bytes as the tag,
decrypts the rest where it stands, and asks the buffer to cut the tag off.  `encryptInPlace` also keeps
the record of what was sealed under which key and nonce.

What is asked of a buffer comes in two parts: that it grows (`Growing`), which sealing needs, and what
its `truncate` does, which only opening needs and which the rules therefore leave open.
-/
import Mathlib.Data.List.Basic

namespace Logic.Aead

set_option autoImplicit false

variable {K N β : Type}

/-! ## Buffers -/

/-- **`Buffer β`** — `setBytes` is what a write through the mutable slice leaves. -/
class Buffer (β : Type) where
  bytes : β → List UInt8
  setBytes : β → List UInt8 → β
  extendFromSlice : β → List UInt8 → Except Unit β
  truncate : β → Nat → β

/-- **`Growing β`** — the buffer holds what is written into it and what it is extended by. -/
class Growing (β : Type) [Buffer β] : Prop where
  bytes_setBytes : ∀ (b : β) (xs : List UInt8), Buffer.bytes (Buffer.setBytes b xs) = xs
  bytes_extend : ∀ (b b' : β) (xs : List UInt8), Buffer.extendFromSlice b xs = .ok b' →
    Buffer.bytes b' = Buffer.bytes b ++ xs

/-! ## The cipher -/

/-- **`Cipher K N`** — what is sealed, and what is opened; `none` where the call fails. -/
structure Cipher (K N : Type) where
  tagSize : Nat
  encryptDetached : K → N → List UInt8 → Option (List UInt8 × List UInt8)
  decryptDetached : K → N → List UInt8 → List UInt8 → Option (List UInt8)

/-- **`Lawful cipher`** — sealing keeps the length and adds a tag, and what was sealed opens again. -/
structure Lawful (cipher : Cipher K N) : Prop where
  length : ∀ k n msg ct tag, cipher.encryptDetached k n msg = some (ct, tag) →
    ct.length = msg.length ∧ tag.length = cipher.tagSize
  decrypt : ∀ k n msg ct tag, cipher.encryptDetached k n msg = some (ct, tag) →
    cipher.decryptDetached k n ct tag = some msg

/-- A message that was sealed, with its key and its nonce. -/
structure Use (K N : Type) where
  key : K
  nonce : N
  msg : List UInt8
  deriving DecidableEq, Repr

namespace Cipher

variable (cipher : Cipher K N)

/-- Seal the content of a buffer, and append the tag. -/
def encryptInPlace [Buffer β] (k : K) (n : N) (b : β) (uses : List (Use K N)) :
    Except Unit β × List (Use K N) :=
  match cipher.encryptDetached k n (Buffer.bytes b) with
  | none => (.error (), uses)
  | some (ct, tag) =>
      (Buffer.extendFromSlice (Buffer.setBytes b ct) tag, uses ++ [⟨k, n, Buffer.bytes b⟩])

/-- The record of sealing a message, if it can be sealed. -/
def recorded (k : K) (n : N) (msg : List UInt8) : List (Use K N) :=
  if (cipher.encryptDetached k n msg).isSome then [⟨k, n, msg⟩] else []

/-- Open the content of a buffer: the last bytes are the tag. -/
def decryptInPlace [Buffer β] (k : K) (n : N) (b : β) : Except Unit β :=
  let stored := Buffer.bytes b
  if stored.length < cipher.tagSize then .error ()
  else
    let tagPos := stored.length - cipher.tagSize
    let tag := stored.drop tagPos
    match cipher.decryptDetached k n (stored.take tagPos) tag with
    | none => .error ()
    | some msg => .ok (Buffer.truncate (Buffer.setBytes b (msg ++ tag)) tagPos)

/-- **`Opens k n stored msg`** — these bytes are one ciphertext, of that message. -/
def Opens (k : K) (n : N) (stored msg : List UInt8) : Prop :=
  ∃ ct tag, stored = ct ++ tag ∧ tag.length = cipher.tagSize ∧
    cipher.decryptDetached k n ct tag = some msg

variable {cipher} {k : K} {n : N} {msg : List UInt8} {b b' : β} {uses uses' : List (Use K N)}

/-- What was sealed is recorded. -/
theorem encryptInPlace_uses [Buffer β] :
    (cipher.encryptInPlace k n b uses).2 = uses ++ cipher.recorded k n (Buffer.bytes b) := by
  unfold encryptInPlace recorded
  rcases cipher.encryptDetached k n (Buffer.bytes b) with _ | ⟨ct, tag⟩
  · exact (List.append_nil _).symm
  · rfl

/-- The record of sealing several messages under one key and one nonce. -/
theorem flatMap_recorded (msgs : List (List UInt8)) :
    msgs.flatMap (cipher.recorded k n) =
      (msgs.filter fun m => (cipher.encryptDetached k n m).isSome).map fun m => ⟨k, n, m⟩ := by
  induction msgs with
  | nil => rfl
  | cons m msgs ih =>
      rw [List.flatMap_cons, ih, List.filter_cons, recorded]
      split
      next => rfl
      next => rfl

/-- **What sealing leaves in the buffer**: the ciphertext, and behind it the tag. -/
theorem encryptInPlace_ok [Buffer β] [Growing β]
    (h : cipher.encryptInPlace k n b uses = (.ok b', uses')) :
    ∃ ct tag, cipher.encryptDetached k n (Buffer.bytes b) = some (ct, tag) ∧
      Buffer.bytes b' = ct ++ tag := by
  unfold encryptInPlace at h
  rcases he : cipher.encryptDetached k n (Buffer.bytes b) with _ | ⟨ct, tag⟩
  · simp only [he] at h
    cases h
  · simp only [he] at h
    have hext := Growing.bytes_extend _ b' tag (Prod.mk.inj h).1
    rw [Growing.bytes_setBytes] at hext
    exact ⟨ct, tag, rfl, hext⟩

/-- **What opening leaves in the buffer**: the message with the tag still behind it, cut by the buffer's
own `truncate`. -/
theorem decryptInPlace_ok [Buffer β] (hlaw : Lawful cipher) {ct tag : List UInt8}
    (hseal : cipher.encryptDetached k n msg = some (ct, tag)) (hb : Buffer.bytes b = ct ++ tag) :
    cipher.decryptInPlace k n b =
      .ok (Buffer.truncate (Buffer.setBytes b (msg ++ tag)) msg.length) := by
  obtain ⟨hct, htag⟩ := hlaw.length k n msg ct tag hseal
  have hlen : (ct ++ tag).length - cipher.tagSize = ct.length := by
    rw [List.length_append, htag, Nat.add_sub_cancel]
  have hlong : ¬(ct ++ tag).length < cipher.tagSize := by
    rw [List.length_append]
    omega
  have htake : (ct ++ tag).take ct.length = ct := List.take_left
  have hdrop : (ct ++ tag).drop ct.length = tag := List.drop_left
  unfold decryptInPlace
  rw [hb]
  simp only [if_neg hlong, hlen, htake, hdrop, hlaw.decrypt k n msg ct tag hseal]
  rw [hct]

/-- What opens has the length of a tag, at least. -/
theorem Opens.length_le {stored : List UInt8} (h : cipher.Opens k n stored msg) :
    cipher.tagSize ≤ stored.length := by
  obtain ⟨ct, tag, rfl, htag, -⟩ := h
  rw [List.length_append, ← htag]
  exact Nat.le_add_left _ _

end Cipher

end Logic.Aead
