/-
# BackedData.Disks.Encrypted — a disk that seals what it is given before its inner disk sees it

`entry/disks/encrypted.rs`: the secrets beside the inner disk, the buffer in protected memory that the
cipher works on, the reader, the writer, and what the blocking calls of the async twin do.  The writer
keeps every byte written to it, and each flush seals all of them and hands the ciphertext to the inner
writer.

The cipher and the inner disk are parameters.  The inner disk is `RawDisk`: a disk value `D`, the handle
`H` it opens for writing, and the surroundings `S` that hold what is stored.
-/
import BackedData.Logic.Aead
import BackedData.Logic.Outcome

namespace BackedData.Disks

open Logic.Aead
open Logic.Outcome

set_option autoImplicit false

/-! ## Secrets and protected memory -/

/-- `[u8; 32]`. -/
abbrev Key : Type := Vector UInt8 32

/-- `[u8; 12]`. -/
abbrev Nonce : Type := Vector UInt8 12

/-- `KeyNonce`. -/
structure KeyNonce where
  key : Key
  nonce : Nonce
  deriving DecidableEq, Repr

/-- `SecretVecBuffer`; of the two handles only whether they are set. -/
structure SecretVecBuffer where
  inner : List UInt8
  refHandle : Bool
  mutHandle : Bool
  deriving DecidableEq, Repr

namespace SecretVecBuffer

/-- `From<SecretVec<u8>>`. -/
def ofVec (value : List UInt8) : SecretVecBuffer :=
  { inner := value, refHandle := false, mutHandle := false }

/-- `Default::default`. -/
def empty : SecretVecBuffer := ofVec []

/-- `AsMut::as_mut`, and a write through the slice. -/
def asMut (self : SecretVecBuffer) (bytes : List UInt8) : SecretVecBuffer :=
  { self with inner := bytes, mutHandle := true }

/-- `Buffer::extend_from_slice`: a new allocation, of the exact length. -/
def extendFromSlice (self : SecretVecBuffer) (other : List UInt8) : Except Unit SecretVecBuffer :=
  match usizeAdd self.inner.length other.length with
  | .error _ => .error ()
  | .ok _ => .ok (ofVec (self.inner ++ other))

/-- `Buffer::truncate`, which takes the allocation to be at the exact length already. -/
def truncate (self : SecretVecBuffer) (_len : Nat) : SecretVecBuffer :=
  { self with refHandle := false, mutHandle := false }

instance : Buffer SecretVecBuffer where
  bytes := inner
  setBytes := asMut
  extendFromSlice := extendFromSlice
  truncate := truncate

theorem extendFromSlice_ok {self b : SecretVecBuffer} {other : List UInt8}
    (h : self.extendFromSlice other = .ok b) : b.inner = self.inner ++ other := by
  unfold extendFromSlice at h
  split at h
  · cases h
  · cases h
    rfl

instance : Growing SecretVecBuffer where
  bytes_setBytes _ _ := rfl
  bytes_extend _ _ _ h := extendFromSlice_ok h

end SecretVecBuffer

/-- `SecretReadVec`: a cursor on the buffer. -/
structure SecretReadVec where
  inner : List UInt8
  pos : Nat
  deriving DecidableEq, Repr

namespace SecretReadVec

/-- `From<SecretVecBuffer>`. -/
def ofBuffer (value : SecretVecBuffer) : SecretReadVec := { inner := value.inner, pos := 0 }

/-- `Read::read` into a buffer of this length. -/
def read (self : SecretReadVec) (len : Nat) : List UInt8 × SecretReadVec :=
  let got := (self.inner.drop self.pos).take len
  (got, { self with pos := self.pos + got.length })

/-- `Read::read_to_end`. -/
def readToEnd (self : SecretReadVec) : List UInt8 := (self.read self.inner.length).1

/-- A cursor at the start has everything before it. -/
theorem readToEnd_ofBuffer (b : SecretVecBuffer) : (ofBuffer b).readToEnd = b.inner :=
  List.take_length

end SecretReadVec

/-! ## The inner disk -/

/-- **`RawDisk D H S E`** — what a disk does with bytes: open for reading and read to the end, open for
writing, and on the handle `write_all`, `flush` and what happens when it is dropped. -/
structure RawDisk (D H S E : Type) where
  readToEnd : D → S → Except E (List UInt8) × D × S
  writeDisk : D → S → Except E H × D × S
  writeAll : List UInt8 → H → S → Except E Unit × H × S
  flush : H → S → Except E Unit × H × S
  drop : H → S → S

/-- The errors of an encrypted disk: those of the inner one, `ErrorKind::OutOfMemory` and
`ErrorKind::Other`. -/
inductive EncryptedError (E : Type) where
  | inner (e : E)
  | outOfMemory
  | other
  deriving DecidableEq, Repr

/-! ## The disk -/

/-- The messages sealed so far. -/
abbrev Uses : Type := List (Use Key Nonce)

/-- The cipher, `Aes256Gcm`. -/
abbrev Aes : Type := Cipher Key Nonce

/-- `Encrypted`. -/
structure Encrypted (D : Type) where
  inner : D
  secrets : KeyNonce
  deriving DecidableEq, Repr

/-- `EncryptedWriter`. -/
structure EncryptedWriter (H : Type) where
  inner : H
  secrets : KeyNonce
  buffer : SecretVecBuffer
  deriving DecidableEq, Repr

/-- `let mut aes = Aes256Gcm::new(key); aes.encrypt_in_place(nonce, &[], &mut buf)`, on a copy of the
buffer: what the sync and the async flush share. -/
def sealBuffer (aes : Aes) (secrets : KeyNonce) (buffer : SecretVecBuffer) (uses : Uses) :
    Except Unit (List UInt8) × Uses :=
  match aes.encryptInPlace secrets.key secrets.nonce (SecretVecBuffer.ofVec buffer.inner) uses with
  | (.error (), uses) => (.error (), uses)
  | (.ok buf, uses) => (.ok buf.inner, uses)

/-- The same for `decrypt_in_place`, on the bytes that were loaded. -/
def openLoaded (aes : Aes) (secrets : KeyNonce) (loaded : List UInt8) : Except Unit SecretVecBuffer :=
  aes.decryptInPlace secrets.key secrets.nonce (SecretVecBuffer.ofVec loaded)

namespace EncryptedWriter

variable {D H S E : Type}

/-- `EncryptedWriter::new`. -/
def new (inner : H) (secrets : KeyNonce) : EncryptedWriter H :=
  { inner, secrets, buffer := .empty }

/-- `Write::write`. -/
def write (self : EncryptedWriter H) (buf : List UInt8) :
    Except (EncryptedError E) Nat × EncryptedWriter H :=
  match self.buffer.extendFromSlice buf with
  | .error () => (.error .outOfMemory, self)
  | .ok buffer => (.ok buf.length, { self with buffer })

/-- `Write::flush`. -/
def flush (aes : Aes) (io : RawDisk D H S E) (self : EncryptedWriter H) (uses : Uses) (s : S) :
    Except (EncryptedError E) Unit × EncryptedWriter H × Uses × S :=
  match sealBuffer aes self.secrets self.buffer uses with
  | (.error (), uses) => (.error .other, self, uses, s)
  | (.ok buf, uses) =>
      match io.writeAll buf self.inner s with
      | (.error e, inner, s) => (.error (.inner e), { self with inner }, uses, s)
      | (.ok (), inner, s) => (.ok (), { self with inner }, uses, s)

end EncryptedWriter

namespace Encrypted

variable {D H S E : Type}

/-- `Encrypted::new`; `generated` is what `OsRng` gives for the secrets that are not provided. -/
def new (inner : D) (key : Option Key) (nonce : Option Nonce) (generated : KeyNonce) : Encrypted D :=
  { inner, secrets := { key := key.getD generated.key, nonce := nonce.getD generated.nonce } }

/-- `From<Plainfile>` and `From<PathBuf>`, on the inner disk: beware, random secrets. -/
def ofInner (inner : D) (generated : KeyNonce) : Encrypted D := new inner none none generated

/-- `set_key`. -/
def setKey (self : Encrypted D) (key : Key) : Encrypted D :=
  { self with secrets := { self.secrets with key } }

/-- `set_nonce`. -/
def setNonce (self : Encrypted D) (nonce : Nonce) : Encrypted D :=
  { self with secrets := { self.secrets with nonce } }

/-- `ReadDisk::read_disk`. -/
def readDisk (aes : Aes) (io : RawDisk D H S E) (self : Encrypted D) (s : S) :
    Except (EncryptedError E) SecretReadVec × Encrypted D × S :=
  match io.readToEnd self.inner s with
  | (.error e, inner, s) => (.error (.inner e), { self with inner }, s)
  | (.ok loaded, inner, s) =>
      match openLoaded aes self.secrets loaded with
      | .error () => (.error .other, { self with inner }, s)
      | .ok decrypted => (.ok (.ofBuffer decrypted), { self with inner }, s)

/-- `WriteDisk::write_disk`. -/
def writeDisk (io : RawDisk D H S E) (self : Encrypted D) (s : S) :
    Except (EncryptedError E) (EncryptedWriter H) × Encrypted D × S :=
  match io.writeDisk self.inner s with
  | (.error e, inner, s) => (.error (.inner e), { self with inner }, s)
  | (.ok h, inner, s) => (.ok (.new h self.secrets), { self with inner }, s)

end Encrypted

end BackedData.Disks
