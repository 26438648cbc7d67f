/-
# BackedData.Disks.EncryptedStore — what an encrypted disk has stored, and what it reads back

Two results on whole sessions of an `EncryptedWriter`.

* `roundTrip_never`: with the ciphertext stored in full, `read_disk` returns the bytes that were written
  and, behind them, the tag that `truncate` should have cut off.
* `flush_never`: on an inner writer that commits its bytes when it is flushed, a flush has committed
  nothing, because it ends with `write_all`.

Both hold of every session, whatever the cipher makes of its messages.
-/
import BackedData.Disks.Encrypted
import BackedData.Logic.Trace

namespace BackedData.Disks

open Logic.Aead
open Logic.Trace

set_option autoImplicit false

variable {D H S E : Type} {aes : Aes} {io : RawDisk D H S E} {uses uses' : Uses} {s s' : S}

/-! ## One flush -/

/-- What is sealed is the buffer, under the secrets. -/
theorem sealBuffer_ok {secrets : KeyNonce} {buffer : SecretVecBuffer} {stored : List UInt8}
    (h : sealBuffer aes secrets buffer uses = (.ok stored, uses')) :
    ∃ ct tag, aes.encryptDetached secrets.key secrets.nonce buffer.inner = some (ct, tag) ∧
      stored = ct ++ tag := by
  unfold sealBuffer at h
  rcases he : aes.encryptInPlace secrets.key secrets.nonce (SecretVecBuffer.ofVec buffer.inner) uses
    with ⟨_ | buf, u⟩
  · simp only [he] at h
    cases h
  · simp only [he] at h
    cases h
    exact Cipher.encryptInPlace_ok he

/-- A flush that succeeded handed one ciphertext, of the whole buffer, to `write_all`. -/
theorem EncryptedWriter.flush_ok {w w' : EncryptedWriter H}
    (h : w.flush aes io uses s = (.ok (), w', uses', s')) :
    ∃ ct tag inner,
      aes.encryptDetached w.secrets.key w.secrets.nonce w.buffer.inner = some (ct, tag) ∧
      io.writeAll (ct ++ tag) w.inner s = (.ok (), inner, s') ∧ w' = { w with inner } := by
  unfold EncryptedWriter.flush at h
  rcases hs : sealBuffer aes w.secrets w.buffer uses with ⟨_ | stored, u⟩
  · simp only [hs] at h
    cases h
  · obtain ⟨ct, tag, hseal, rfl⟩ := sealBuffer_ok hs
    simp only [hs] at h
    rcases hw : io.writeAll (ct ++ tag) w.inner s with ⟨_ | _, inner, s1⟩
    · simp only [hw] at h
      cases h
    · simp only [hw] at h
      cases h
      exact ⟨ct, tag, inner, hseal, hw, rfl⟩

theorem EncryptedWriter.write_ok {w w' : EncryptedWriter H} {buf : List UInt8} {n : Nat}
    (h : (w.write buf : Except (EncryptedError E) Nat × EncryptedWriter H) = (.ok n, w')) :
    w'.buffer.inner = w.buffer.inner ++ buf ∧ w'.inner = w.inner ∧ w'.secrets = w.secrets := by
  unfold EncryptedWriter.write at h
  rcases hb : w.buffer.extendFromSlice buf with _ | buffer
  · simp only [hb] at h
    cases h
  · simp only [hb] at h
    cases h
    exact ⟨SecretVecBuffer.extendFromSlice_ok hb, rfl, rfl⟩

/-! ## Writing once, and reading -/

/-- Write several buffers. -/
def EncryptedWriter.writeEach (self : EncryptedWriter H) :
    List (List UInt8) → Except (EncryptedError E) Unit × EncryptedWriter H
  | [] => (.ok (), self)
  | buf :: bufs =>
      match self.write buf with
      | (.error e, self) => (.error e, self)
      | (.ok _, self) => self.writeEach bufs

/-- Open for writing, write several buffers, flush once, and drop the writer. -/
def Encrypted.store (aes : Aes) (io : RawDisk D H S E) (self : Encrypted D) (bufs : List (List UInt8))
    (uses : Uses) (s : S) : Except (EncryptedError E) Unit × Encrypted D × Uses × S :=
  match self.writeDisk io s with
  | (.error e, self, s) => (.error e, self, uses, s)
  | (.ok w, self, s) =>
      match w.writeEach bufs with
      | (.error e, w) => (.error e, self, uses, io.drop w.inner s)
      | (.ok (), w) =>
          match w.flush aes io uses s with
          | (r, w, uses, s) => (r, self, uses, io.drop w.inner s)

/-- **`StoresInFull io`** — what is handed to `write_all` after opening is what is read to the end, once
the handle is dropped. -/
def StoresInFull (io : RawDisk D H S E) : Prop :=
  ∀ d s h d₁ s₁ bytes h₁ s₂ loaded d₂ s₃, io.writeDisk d s = (.ok h, d₁, s₁) →
    io.writeAll bytes h s₁ = (.ok (), h₁, s₂) →
    io.readToEnd d₁ (io.drop h₁ s₂) = (.ok loaded, d₂, s₃) → loaded = bytes

theorem EncryptedWriter.writeEach_ok {w w' : EncryptedWriter H} {bufs : List (List UInt8)}
    (h : (w.writeEach bufs : Except (EncryptedError E) Unit × EncryptedWriter H) = (.ok (), w')) :
    w'.buffer.inner = w.buffer.inner ++ bufs.flatten ∧ w'.inner = w.inner ∧
      w'.secrets = w.secrets := by
  induction bufs generalizing w with
  | nil =>
      cases h
      exact ⟨(List.append_nil _).symm, rfl, rfl⟩
  | cons buf bufs ih =>
      unfold EncryptedWriter.writeEach at h
      rcases hw : (w.write buf : Except (EncryptedError E) Nat × EncryptedWriter H) with ⟨_ | n, v⟩
      · simp only [hw] at h
        cases h
      · simp only [hw] at h
        obtain ⟨hbuf, hin, hsec⟩ := EncryptedWriter.write_ok hw
        obtain ⟨hbufs, hins, hsecs⟩ := ih h
        refine ⟨?_, hins.trans hin, hsecs.trans hsec⟩
        rw [hbufs, hbuf, List.flatten_cons, List.append_assoc]

/-- What a session has handed to the inner disk: one ciphertext of all the bytes. -/
theorem Encrypted.store_ok {disk disk' : Encrypted D} {bufs : List (List UInt8)}
    (h : disk.store aes io bufs uses s = (.ok (), disk', uses', s')) :
    ∃ ct tag hd s₁ h₁ s₂,
      aes.encryptDetached disk.secrets.key disk.secrets.nonce bufs.flatten = some (ct, tag) ∧
      io.writeDisk disk.inner s = (.ok hd, disk'.inner, s₁) ∧
      io.writeAll (ct ++ tag) hd s₁ = (.ok (), h₁, s₂) ∧ s' = io.drop h₁ s₂ ∧
      disk'.secrets = disk.secrets := by
  unfold Encrypted.store Encrypted.writeDisk at h
  rcases ho : io.writeDisk disk.inner s with ⟨_ | hd, inner, s₁⟩
  · simp only [ho] at h
    cases h
  · simp only [ho] at h
    rcases hw : ((EncryptedWriter.new hd disk.secrets).writeEach bufs :
      Except (EncryptedError E) Unit × EncryptedWriter H) with ⟨_ | _, w⟩
    · simp only [hw] at h
      cases h
    · simp only [hw] at h
      obtain ⟨hbuf, hin, hsec⟩ := EncryptedWriter.writeEach_ok hw
      rcases hf : w.flush aes io uses s₁ with ⟨_ | _, w', u, s₂⟩
      · simp only [hf] at h
        cases h
      · simp only [hf] at h
        cases h
        obtain ⟨ct, tag, h₁, hseal, hall, rfl⟩ := EncryptedWriter.flush_ok hf
        rw [hsec, hbuf] at hseal
        rw [hin] at hall
        exact ⟨ct, tag, hd, s₁, h₁, s₂, hseal, rfl, hall, rfl, rfl⟩

/-- **The round trip through an encrypted disk returns too much.**  Whatever is written, in any pieces,
what is read back is the written bytes with the 16 bytes of the tag behind them. -/
theorem roundTrip_never (hlaw : Lawful aes) (htag : aes.tagSize = 16) (hio : StoresInFull io)
    {disk disk' : Encrypted D} {bufs : List (List UInt8)}
    (hstore : disk.store aes io bufs uses s = (.ok (), disk', uses', s')) :
    (∃ tag, tag.length = 16 ∧ ∀ r d t, disk'.readDisk aes io s' = (.ok r, d, t) →
      r.readToEnd = bufs.flatten ++ tag) ∧
      ¬∃ r d t, disk'.readDisk aes io s' = (.ok r, d, t) ∧ r.readToEnd = bufs.flatten := by
  obtain ⟨ct, tag, hd, s₁, h₁, s₂, hseal, hopen, hwrite, rfl, hsec⟩ := Encrypted.store_ok hstore
  have htaglen : tag.length = 16 := htag ▸ (hlaw.length _ _ _ _ _ hseal).2
  have hread : ∀ r d t, disk'.readDisk aes io (io.drop h₁ s₂) = (.ok r, d, t) →
      r.readToEnd = bufs.flatten ++ tag := by
    intro r d t h
    unfold Encrypted.readDisk at h
    rcases hl : io.readToEnd disk'.inner (io.drop h₁ s₂) with ⟨_ | loaded, d₂, s₃⟩
    · simp only [hl] at h
      cases h
    · obtain rfl := hio _ _ _ _ _ _ _ _ _ _ _ hopen hwrite hl
      -- the buffer holds the message and the tag, and `truncate` leaves both
      have hopened : openLoaded aes disk'.secrets (ct ++ tag) =
          .ok ((SecretVecBuffer.ofVec (ct ++ tag)).asMut (bufs.flatten ++ tag) |>.truncate
            bufs.flatten.length) := by
        rw [hsec]
        exact Cipher.decryptInPlace_ok hlaw hseal rfl
      simp only [hl, hopened] at h
      cases h
      exact SecretReadVec.readToEnd_ofBuffer _
  refine ⟨⟨tag, htaglen, hread⟩, ?_⟩
  rintro ⟨r, d, t, h, hr⟩
  have hlen := congrArg List.length ((hread r d t h).symm.trans hr)
  rw [List.length_append, htaglen] at hlen
  omega

/-! ### A stored block -/

/-- A file behind a buffer that is written out when it is flushed or dropped. -/
def bufferedFile : RawDisk Unit (List UInt8) (List UInt8) Unit where
  readToEnd _ file := (.ok file, (), file)
  writeDisk _ _ := (.ok [], (), [])
  writeAll bytes buffer file := (.ok (), buffer ++ bytes, file)
  flush buffer file := (.ok (), [], file ++ buffer)
  drop buffer file := file ++ buffer

/-- The zero key and the zero nonce. -/
def zeroSecrets : KeyNonce := { key := .replicate 32 0, nonce := .replicate 12 0 }

/-- The tag of the empty message under the zero secrets, as AES-256-GCM computes it. -/
def emptyTag : List UInt8 :=
  [0x53, 0x0f, 0x8a, 0xfb, 0xc7, 0x45, 0x36, 0xb9, 0xa9, 0x63, 0xb4, 0xf1, 0xc4, 0xcb, 0x73, 0x8b]

/-- The ciphertext of one block of zeros. -/
def blockCiphertext : List UInt8 :=
  [0xce, 0xa7, 0x40, 0x3d, 0x4d, 0x60, 0x6b, 0x6e, 0x07, 0x4e, 0xc5, 0xd3, 0xba, 0xf3, 0x9d, 0x18]

/-- The tag of one block of zeros. -/
def blockTag : List UInt8 :=
  [0xd0, 0xd1, 0xc8, 0xa7, 0x99, 0x99, 0x6b, 0xf0, 0x26, 0x5b, 0x98, 0xb5, 0xd4, 0x8a, 0xb9, 0x19]

/-- These two messages, with what they are sealed into. -/
def gcmVectors : List (List UInt8 × List UInt8 × List UInt8) :=
  [([], [], emptyTag), (List.replicate 16 0, blockCiphertext, blockTag)]

/-- The cipher on these messages, and on no others. -/
def vectorAes : Aes where
  tagSize := 16
  encryptDetached key nonce msg :=
    if key = zeroSecrets.key ∧ nonce = zeroSecrets.nonce then
      (gcmVectors.find? fun v => v.1 = msg).map (·.2)
    else none
  decryptDetached key nonce ct tag :=
    if key = zeroSecrets.key ∧ nonce = zeroSecrets.nonce then
      (gcmVectors.find? fun v => v.2 = (ct, tag)).map (·.1)
    else none

theorem vectorAes_lawful : Lawful vectorAes := by
  have hvector : ∀ {k n msg ct tag}, vectorAes.encryptDetached k n msg = some (ct, tag) →
      (k = zeroSecrets.key ∧ n = zeroSecrets.nonce) ∧ (msg, ct, tag) ∈ gcmVectors := by
    intro k n msg ct tag h
    by_cases hz : k = zeroSecrets.key ∧ n = zeroSecrets.nonce
    · simp only [vectorAes, if_pos hz] at h
      obtain ⟨v, hv, hct⟩ := Option.map_eq_some_iff.mp h
      have hmsg : v.1 = msg := by simpa using List.find?_some hv
      have hmem : v ∈ gcmVectors := List.mem_of_find?_eq_some hv
      refine ⟨hz, ?_⟩
      rw [← hmsg, ← hct]
      exact hmem
    · simp only [vectorAes, if_neg hz] at h
      cases h
  constructor
  · intro k n msg ct tag h
    have hall : ∀ v ∈ gcmVectors, v.2.1.length = v.1.length ∧ v.2.2.length = 16 := by decide
    exact hall _ (hvector h).2
  · intro k n msg ct tag h
    have hall : ∀ v ∈ gcmVectors, (gcmVectors.find? fun u => u.2 = v.2).map (·.1) = some v.1 := by
      decide
    obtain ⟨hz, hmem⟩ := hvector h
    simp only [vectorAes, if_pos hz]
    exact hall _ hmem

/-- A disk with these secrets. -/
def zeroDisk : Encrypted Unit := ⟨(), zeroSecrets⟩

/-- A block of zeros, in two pieces. -/
def zeroBlock : List (List UInt8) := [List.replicate 7 0, List.replicate 9 0]

/-- What is stored of it. -/
def zeroBlockSealed : List UInt8 := blockCiphertext ++ blockTag

/-- The block is read back with its tag. -/
theorem zeroBlock_readBack :
    zeroDisk.store vectorAes bufferedFile zeroBlock [] [] =
        (.ok (), zeroDisk, [⟨zeroSecrets.key, zeroSecrets.nonce, zeroBlock.flatten⟩], zeroBlockSealed) ∧
      ∃ r, zeroDisk.readDisk vectorAes bufferedFile zeroBlockSealed = (.ok r, zeroDisk, zeroBlockSealed) ∧
        r.readToEnd = zeroBlock.flatten ++ blockTag ∧ r.readToEnd ≠ zeroBlock.flatten := by
  refine ⟨rfl, _, rfl, ?_⟩
  decide

theorem bufferedFile_stores : StoresInFull bufferedFile := by
  intro d s h d₁ s₁ bytes h₁ s₂ loaded d₂ s₃ hopen hwrite hread
  cases hopen
  cases hwrite
  cases hread
  rfl

theorem roundTrip_never_zeroBlock :
    (∃ tag : List UInt8, tag.length = 16 ∧ ∀ r d t,
      zeroDisk.readDisk vectorAes bufferedFile zeroBlockSealed = (.ok r, d, t) →
        r.readToEnd = zeroBlock.flatten ++ tag) ∧
      ¬∃ r d t, zeroDisk.readDisk vectorAes bufferedFile zeroBlockSealed = (.ok r, d, t) ∧
        r.readToEnd = zeroBlock.flatten := by
  have hstore : zeroDisk.store vectorAes bufferedFile zeroBlock [] [] =
      (.ok (), zeroDisk, [⟨zeroSecrets.key, zeroSecrets.nonce, zeroBlock.flatten⟩],
        zeroBlockSealed) := rfl
  exact roundTrip_never vectorAes_lawful rfl bufferedFile_stores hstore

/-! ## A writer over a run of calls -/

/-- A call on the writer. -/
inductive WriterCall where
  | write (buf : List UInt8)
  | flush
  deriving DecidableEq, Repr

/-- Make a call, and say whether it succeeded. -/
def WriterCall.exec (aes : Aes) (io : RawDisk D H S E) :
    EncryptedWriter H × Uses × S → WriterCall →
      Option (Except (EncryptedError E) Unit × EncryptedWriter H × Uses × S)
  | (w, uses, s), .write buf =>
      match w.write buf with
      | (.error e, w) => some (.error e, w, uses, s)
      | (.ok _, w) => some (.ok (), w, uses, s)
  | (w, uses, s), .flush => some (w.flush aes io uses s)

/-- The bytes that the calls of a run have written. -/
def writtenBytes : List ((WriterCall × Except (EncryptedError E) Unit) ×
    EncryptedWriter H × Uses × S) → List UInt8
  | [] => []
  | ((.write buf, .ok ()), _) :: rest => buf ++ writtenBytes rest
  | _ :: rest => writtenBytes rest

/-- **`CommitsOnFlush io received committed`** — a writer may keep back what it received until it is
flushed, and this one does. -/
structure CommitsOnFlush (io : RawDisk D H S E) (received committed : H → S → List UInt8) : Prop where
  committed_le : ∀ h s, committed h s <+: received h s
  writeAll_ok : ∀ bytes h s h' s', io.writeAll bytes h s = (.ok (), h', s') →
    received h' s' = received h s ++ bytes
  writeAll_received : ∀ bytes h s r h' s', io.writeAll bytes h s = (r, h', s') →
    received h s <+: received h' s'
  writeAll_committed : ∀ bytes h s r h' s', io.writeAll bytes h s = (r, h', s') →
    committed h' s' = committed h s
  flush_ok : ∀ h s h' s', io.flush h s = (.ok (), h', s') →
    received h' s' = received h s ∧ committed h' s' = received h s

section Run

variable {received committed : H → S → List UInt8}

/-- The inner writer has been flushed after its last byte, and what it has committed is one ciphertext
of these bytes. -/
def FlushedThrough (aes : Aes) (received committed : H → S → List UInt8) (w : EncryptedWriter H) (s : S)
    (msg : List UInt8) : Prop :=
  committed w.inner s = received w.inner s ∧
    aes.Opens w.secrets.key w.secrets.nonce (committed w.inner s) msg

/-- What a call leaves alone: everything committed, and everything received. -/
def Uncommitted (received committed : H → S → List UInt8) (before after : EncryptedWriter H × Uses × S) :
    Prop :=
  committed after.1.inner after.2.2 = committed before.1.inner before.2.2 ∧
    received before.1.inner before.2.2 <+: received after.1.inner after.2.2

theorem Uncommitted.trans {a b c : EncryptedWriter H × Uses × S}
    (h : Uncommitted received committed a b) (h' : Uncommitted received committed b c) :
    Uncommitted received committed a c :=
  ⟨h'.1.trans h.1, h.2.trans h'.2⟩

theorem EncryptedWriter.flush_uncommitted (hio : CommitsOnFlush io received committed)
    {w w' : EncryptedWriter H} {r : Except (EncryptedError E) Unit}
    (h : w.flush aes io uses s = (r, w', uses', s')) :
    Uncommitted received committed (w, uses, s) (w', uses', s') := by
  unfold EncryptedWriter.flush at h
  rcases hs : sealBuffer aes w.secrets w.buffer uses with ⟨_ | stored, u⟩
  · simp only [hs] at h
    cases h
    exact ⟨rfl, List.prefix_rfl⟩
  · simp only [hs] at h
    rcases hw : io.writeAll stored w.inner s with ⟨_ | _, inner, s₁⟩
    · simp only [hw] at h
      cases h
      exact ⟨hio.writeAll_committed _ _ _ _ _ _ hw, hio.writeAll_received _ _ _ _ _ _ hw⟩
    · simp only [hw] at h
      cases h
      exact ⟨hio.writeAll_committed _ _ _ _ _ _ hw, hio.writeAll_received _ _ _ _ _ _ hw⟩

/-- **The step lemma**: no call on the writer flushes the inner writer. -/
theorem WriterCall.exec_uncommitted (hio : CommitsOnFlush io received committed) {call : WriterCall}
    {st st' : EncryptedWriter H × Uses × S} {r : Except (EncryptedError E) Unit}
    (h : WriterCall.exec aes io st call = some (r, st')) : Uncommitted received committed st st' := by
  obtain ⟨w, uses, s⟩ := st
  cases call with
  | write buf =>
      unfold WriterCall.exec EncryptedWriter.write at h
      rcases hb : w.buffer.extendFromSlice buf with _ | buffer
      · simp only [hb] at h
        cases h
        exact ⟨rfl, List.prefix_rfl⟩
      · simp only [hb] at h
        cases h
        exact ⟨rfl, List.prefix_rfl⟩
  | flush =>
      obtain ⟨w', uses', s'⟩ := st'
      exact EncryptedWriter.flush_uncommitted hio (Option.some.inj h)

/-- **The run lemma.** -/
theorem run_uncommitted (hio : CommitsOnFlush io received committed)
    {st : EncryptedWriter H × Uses × S}
    {tr : List ((WriterCall × Except (EncryptedError E) Unit) × EncryptedWriter H × Uses × S)}
    (htr : IsTrace (Reacts (WriterCall.exec aes io)) st tr) :
    Uncommitted received committed st (last st tr) := by
  have hinv := invariant (P := Uncommitted received committed st)
    (fun a l b h hs => h.trans (WriterCall.exec_uncommitted hio hs)) ⟨rfl, List.prefix_rfl⟩ htr
  exact hinv.last

/-- **No flush commits anything.**  After any calls on a new writer and a flush that returned `Ok(())`,
the inner writer has committed what it had committed at the start; it has not been flushed after its last
byte. -/
theorem flush_never (hlaw : Lawful aes) (htag : aes.tagSize = 16)
    (hio : CommitsOnFlush io received committed) (inner : H) (secrets : KeyNonce)
    {tr : List ((WriterCall × Except (EncryptedError E) Unit) × EncryptedWriter H × Uses × S)}
    (htr : IsTrace (Reacts (WriterCall.exec aes io)) (.new inner secrets, uses, s) tr)
    {w' : EncryptedWriter H}
    (hflush : WriterCall.exec aes io (last (.new inner secrets, uses, s) tr) .flush =
      some (.ok (), w', uses', s')) :
    committed w'.inner s' = committed inner s ∧
      ¬FlushedThrough aes received committed w' s' (writtenBytes tr) := by
  have hrun := run_uncommitted hio htr
  generalize last (EncryptedWriter.new inner secrets, uses, s) tr = st at hrun hflush
  obtain ⟨v, u, t⟩ := st
  have hstep := hrun.trans (WriterCall.exec_uncommitted hio hflush)
  refine ⟨hstep.1, ?_⟩
  rintro ⟨hsettled, -⟩
  obtain ⟨ct, tag, h, hseal, hwrite, rfl⟩ := EncryptedWriter.flush_ok (Option.some.inj hflush)
  -- the ciphertext has come to the bytes received, and not to the bytes committed
  have hlen : received h s' = received v.inner t ++ (ct ++ tag) := hio.writeAll_ok _ _ _ _ _ hwrite
  have hold : committed h s' = committed v.inner t := hio.writeAll_committed _ _ _ _ _ _ hwrite
  have hle := (hio.committed_le v.inner t).length_le
  have htaglen : tag.length = 16 := htag ▸ (hlaw.length _ _ _ _ _ hseal).2
  have heq := congrArg List.length (hold.symm.trans (hsettled.trans hlen))
  rw [List.length_append, List.length_append, htaglen] at heq
  omega

end Run

/-! ### A flushed block -/

theorem bufferedFile_commits :
    CommitsOnFlush bufferedFile (fun buffer file => file ++ buffer) fun _ file => file where
  committed_le buffer file := List.prefix_append file buffer
  writeAll_ok bytes buffer file h' s' h := by
    cases h
    exact (List.append_assoc _ _ _).symm
  writeAll_received bytes buffer file r h' s' h := by
    cases h
    exact ⟨bytes, List.append_assoc _ _ _⟩
  writeAll_committed bytes buffer file r h' s' h := by
    cases h
    rfl
  flush_ok buffer file h' s' h := by
    cases h
    exact ⟨List.append_nil _, rfl⟩

/-- A new writer. -/
def zeroWriter : EncryptedWriter (List UInt8) × Uses × List UInt8 := (.new [] zeroSecrets, [], [])

/-- A flush of nothing, and a block of zeros. -/
def zeroBlockCalls : List ((WriterCall × Except (EncryptedError Unit) Unit) ×
    EncryptedWriter (List UInt8) × Uses × List UInt8) :=
  react (WriterCall.exec vectorAes bufferedFile) zeroWriter [.flush, .write zeroBlock.flatten]

/-- The writer after these calls and a last flush: the inner writer still holds two ciphertexts. -/
def zeroBlockWriter : EncryptedWriter (List UInt8) :=
  { inner := emptyTag ++ zeroBlockSealed
    secrets := zeroSecrets
    buffer := .ofVec zeroBlock.flatten }

/-- The messages sealed by the two flushes. -/
def zeroBlockUses : Uses :=
  [⟨zeroSecrets.key, zeroSecrets.nonce, []⟩, ⟨zeroSecrets.key, zeroSecrets.nonce, zeroBlock.flatten⟩]

/-- Both flushes have returned `Ok(())`, and the file is empty. -/
theorem zeroBlock_uncommitted :
    zeroBlockCalls.map (·.1) = [(.flush, .ok ()), (.write zeroBlock.flatten, .ok ())] ∧
      WriterCall.exec vectorAes bufferedFile (last zeroWriter zeroBlockCalls) .flush =
        some (.ok (), zeroBlockWriter, zeroBlockUses, []) ∧
      ¬FlushedThrough vectorAes (fun buffer file => file ++ buffer) (fun _ file => file)
        zeroBlockWriter [] zeroBlock.flatten := by
  refine ⟨rfl, rfl, fun h => ?_⟩
  have hsettled : ([] : List UInt8) = zeroBlockWriter.inner := h.1
  revert hsettled
  decide

theorem flush_never_zeroBlock :
    ¬FlushedThrough vectorAes (fun buffer file => file ++ buffer) (fun _ file => file)
      zeroBlockWriter [] (writtenBytes zeroBlockCalls) := by
  have hflush : WriterCall.exec vectorAes bufferedFile (last zeroWriter zeroBlockCalls) .flush =
      some (.ok (), zeroBlockWriter, zeroBlockUses, []) := rfl
  exact (flush_never vectorAes_lawful rfl bufferedFile_commits [] zeroSecrets (isTrace_react _ _ _)
    hflush).2

end BackedData.Disks
