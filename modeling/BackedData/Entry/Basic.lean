/-
# BackedData.Entry.Basic — `BackedEntry`: one value kept on a disk, cached in memory

The core of the library: a memory cell (`Once`), a disk and a coder.  `BackedEntry` and its
operations are translated line by line from `entry/mod.rs`, `entry/sync_impl.rs` and the async twins
in `entry/async_impl.rs`; `BackedEntryMut` is the mutable handle with its `modified` flag.

What the type parameters `Disk` and `Coder` do is the parameter `Medium`: four calls on a disk value
and the world around it (`S`: other files, the faults still to come), each of which may fail and may
leave the disk changed even when it fails.  A disk value is modelled together with what it stores.
Nothing is assumed of these calls here; `Encodes` and `Lawful` name, for later use, what the documentation
of `Encoder`/`Decoder` promises of them, relative to an observation `stored` of what a disk decodes to.
-/
import BackedData.Logic.Outcome

namespace BackedData.Entry

open Logic.Outcome

set_option autoImplicit false

/-! ## The disk and the coder -/

/-- **`Medium T D C S E`** — the calls an entry makes on its disk and coder: `ReadDisk::read_disk`,
`WriteDisk::write_disk`, `Decoder::decode` and `Encoder::encode`.  The handle a disk opens is
identified with the disk it was opened on. -/
structure Medium (T D C S E : Type) where
  writeDisk : D → S → Except E Unit × D × S
  encode : C → T → D → S → Except E Unit × D × S
  readDisk : D → S → Except E Unit × D × S
  decode : C → D → S → Except E T × D × S

/-- **`Encodes io stored`** — a complete encoding of `v` decodes to `v`, relative to `stored c d`, the value
the content of disk `d` decodes to.  Every call may still fail at any time. -/
structure Encodes {T D C S E : Type} (io : Medium T D C S E) (stored : C → D → Option T) : Prop where
  encode_ok : ∀ c v d s d' s', io.encode c v d s = (.ok (), d', s') → stored c d' = some v

/-- **`Lawful io stored`** — the documented behaviour of disks and coders.  Beside what `Encodes` says:
opening for writing may fail, which at worst destroys what is stored; what a failed encode leaves behind does
not decode; reading changes nothing and a successful decode returns what is stored. -/
structure Lawful {T D C S E : Type} (io : Medium T D C S E) (stored : C → D → Option T) : Prop
    extends Encodes io stored where
  writeDisk_error : ∀ c d s e d' s', io.writeDisk d s = (.error e, d', s') →
    stored c d' = stored c d ∨ stored c d' = none
  encode_error : ∀ c v d s e d' s', io.encode c v d s = (.error e, d', s') → stored c d' = none
  readDisk_keeps : ∀ c d s r d' s', io.readDisk d s = (r, d', s') → stored c d' = stored c d
  decode_keeps : ∀ c d s r d' s', io.decode c d s = (r, d', s') → stored c d' = stored c d
  decode_ok : ∀ c d s v d' s', io.decode c d s = (.ok v, d', s') → stored c d = some v

/-! ## The entry -/

/-- `BackedEntry`: the once-cell `value`, the disk and the coder. -/
structure BackedEntry (T D C : Type) where
  value : Option T
  disk : D
  coder : C
  deriving DecidableEq, Repr

namespace BackedEntry

variable {T D C S E : Type}

/-- `BackedEntry::new`. -/
def new (disk : D) (coder : C) : BackedEntry T D C := { value := none, disk, coder }

/-- `is_loaded`. -/
def isLoaded (self : BackedEntry T D C) : Bool := self.value.isSome

/-- `unload`: a fresh cell replaces the value. -/
def unload (self : BackedEntry T D C) : BackedEntry T D C := { self with value := none }

variable (io : Medium T D C S E)

/-- `let disk = self.disk.write_disk()?; self.coder.encode(val, disk)?` — the pair that `update`,
`write` and `write_unload` share. -/
def encodeToDisk (self : BackedEntry T D C) (val : T) (s : S) :
    Except E Unit × BackedEntry T D C × S :=
  match io.writeDisk self.disk s with
  | (.error e, d, s) => (.error e, { self with disk := d }, s)
  | (.ok (), d, s) =>
      match io.encode self.coder val d s with
      | (r, d, s) => (r, { self with disk := d }, s)

/-- `let mut disk = self.disk.read_disk()?; self.coder.decode(&mut disk)?`. -/
def decodeFromDisk (self : BackedEntry T D C) (s : S) : Except E T × BackedEntry T D C × S :=
  match io.readDisk self.disk s with
  | (.error e, d, s) => (.error e, { self with disk := d }, s)
  | (.ok (), d, s) =>
      match io.decode self.coder d s with
      | (r, d, s) => (r, { self with disk := d }, s)

/-- `update`: write the current value, if there is one. -/
def update (self : BackedEntry T D C) (s : S) : Except E Unit × BackedEntry T D C × S :=
  match self.value with
  | some val => self.encodeToDisk io val s
  | none => (.ok (), self, s)

/-- `write`: disk first, then a fresh cell is set to the new value. -/
def write (self : BackedEntry T D C) (newValue : T) (s : S) :
    Except E Unit × BackedEntry T D C × S :=
  match self.encodeToDisk io newValue s with
  | (.error e, self, s) => (.error e, self, s)
  | (.ok (), self, s) => (.ok (), { self with value := some newValue }, s)

/-- `write_unload`: the cell is emptied before the disk is touched. -/
def writeUnload (self : BackedEntry T D C) (newValue : T) (s : S) :
    Except E Unit × BackedEntry T D C × S :=
  self.unload.encodeToDisk io newValue s

/-- `load`: the cached value, or the decoded one, which then stays cached. -/
def load (self : BackedEntry T D C) (s : S) : Except E T × BackedEntry T D C × S :=
  match self.value with
  | some x => (.ok x, self, s)
  | none =>
      match self.decodeFromDisk io s with
      | (.error e, self, s) => (.error e, self, s)
      | (.ok val, self, s) => (.ok val, { self with value := some val }, s)

/-- `take`: `load` that consumes the entry; only the disk is left behind. -/
def take (self : BackedEntry T D C) (s : S) : Except E T × D × S :=
  match self.value with
  | some x => (.ok x, self.disk, s)
  | none =>
      match self.decodeFromDisk io s with
      | (r, self, s) => (r, self.disk, s)

/-- `AsyncOnceLock::get_or_try_init`, awaited with no other future on the lock: the stored value, or
the closure's, which is then stored. -/
def getOrTryInit (self : BackedEntry T D C) (f : BackedEntry T D C → S → Except E T × BackedEntry T D C × S)
    (s : S) : Except E T × BackedEntry T D C × S :=
  match self.value with
  | some x => (.ok x, self, s)
  | none =>
      match f self s with
      | (.error e, self, s) => (.error e, self, s)
      | (.ok val, self, s) => (.ok val, { self with value := some val }, s)

/-- `a_load`: read and decode inside `get_or_try_init`. -/
def aLoad (self : BackedEntry T D C) (s : S) : Except E T × BackedEntry T D C × S :=
  self.getOrTryInit (fun self s => self.decodeFromDisk io s) s

theorem aLoad_eq_load (self : BackedEntry T D C) (s : S) : self.aLoad io s = self.load io s := rfl

end BackedEntry

/-! ## The mutable handle -/

/-- `BackedEntryMut`: exclusive access to an entry, and whether it differs from the disk. -/
structure BackedEntryMut (T D C : Type) where
  entry : BackedEntry T D C
  modified : Bool
  deriving DecidableEq, Repr

namespace BackedEntryMut

variable {T D C S E : Type} (io : Medium T D C S E)

/-- `mut_handle`: load, then hand out the handle, unmodified.  On a load error the borrow ends and the
entry is all that is left. -/
def mutHandle (backed : BackedEntry T D C) (s : S) :
    Except (E × BackedEntry T D C) (BackedEntryMut T D C) × S :=
  match backed.load io s with
  | (.error e, backed, s) => (.error (e, backed), s)
  | (.ok _, backed, s) => (.ok { entry := backed, modified := false }, s)

/-- `Deref::deref`. -/
def deref (self : BackedEntryMut T D C) : Exec T := unwrap self.entry.value

/-- `DerefMut::deref_mut`, followed by the edit `f` through the reference it returns. -/
def derefMut (self : BackedEntryMut T D C) (f : T → T) : Exec (BackedEntryMut T D C) := do
  let val ← unwrap self.entry.value
  pure { entry := { self.entry with value := some (f val) }, modified := true }

/-- `flush`: update the disk if modified; the flag falls only when that succeeds. -/
def flush (self : BackedEntryMut T D C) (s : S) : Except E Unit × BackedEntryMut T D C × S :=
  if self.modified then
    match self.entry.update io s with
    | (.error e, entry, s) => (.error e, { self with entry }, s)
    | (.ok (), entry, s) => (.ok (), { entry, modified := false }, s)
  else (.ok (), self, s)

/-- `Drop::drop`: a last flush when modified, whose failure is a panic.  Either way the borrow of the
entry ends. -/
def drop (self : BackedEntryMut T D C) (s : S) : Exec Unit × BackedEntry T D C × S :=
  if self.modified then
    match self.flush io s with
    | (.error _, self, s) => (.error .explicit, self.entry, s)
    | (.ok (), self, s) => (.ok (), self.entry, s)
  else (.ok (), self.entry, s)

end BackedEntryMut

/-! ## An in-memory disk that fails on schedule -/

/-- The head of a fault schedule: `true` makes the call fail; past its end nothing fails. -/
def nextFault : List Bool → Bool × List Bool
  | [] => (false, [])
  | b :: rest => (b, rest)

/-- **`scripted`** — a disk that stores at most one value, as the test disks of the library do, and
whose calls fail where the schedule says so.  Opening for writing truncates; a failed encode leaves
nothing that decodes. -/
def scripted (T : Type) : Medium T (Option T) Unit (List Bool) Unit where
  writeDisk d s :=
    match nextFault s with
    | (true, s) => (.error (), d, s)
    | (false, s) => (.ok (), none, s)
  encode _ v _ s :=
    match nextFault s with
    | (true, s) => (.error (), none, s)
    | (false, s) => (.ok (), some v, s)
  readDisk d s :=
    match nextFault s with
    | (true, s) => (.error (), d, s)
    | (false, s) => (.ok (), d, s)
  decode _ d s :=
    match nextFault s, d with
    | (false, s), some v => (.ok v, d, s)
    | (_, s), d => (.error (), d, s)

theorem scripted_lawful (T : Type) : Lawful (scripted T) fun _ d => d where
  writeDisk_error c d s e d' s' h := by
    rcases hf : nextFault s with ⟨_ | _, s₁⟩ <;> simp [scripted, hf] at h
    exact Or.inl h.1.symm
  encode_ok c v d s d' s' h := by
    rcases hf : nextFault s with ⟨_ | _, s₁⟩ <;> simp [scripted, hf] at h
    exact h.1.symm
  encode_error c v d s e d' s' h := by
    rcases hf : nextFault s with ⟨_ | _, s₁⟩ <;> simp [scripted, hf] at h
    exact h.1.symm
  readDisk_keeps c d s r d' s' h := by
    rcases hf : nextFault s with ⟨_ | _, s₁⟩ <;> simp [scripted, hf] at h <;> exact h.2.1.symm
  decode_keeps c d s r d' s' h := by
    rcases hf : nextFault s with ⟨_ | _, s₁⟩ <;> cases d <;> simp [scripted, hf] at h <;>
      exact h.2.1.symm
  decode_ok c d s v d' s' h := by
    rcases hf : nextFault s with ⟨_ | _, s₁⟩ <;> cases d <;> simp [scripted, hf] at h
    exact congrArg some h.1

end BackedData.Entry
