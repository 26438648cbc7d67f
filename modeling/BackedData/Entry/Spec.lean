/-
# BackedData.Entry.Spec — what each operation of an entry does to the cell and to the disk

One specification lemma per operation of `BackedEntry`, over any `Lawful` medium: which of the cell and the
stored content it replaces, which it keeps, on success and on each failure.  For the successes of writing it
is enough that the medium `Encodes`.  Every invariant proved about entries and arrays cites these and unfolds
no operation.
-/
import BackedData.Entry.Basic

namespace BackedData.Entry

set_option autoImplicit false

variable {T D C S E : Type} {io : Medium T D C S E} {stored : C → D → Option T}
  {e e' : BackedEntry T D C} {v : T} {err : E} {s s' : S}

/-- What the disk of an entry decodes to. -/
def BackedEntry.storedValue (stored : C → D → Option T) (e : BackedEntry T D C) : Option T :=
  stored e.coder e.disk

/-- A cached value is what `load` returns, and nothing else happens. -/
theorem BackedEntry.load_cached (hv : e.value = some v) (s : S) : e.load io s = (.ok v, e, s) := by
  unfold BackedEntry.load
  rw [hv]

/-- What `load` returned is cached, whatever the medium. -/
theorem BackedEntry.load_caches (h : e.load io s = (.ok v, e', s')) : e'.value = some v := by
  rcases hv : e.value with _ | x
  · unfold BackedEntry.load at h
    rw [hv] at h
    rcases hd : e.decodeFromDisk io s with ⟨r | r, e₁, s₁⟩
    · simp [hd] at h
    · simp only [hd, Prod.mk.injEq, Except.ok.injEq] at h
      obtain ⟨rfl, rfl, -⟩ := h
      rfl
  · rw [BackedEntry.load_cached hv] at h
    cases h
    exact hv

namespace Encodes

open BackedEntry

/-- A write that reaches the disk keeps the cell and stores exactly the value. -/
theorem encodeToDisk_ok (hio : Encodes io stored)
    (h : e.encodeToDisk io v s = (.ok (), e', s')) :
    e'.value = e.value ∧ e'.coder = e.coder ∧ e'.storedValue stored = some v := by
  unfold BackedEntry.encodeToDisk at h
  rcases hw : io.writeDisk e.disk s with ⟨r | r, d, s₁⟩
  · simp [hw] at h
  · rcases hc : io.encode e.coder v d s₁ with ⟨r₂, d₂, s₂⟩
    simp only [hw, hc, Prod.mk.injEq] at h
    obtain ⟨rfl, rfl, rfl⟩ := h
    exact ⟨rfl, rfl, hio.encode_ok _ _ _ _ _ _ hc⟩

/-- `write` on success: the value in the cell and on the disk. -/
theorem write_ok (hio : Encodes io stored) (h : e.write io v s = (.ok (), e', s')) :
    e'.value = some v ∧ e'.storedValue stored = some v := by
  unfold BackedEntry.write at h
  rcases hw : e.encodeToDisk io v s with ⟨r | r, e₁, s₁⟩
  · simp [hw] at h
  · simp only [hw, Prod.mk.injEq] at h
    obtain ⟨-, rfl, rfl⟩ := h
    exact ⟨rfl, (hio.encodeToDisk_ok hw).2.2⟩

/-- `write_unload` on success: an empty cell, the value on the disk. -/
theorem writeUnload_ok (hio : Encodes io stored) (h : e.writeUnload io v s = (.ok (), e', s')) :
    e'.value = none ∧ e'.storedValue stored = some v := by
  obtain ⟨hv, -, hs⟩ := hio.encodeToDisk_ok h
  exact ⟨hv, hs⟩

/-- `update` with a cached value, on success: the disk holds the cached value. -/
theorem update_ok (hio : Encodes io stored) (hv : e.value = some v)
    (h : e.update io s = (.ok (), e', s')) :
    e'.value = some v ∧ e'.storedValue stored = some v := by
  unfold BackedEntry.update at h
  rw [hv] at h
  obtain ⟨hval, -, hst⟩ := hio.encodeToDisk_ok h
  exact ⟨hval.trans hv, hst⟩

end Encodes

namespace Lawful

open BackedEntry

/-- A write that fails keeps the cell; the disk keeps its content, or decodes no more. -/
theorem encodeToDisk_error (hio : Lawful io stored)
    (h : e.encodeToDisk io v s = (.error err, e', s')) :
    e'.value = e.value ∧ e'.coder = e.coder ∧
      (e'.storedValue stored = e.storedValue stored ∨ e'.storedValue stored = none) := by
  unfold BackedEntry.encodeToDisk at h
  rcases hw : io.writeDisk e.disk s with ⟨r | r, d, s₁⟩
  · simp only [hw, Prod.mk.injEq] at h
    obtain ⟨-, rfl, rfl⟩ := h
    exact ⟨rfl, rfl, hio.writeDisk_error _ _ _ _ _ _ hw⟩
  · rcases hc : io.encode e.coder v d s₁ with ⟨r₂, d₂, s₂⟩
    simp only [hw, hc, Prod.mk.injEq] at h
    obtain ⟨rfl, rfl, rfl⟩ := h
    exact ⟨rfl, rfl, Or.inr (hio.encode_error _ _ _ _ _ _ _ hc)⟩

/-- Reading keeps the cell and the stored content; a value read is the stored one. -/
theorem decodeFromDisk_spec (hio : Lawful io stored) {r : Except E T}
    (h : e.decodeFromDisk io s = (r, e', s')) :
    e'.value = e.value ∧ e'.coder = e.coder ∧ e'.storedValue stored = e.storedValue stored ∧
      ∀ x, r = .ok x → e.storedValue stored = some x := by
  unfold BackedEntry.decodeFromDisk at h
  rcases hr : io.readDisk e.disk s with ⟨r₁ | r₁, d, s₁⟩
  · simp only [hr, Prod.mk.injEq] at h
    obtain ⟨rfl, rfl, rfl⟩ := h
    exact ⟨rfl, rfl, hio.readDisk_keeps _ _ _ _ _ _ hr, fun x hx => by cases hx⟩
  · rcases hc : io.decode e.coder d s₁ with ⟨r₂, d₂, s₂⟩
    simp only [hr, hc, Prod.mk.injEq] at h
    obtain ⟨rfl, rfl, rfl⟩ := h
    have hread : stored e.coder d = stored e.coder e.disk := hio.readDisk_keeps _ _ _ _ _ _ hr
    refine ⟨rfl, rfl, ?_, ?_⟩
    · exact (hio.decode_keeps _ _ _ _ _ _ hc).trans hread
    · rintro x rfl
      have hval : stored e.coder d = some x := hio.decode_ok _ _ _ _ _ _ hc
      exact hread.symm.trans hval

/-- `write` on failure: the old cell, and the old content or none. -/
theorem write_error (hio : Lawful io stored) (h : e.write io v s = (.error err, e', s')) :
    e'.value = e.value ∧
      (e'.storedValue stored = e.storedValue stored ∨ e'.storedValue stored = none) := by
  unfold BackedEntry.write at h
  rcases hw : e.encodeToDisk io v s with ⟨r | r, e₁, s₁⟩
  · simp only [hw, Prod.mk.injEq] at h
    obtain ⟨-, rfl, rfl⟩ := h
    exact ⟨(hio.encodeToDisk_error hw).1, (hio.encodeToDisk_error hw).2.2⟩
  · simp [hw] at h

/-- `write_unload` on failure: the cell is empty all the same. -/
theorem writeUnload_error (hio : Lawful io stored)
    (h : e.writeUnload io v s = (.error err, e', s')) :
    e'.value = none ∧
      (e'.storedValue stored = e.storedValue stored ∨ e'.storedValue stored = none) := by
  obtain ⟨hv, -, hs⟩ := hio.encodeToDisk_error h
  exact ⟨hv, hs⟩

/-- `update` on failure. -/
theorem update_error (hio : Lawful io stored) (hv : e.value = some v)
    (h : e.update io s = (.error err, e', s')) :
    e'.value = some v ∧
      (e'.storedValue stored = e.storedValue stored ∨ e'.storedValue stored = none) := by
  unfold BackedEntry.update at h
  rw [hv] at h
  obtain ⟨hval, -, hst⟩ := hio.encodeToDisk_error h
  exact ⟨hval.trans hv, hst⟩

/-- `load` on success: the value returned is now the cached one, and it was cached or stored. -/
theorem load_ok (hio : Lawful io stored) (h : e.load io s = (.ok v, e', s')) :
    e'.value = some v ∧ e'.storedValue stored = e.storedValue stored ∧
      (e.value = some v ∨ e.value = none ∧ e.storedValue stored = some v) := by
  unfold BackedEntry.load at h
  rcases hv : e.value with _ | x
  · rw [hv] at h
    rcases hd : e.decodeFromDisk io s with ⟨r | r, e₁, s₁⟩
    · simp [hd] at h
    · simp only [hd, Prod.mk.injEq, Except.ok.injEq] at h
      obtain ⟨rfl, rfl, rfl⟩ := h
      obtain ⟨-, -, hst, hval⟩ := hio.decodeFromDisk_spec hd
      exact ⟨rfl, hst, Or.inr ⟨rfl, hval _ rfl⟩⟩
  · rw [hv] at h
    simp only [Prod.mk.injEq, Except.ok.injEq] at h
    obtain ⟨rfl, rfl, rfl⟩ := h
    exact ⟨hv, rfl, Or.inl rfl⟩

/-- `load` on failure: nothing cached, nothing changed. -/
theorem load_error (hio : Lawful io stored) (h : e.load io s = (.error err, e', s')) :
    e.value = none ∧ e'.value = none ∧ e'.storedValue stored = e.storedValue stored := by
  unfold BackedEntry.load at h
  rcases hv : e.value with _ | x
  · rw [hv] at h
    rcases hd : e.decodeFromDisk io s with ⟨r | r, e₁, s₁⟩
    · simp only [hd, Prod.mk.injEq] at h
      obtain ⟨-, rfl, rfl⟩ := h
      obtain ⟨hval, -, hst, -⟩ := hio.decodeFromDisk_spec hd
      exact ⟨rfl, hval.trans hv, hst⟩
    · simp [hd] at h
  · rw [hv] at h
    simp at h

/-- `take` on success: the value is the cached one, or the stored one. -/
theorem take_ok (hio : Lawful io stored) {d : D} (h : e.take io s = (.ok v, d, s')) :
    e.value = some v ∨ e.value = none ∧ e.storedValue stored = some v := by
  unfold BackedEntry.take at h
  rcases hv : e.value with _ | x
  · rw [hv] at h
    rcases hd : e.decodeFromDisk io s with ⟨r, e₁, s₁⟩
    simp only [hd, Prod.mk.injEq] at h
    obtain ⟨rfl, -, -⟩ := h
    exact Or.inr ⟨rfl, (hio.decodeFromDisk_spec hd).2.2.2 _ rfl⟩
  · rw [hv] at h
    simp only [Prod.mk.injEq, Except.ok.injEq] at h
    exact Or.inl (congrArg some h.1)

/-- `take` leaves the disk as it was. -/
theorem take_keeps (hio : Lawful io stored) {r : Except E T} {d : D}
    (h : e.take io s = (r, d, s')) : stored e.coder d = e.storedValue stored := by
  unfold BackedEntry.take at h
  rcases hv : e.value with _ | x
  · rw [hv] at h
    rcases hd : e.decodeFromDisk io s with ⟨r₁, e₁, s₁⟩
    simp only [hd, Prod.mk.injEq] at h
    obtain ⟨-, rfl, -⟩ := h
    obtain ⟨-, hcoder, hst, -⟩ := hio.decodeFromDisk_spec hd
    rw [← hst, ← hcoder]
    rfl
  · rw [hv] at h
    simp only [Prod.mk.injEq] at h
    obtain ⟨-, rfl, -⟩ := h
    rfl

/-! ## The mutable handle -/

section Handle

variable {m m' : BackedEntryMut T D C}

/-- `flush` on a modified handle, on success: the cell is on the disk, the flag is down. -/
theorem flush_ok (hio : Lawful io stored) (hm : m.modified = true) (hv : m.entry.value = some v)
    (h : m.flush io s = (.ok (), m', s')) :
    m'.modified = false ∧ m'.entry.value = some v ∧ m'.entry.storedValue stored = some v := by
  unfold BackedEntryMut.flush at h
  rw [if_pos hm] at h
  rcases hu : m.entry.update io s with ⟨r | r, e₁, s₁⟩
  · simp [hu] at h
  · simp only [hu, Prod.mk.injEq] at h
    obtain ⟨-, rfl, rfl⟩ := h
    exact ⟨rfl, hio.update_ok hv hu⟩

/-- `flush` on failure: the handle was modified and is, its value is what it was. -/
theorem flush_error (hio : Lawful io stored) (hv : m.entry.value = some v)
    (h : m.flush io s = (.error err, m', s')) :
    m.modified = true ∧ m'.modified = true ∧ m'.entry.value = some v ∧
      (m'.entry.storedValue stored = m.entry.storedValue stored ∨
        m'.entry.storedValue stored = none) := by
  unfold BackedEntryMut.flush at h
  by_cases hm : m.modified = true
  · rw [if_pos hm] at h
    rcases hu : m.entry.update io s with ⟨r | r, e₁, s₁⟩
    · simp only [hu, Prod.mk.injEq] at h
      obtain ⟨-, rfl, rfl⟩ := h
      exact ⟨hm, hm, hio.update_error hv hu⟩
    · simp [hu] at h
  · rw [if_neg hm] at h
    simp at h

end Handle

end Lawful

/-- `flush` on an unmodified handle does nothing. -/
theorem BackedEntryMut.flush_idle {m : BackedEntryMut T D C} (io : Medium T D C S E)
    (hm : m.modified = false) (s : S) : m.flush io s = (.ok (), m, s) := by
  unfold BackedEntryMut.flush
  rw [hm]
  rfl

/-- The drop of a handle is its last flush, with the failure turned into a panic. -/
theorem BackedEntryMut.drop_eq (m : BackedEntryMut T D C) (io : Medium T D C S E) (s : S) :
    m.drop io s =
      match m.flush io s with
      | (.error _, m, s) => (.error .explicit, m.entry, s)
      | (.ok (), m, s) => (.ok (), m.entry, s) := by
  unfold BackedEntryMut.drop
  by_cases hm : m.modified = true
  · exact if_pos hm
  · rw [BackedEntryMut.flush_idle io (by simpa using hm)]
    exact if_neg hm

end BackedData.Entry
