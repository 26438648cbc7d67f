/-
# BackedData.Array.SecretKeys — `SecretVecWrapper` where a `Vec` would do

`ResizingContainer` has two implementations that are to do the same: the one of `Vec`, and the one of
`SecretVecWrapper`, which builds a new allocation for every change and copies the old contents over.  The
copies of `c_remove`, `c_append` and `extend` begin with one over the whole of the new allocation, so they
stop the call unless nothing is left to copy behind it: an element is removed only at the end, and nothing
but nothing is appended.

`secretVec_agrees_iff` says so of a whole sequence of operations, and of the two operations of a
`BackedArray` that remove keys and append them.
-/
import BackedData.Array.Resize
import BackedData.Disks.SecretVec

set_option autoImplicit false

/-! ## `ResizingContainer for SecretVecWrapper` -/

namespace BackedData.Disks.SecretVecWrapper

open Logic.Outcome
open Logic.Buffer

variable {T : Type}

/-- `from_iter`. -/
def fromIter (fresh : Nat → T) (data : List T) : Exec (SecretVecWrapper T) := do
  let contents ← SecretVec.new (.ample fresh) data.length fun s => copyFromSlice s 0 s.length data
  pure { contents }

/-- `c_push`. -/
def cPush (fresh : Nat → T) (self : SecretVecWrapper T) (value : T) :
    Exec (SecretVecWrapper T) := do
  let len ← usizeAdd self.contents.length 1
  let contents ← SecretVec.new (.ample fresh) len fun s => do
    let lastIdx ← usizeSub s.length 1
    let s ← copyFromSlice s 0 lastIdx self.contents
    assign s lastIdx value
  pure { contents }

/-- `c_remove`. -/
def cRemove (fresh : Nat → T) (self : SecretVecWrapper T) (index : Nat) :
    Exec (SecretVecWrapper T) := do
  let len ← usizeSub self.contents.length 1
  let contents ← SecretVec.new (.ample fresh) len fun s => do
    let front ← sliceOf self.contents 0 index
    let s ← copyFromSlice s 0 s.length front
    let next ← usizeAdd index 1
    let back ← sliceOf self.contents next self.contents.length
    copyFromSlice s index s.length back
  pure { contents }

/-- `c_append`; `other` keeps what it has. -/
def cAppend (fresh : Nat → T) (self other : SecretVecWrapper T) :
    Exec (SecretVecWrapper T) := do
  let len ← usizeAdd self.contents.length other.contents.length
  let contents ← SecretVec.new (.ample fresh) len fun s => do
    let s ← copyFromSlice s 0 s.length self.contents
    copyFromSlice s self.contents.length s.length other.contents
  pure { contents }

/-- `extend`: an append of what the iterator yields. -/
def extend (fresh : Nat → T) (self : SecretVecWrapper T) (iter : List T) :
    Exec (SecretVecWrapper T) := do
  let new ← fromIter fresh iter
  self.cAppend fresh new

end BackedData.Disks.SecretVecWrapper

namespace BackedData.Array

open Logic.Outcome
open Logic.Buffer
open Logic.Ranges
open BackedData.Disks

variable {T Ent : Type}

/-! ## Sequences of operations -/

/-- The resizing operations of a container. -/
inductive SeqOp (T : Type) where
  | push (value : T)
  | remove (index : Nat)
  | append (other : List T)
  | extend (iter : List T)
  deriving DecidableEq, Repr

/-- The operation, on a `Vec`. -/
def SeqOp.onVec (self : List T) : SeqOp T → Exec (List T)
  | .push value => pure (self ++ [value])
  | .remove index => removeAt self index
  | .append other => pure (self ++ other)
  | .extend iter => pure (self ++ iter)

/-- The operation, on a `SecretVecWrapper`. -/
def SeqOp.onSecret (fresh : Nat → T) (self : SecretVecWrapper T) :
    SeqOp T → Exec (SecretVecWrapper T)
  | .push value => self.cPush fresh value
  | .remove index => self.cRemove fresh index
  | .append other => self.cAppend fresh { contents := other }
  | .extend iter => self.extend fresh iter

/-- A sequence of operations: the container after each. -/
def afterEach {σ : Type} (apply : σ → SeqOp T → Exec σ) : σ → List (SeqOp T) → Exec (List σ)
  | _, [] => pure []
  | self, op :: ops => do
      let self ← apply self op
      let rest ← afterEach apply self ops
      pure (self :: rest)

/-- **`Harmless xs op`** — there is nothing to copy behind the first copy, and a `usize` counts what there
is. -/
def Harmless (xs : List T) : SeqOp T → Prop
  | .push _ => xs.length + 1 < usizeSize
  | .remove index => index + 1 = xs.length
  | .append other => other = []
  | .extend iter => iter = []

/-- Every operation of the sequence is harmless where it is made. -/
def AllHarmless : List T → List (SeqOp T) → Prop
  | _, [] => True
  | xs, op :: ops => Harmless xs op ∧ ∀ ys, op.onVec xs = .ok ys → AllHarmless ys ops

/-! ## One lemma per operation -/

section Operations

variable {fresh : Nat → T} {self w : SecretVecWrapper T}

theorem fromIter_ok (data : List T) :
    SecretVecWrapper.fromIter fresh data = .ok { contents := data } := by
  simp only [SecretVecWrapper.fromIter, SecretVec.new_ample,
    copyFromSlice_whole (freshMemory_length fresh data.length), exec_bind_ok, exec_pure]

theorem cPush_iff (fresh : Nat → T) (value : T) :
    self.cPush fresh value = .ok { contents := self.contents ++ [value] } ↔
      self.contents.length + 1 < usizeSize := by
  constructor
  · intro h
    obtain ⟨len, hlen, -⟩ := exec_bind_inv h
    unfold usizeAdd at hlen
    split at hlen
    · next hfits => exact hfits
    · cases hlen
  · intro hfits
    have hsub : usizeSub (self.contents.length + 1) 1 = .ok self.contents.length :=
      usizeSub_ok (Nat.le_add_left 1 _)
    have hcopy : copyFromSlice (freshMemory fresh (self.contents.length + 1)) 0 self.contents.length
        self.contents =
        .ok (self.contents ++ (freshMemory fresh (self.contents.length + 1)).drop self.contents.length) := by
      apply copyFromSlice_front
      rw [freshMemory_length]
      omega
    -- one element of the allocation is left
    obtain ⟨last, hlast⟩ : ∃ last,
        (freshMemory fresh (self.contents.length + 1)).drop self.contents.length = [last] := by
      apply List.length_eq_one_iff.mp
      rw [List.length_drop, freshMemory_length]
      omega
    rw [hlast] at hcopy
    have hassign : assign (self.contents ++ [last]) self.contents.length value =
        .ok (self.contents ++ [value]) := by
      rw [assign_ok (by simp), List.set_append_right _ _ (Nat.le_refl _), Nat.sub_self]
      rfl
    simp only [SecretVecWrapper.cPush, usizeAdd_ok hfits, exec_bind_ok, SecretVec.new_ample, freshMemory_length,
      hsub, hcopy, hassign, exec_pure]

/-- A removal that returned was one at the end. -/
theorem cRemove_inv {index : Nat} (h : self.cRemove fresh index = .ok w) :
    index + 1 = self.contents.length := by
  unfold SecretVecWrapper.cRemove at h
  simp only [SecretVec.new_ample] at h
  obtain ⟨len, hlen, h⟩ := exec_bind_inv h
  obtain ⟨contents, hnew, -⟩ := exec_bind_inv h
  obtain ⟨front, hfront, hnew⟩ := exec_bind_inv hnew
  obtain ⟨s, hcopy, -⟩ := exec_bind_inv hnew
  obtain ⟨-, -, hsame, -⟩ := copyFromSlice_inv hcopy
  have hindex := sliceOf_length hfront
  rw [freshMemory_length] at hsame
  unfold usizeSub at hlen
  split at hlen
  · cases hlen
    omega
  · cases hlen

theorem cRemove_ok {index : Nat} (h : index + 1 = self.contents.length)
    (hfits : self.contents.length < usizeSize) :
    self.cRemove fresh index = .ok { contents := self.contents.eraseIdx index } := by
  have hsub : usizeSub self.contents.length 1 = .ok index := by
    rw [usizeSub_ok (by omega), ← h, Nat.add_sub_cancel]
  have hfront : sliceOf self.contents 0 index = .ok (self.contents.take index) :=
    sliceOf_ok (Nat.zero_le _) (by omega)
  have hlen : index = (self.contents.take index).length := by
    rw [List.length_take]
    omega
  have hcopy : copyFromSlice (freshMemory fresh index) 0 index (self.contents.take index) =
      .ok (self.contents.take index) := by
    have hsame : (freshMemory fresh index).length = (self.contents.take index).length := by
      rw [freshMemory_length, ← hlen]
    have hwhole := copyFromSlice_whole hsame
    rwa [freshMemory_length] at hwhole
  have hnext : usizeAdd index 1 = .ok self.contents.length := by
    rw [usizeAdd_ok (by omega), h]
  have hback : sliceOf self.contents self.contents.length self.contents.length = .ok [] := by
    rw [sliceOf_ok (Nat.le_refl _) (Nat.le_refl _), List.take_length, List.drop_length]
  have hcopyBack : copyFromSlice (self.contents.take index) index (self.contents.take index).length [] =
      .ok (self.contents.take index) := by
    rw [← hlen, copyFromSlice_ok (Nat.le_refl _) (Nat.le_of_eq hlen) (Nat.sub_self _)]
    simp [List.take_take]
  have herase : self.contents.eraseIdx index = self.contents.take index := by
    rw [List.eraseIdx_eq_take_drop_succ, h, List.drop_length, List.append_nil]
  simp only [SecretVecWrapper.cRemove, hsub, exec_bind_ok, SecretVec.new_ample, hfront, freshMemory_length,
    hcopy, hnext, hback, hcopyBack, herase, exec_pure]

/-- An append that returned had nothing to append. -/
theorem cAppend_inv {other : SecretVecWrapper T} (h : self.cAppend fresh other = .ok w) :
    other.contents = [] := by
  unfold SecretVecWrapper.cAppend at h
  simp only [SecretVec.new_ample] at h
  obtain ⟨len, hlen, h⟩ := exec_bind_inv h
  obtain ⟨contents, hnew, -⟩ := exec_bind_inv h
  obtain ⟨s, hcopy, -⟩ := exec_bind_inv hnew
  obtain ⟨-, -, hsame, -⟩ := copyFromSlice_inv hcopy
  rw [freshMemory_length, usizeAdd_inv hlen] at hsame
  exact List.eq_nil_of_length_eq_zero (by omega)

theorem cAppend_ok (hfits : self.contents.length < usizeSize) :
    self.cAppend fresh { contents := [] } = .ok self := by
  have hadd : usizeAdd self.contents.length 0 = .ok self.contents.length := usizeAdd_ok hfits
  have hcopy : copyFromSlice (freshMemory fresh self.contents.length) 0 self.contents.length self.contents =
      .ok self.contents := by
    rw [copyFromSlice_front (by rw [freshMemory_length]),
      List.drop_eq_nil_of_le (by rw [freshMemory_length]), List.append_nil]
  have hnone : copyFromSlice self.contents self.contents.length self.contents.length [] =
      .ok self.contents := by
    rw [copyFromSlice_ok (Nat.le_refl _) (Nat.le_refl _) (Nat.sub_self _), List.take_length,
      List.drop_length, List.append_nil, List.append_nil]
  simp only [SecretVecWrapper.cAppend, List.length_nil, hadd, exec_bind_ok, SecretVec.new_ample,
    freshMemory_length, hcopy, hnone, exec_pure]

theorem extend_eq (iter : List T) : self.extend fresh iter = self.cAppend fresh { contents := iter } := by
  unfold SecretVecWrapper.extend
  rw [fromIter_ok, exec_bind_ok]

/-- **The step lemma**: an operation does what it does to a `Vec` exactly when it is harmless. -/
theorem onSecret_iff (hfits : self.contents.length < usizeSize) (op : SeqOp T) :
    (∃ w, op.onSecret fresh self = .ok w ∧ op.onVec self.contents = .ok w.contents) ↔
      Harmless self.contents op := by
  cases op with
  | push value =>
      show _ ↔ self.contents.length + 1 < usizeSize
      rw [← cPush_iff fresh value]
      constructor
      · rintro ⟨w, hw, hvec⟩
        have hcontents : w.contents = self.contents ++ [value] := (Except.ok.inj hvec).symm
        rw [← hcontents]
        exact hw
      · intro h
        exact ⟨_, h, rfl⟩
  | remove index =>
      constructor
      · rintro ⟨w, hw, -⟩
        exact cRemove_inv hw
      · intro h
        refine ⟨_, cRemove_ok h hfits, removeAt_ok ?_⟩
        exact h ▸ Nat.lt_succ_self index
  | append other =>
      constructor
      · rintro ⟨w, hw, -⟩
        exact cAppend_inv hw
      · intro h
        obtain rfl : other = [] := h
        refine ⟨self, cAppend_ok hfits, ?_⟩
        exact congrArg Except.ok (List.append_nil _)
  | extend iter =>
      constructor
      · rintro ⟨w, hw, -⟩
        have happend : self.cAppend fresh { contents := iter } = .ok w := by
          rw [← extend_eq]
          exact hw
        exact cAppend_inv happend
      · intro h
        obtain rfl : iter = [] := h
        refine ⟨self, ?_, congrArg Except.ok (List.append_nil _)⟩
        show self.extend fresh [] = .ok self
        rw [extend_eq, cAppend_ok hfits]

/-- What is left fits a `usize`, too. -/
theorem Harmless.fits {xs ys : List T} {op : SeqOp T} (h : Harmless xs op) (hfits : xs.length < usizeSize)
    (hvec : op.onVec xs = .ok ys) : ys.length < usizeSize := by
  cases op with
  | push value =>
      cases hvec
      rw [List.length_append]
      exact h
  | remove index =>
      rw [removeAt_inv hvec]
      exact Nat.lt_of_le_of_lt (List.length_eraseIdx_le xs index) hfits
  | append other =>
      obtain rfl : other = [] := h
      cases hvec
      rwa [List.append_nil]
  | extend iter =>
      obtain rfl : iter = [] := h
      cases hvec
      rwa [List.append_nil]

/-- **The run lemma.** -/
theorem afterEach_iff (hfits : self.contents.length < usizeSize) (ops : List (SeqOp T)) :
    (∃ hist, afterEach (SeqOp.onSecret fresh) self ops = .ok hist ∧
        afterEach SeqOp.onVec self.contents ops = .ok (hist.map SecretVecWrapper.contents)) ↔
      AllHarmless self.contents ops := by
  induction ops generalizing self with
  | nil => exact ⟨fun _ => trivial, fun _ => ⟨[], rfl, rfl⟩⟩
  | cons op ops ih =>
      unfold afterEach AllHarmless
      constructor
      · rintro ⟨hist, hsecret, hvec⟩
        obtain ⟨w, hw, hsecret⟩ := exec_bind_inv hsecret
        obtain ⟨rest, hrest, hsecret⟩ := exec_bind_inv hsecret
        obtain ⟨ys, hys, hvec⟩ := exec_bind_inv hvec
        obtain ⟨restVec, hrestVec, hvec⟩ := exec_bind_inv hvec
        cases hsecret
        obtain ⟨rfl, rfl⟩ : ys = w.contents ∧ restVec = rest.map SecretVecWrapper.contents := by
          simpa using Except.ok.inj hvec
        have hop := (onSecret_iff hfits op).mp ⟨w, hw, hys⟩
        refine ⟨hop, fun zs hzs => ?_⟩
        obtain rfl : w.contents = zs := by
          rw [hys] at hzs
          exact Except.ok.inj hzs
        exact (ih (hop.fits hfits hys)).mp ⟨rest, hrest, hrestVec⟩
      · rintro ⟨hop, hrest⟩
        have hboth : ∃ w, op.onSecret fresh self = .ok w ∧ op.onVec self.contents = .ok w.contents :=
          (onSecret_iff hfits op).mpr hop
        obtain ⟨w, hw, hys⟩ := hboth
        obtain ⟨rest, hsecret, hvec⟩ := (ih (hop.fits hfits hys)).mpr (hrest _ hys)
        refine ⟨w :: rest, ?_, ?_⟩
        · rw [hw, exec_bind_ok, hsecret]
          rfl
        · rw [hys, exec_bind_ok, hvec]
          rfl

end Operations

/-! ## Arrays with secret keys -/

/-- A `BackedArray` whose keys are secret. -/
structure SecretKeyed (Ent : Type) where
  keyStarts : SecretVecWrapper Nat
  keyEnds : SecretVecWrapper Nat
  entries : List Ent
  deriving Repr

namespace SecretKeyed

/-- The array with the same keys in `Vec`s. -/
def plain (self : SecretKeyed Ent) : BackedArray Ent where
  keyStarts := self.keyStarts.contents
  keyEnds := self.keyEnds.contents
  entries := self.entries

/-- `key_remove`. -/
def keyRemove (fresh : Nat → Nat) (this : SecretVecWrapper Nat) (entryIdx width : Nat) :
    Exec (SecretVecWrapper Nat) := do
  let this ← this.cRemove fresh entryIdx
  let shifted ← (this.contents.drop entryIdx).mapM fun key => usizeSub key width
  pure { contents := this.contents.take entryIdx ++ shifted }

/-- `remove`. -/
def remove (fresh : Nat → Nat) (self : SecretKeyed Ent) (entryIdx : Nat) : Exec (SecretKeyed Ent) :=
  match self.keyStarts.contents[entryIdx]?, self.keyEnds.contents[entryIdx]? with
  | some start, some stop => do
      let width ← usizeSub stop start
      let entries ← removeAt self.entries entryIdx
      let keyStarts ← keyRemove fresh self.keyStarts entryIdx width
      let keyEnds ← keyRemove fresh self.keyEnds entryIdx width
      pure { keyStarts, keyEnds, entries }
  | _, _ => pure self

/-- `merge`. -/
def merge (fresh : Nat → Nat) (self rhs : SecretKeyed Ent) : Exec (SecretKeyed Ent) := do
  let offset := self.keyEnds.contents.getLast?.getD 0
  let starts ← rhs.keyStarts.contents.mapM fun x => usizeAdd x offset
  let keyStarts ← self.keyStarts.extend fresh starts
  let ends ← rhs.keyEnds.contents.mapM fun x => usizeAdd x offset
  let keyEnds ← self.keyEnds.extend fresh ends
  pure { keyStarts, keyEnds, entries := self.entries ++ rhs.entries }

variable {fresh : Nat → Nat} {keeps : Ent → List T → Prop} {arr rhs : SecretKeyed Ent}
  {chunks more : List (List T)}

theorem keyStarts_length (hwf : WellFormed keeps arr.plain chunks) :
    arr.keyStarts.contents.length = chunks.length := by
  have hstarts : arr.keyStarts.contents = _ := hwf.keyStarts_eq
  rw [hstarts, startsFrom_length, List.length_map]

theorem keyEnds_length (hwf : WellFormed keeps arr.plain chunks) :
    arr.keyEnds.contents.length = chunks.length := by
  have hends : arr.keyEnds.contents = _ := hwf.keyEnds_eq
  rw [hends, endsFrom_length, List.length_map]

/-- The last key is removed as from a `Vec`. -/
theorem keyRemove_last (fresh : Nat → Nat) {this : SecretVecWrapper Nat} {entryIdx : Nat} (width : Nat)
    (h : entryIdx + 1 = this.contents.length) (hfits : this.contents.length < usizeSize) :
    (keyRemove fresh this entryIdx width).map SecretVecWrapper.contents =
      BackedArray.keyRemove this.contents entryIdx width := by
  unfold keyRemove BackedArray.keyRemove
  rw [cRemove_ok h hfits, removeAt_ok (h ▸ Nat.lt_succ_self entryIdx), exec_bind_ok, exec_bind_ok]
  rcases ((this.contents.eraseIdx entryIdx).drop entryIdx).mapM fun key => usizeSub key width with p | keys
  · rfl
  · rfl

/-- Where there is no such entry, nothing is removed, neither way. -/
theorem remove_behind (hwf : WellFormed keeps arr.plain chunks) {entryIdx : Nat}
    (hge : chunks.length ≤ entryIdx) :
    arr.remove fresh entryIdx = .ok arr ∧ arr.plain.remove entryIdx = .ok arr.plain := by
  have hlen := keyStarts_length hwf
  have hnone : arr.keyStarts.contents[entryIdx]? = none := List.getElem?_eq_none (by omega)
  have hnone' : arr.plain.keyStarts[entryIdx]? = none := hnone
  constructor
  · unfold remove
    rw [hnone]
    rfl
  · unfold BackedArray.remove
    rw [hnone']
    rfl

/-- A removal that returned has removed the last key. -/
theorem remove_returned {entryIdx start stop : Nat} {arr' : SecretKeyed Ent}
    (hs : arr.keyStarts.contents[entryIdx]? = some start)
    (he : arr.keyEnds.contents[entryIdx]? = some stop) (h : arr.remove fresh entryIdx = .ok arr') :
    entryIdx + 1 = arr.keyStarts.contents.length := by
  unfold remove at h
  simp only [hs, he] at h
  obtain ⟨width, -, h⟩ := exec_bind_inv h
  obtain ⟨entries, -, h⟩ := exec_bind_inv h
  obtain ⟨keyStarts, hkeys, -⟩ := exec_bind_inv h
  obtain ⟨this, hremove, -⟩ := exec_bind_inv hkeys
  exact cRemove_inv hremove

/-- The last entry is removed as with `Vec` keys. -/
theorem remove_last {entryIdx start stop : Nat} (hs : arr.keyStarts.contents[entryIdx]? = some start)
    (he : arr.keyEnds.contents[entryIdx]? = some stop)
    (hlastStart : entryIdx + 1 = arr.keyStarts.contents.length)
    (hlastEnd : entryIdx + 1 = arr.keyEnds.contents.length)
    (hfits : arr.keyStarts.contents.length < usizeSize) :
    (arr.remove fresh entryIdx).map plain = arr.plain.remove entryIdx := by
  unfold remove BackedArray.remove
  simp only [plain, hs, he]
  rcases usizeSub stop start with p | width
  · rfl
  · rcases removeAt arr.entries entryIdx with p | entries
    · rfl
    · simp only [exec_bind_ok, ← keyRemove_last fresh width hlastStart hfits,
        ← keyRemove_last fresh width hlastEnd (by omega)]
      rcases keyRemove fresh arr.keyStarts entryIdx width with p | keyStarts
      · rfl
      · rcases keyRemove fresh arr.keyEnds entryIdx width with p | keyEnds
        · rfl
        · rfl

/-- **`remove`** does what it does with `Vec` keys exactly when it removes the last entry, or none. -/
theorem remove_iff (hwf : WellFormed keeps arr.plain chunks) (hfits : chunks.length < usizeSize)
    (entryIdx : Nat) :
    (arr.remove fresh entryIdx).map plain = arr.plain.remove entryIdx ↔ chunks.length ≤ entryIdx + 1 := by
  have hstarts := keyStarts_length hwf
  have hends := keyEnds_length hwf
  rcases Nat.lt_or_ge entryIdx chunks.length with hlt | hge
  · have hs : arr.keyStarts.contents[entryIdx]? = some arr.keyStarts.contents[entryIdx] :=
      List.getElem?_eq_getElem (by omega)
    have he : arr.keyEnds.contents[entryIdx]? = some arr.keyEnds.contents[entryIdx] :=
      List.getElem?_eq_getElem (by omega)
    constructor
    · intro hsame
      -- with `Vec` keys it returns
      obtain ⟨arr', hplain, -⟩ := remove_wellFormed hwf entryIdx
      rw [hplain] at hsame
      rcases hrun : arr.remove fresh entryIdx with p | arr''
      · rw [hrun] at hsame
        cases hsame
      · have hlast := remove_returned hs he hrun
        omega
    · intro hlast
      exact remove_last hs he (by omega) (by omega) (by omega)
  · obtain ⟨hsame, hself⟩ := remove_behind hwf hge
    rw [hsame, hself]
    constructor
    · intro _
      omega
    · intro _
      rfl

/-- **`merge`** does what it does with `Vec` keys exactly when there is nothing to merge. -/
theorem merge_iff (hwf : WellFormed keeps arr.plain chunks) (hrhs : WellFormed keeps rhs.plain more)
    (hfits : chunks.length < usizeSize) (hsum : (chunks ++ more).flatten.length < usizeSize) :
    (arr.merge fresh rhs).map plain = arr.plain.merge rhs.plain ↔ more = [] := by
  have hstarts := keyStarts_length hwf
  have hends := keyEnds_length hwf
  have hrhsStarts := keyStarts_length hrhs
  have hrhsEnds := keyEnds_length hrhs
  constructor
  · intro hsame
    obtain ⟨arr', hplain, -⟩ := merge_wellFormed hwf hrhs hsum
    rw [hplain] at hsame
    rcases hrun : arr.merge fresh rhs with p | merged
    · rw [hrun] at hsame
      cases hsame
    · obtain ⟨starts, hmap, hrun⟩ := exec_bind_inv hrun
      obtain ⟨keyStarts, hextend, -⟩ := exec_bind_inv hrun
      rw [extend_eq] at hextend
      obtain rfl : starts = [] := cAppend_inv hextend
      have hnone := mapM_inv (g := fun x => x + arr.keyEnds.contents.getLast?.getD 0)
        (fun _ _ => usizeAdd_inv) hmap
      have hzero := congrArg List.length hnone
      rw [List.length_map, hrhsStarts] at hzero
      exact List.eq_nil_of_length_eq_zero hzero.symm
  · rintro rfl
    have hnoStarts : rhs.keyStarts.contents = [] := List.eq_nil_of_length_eq_zero hrhsStarts
    have hnoEnds : rhs.keyEnds.contents = [] := List.eq_nil_of_length_eq_zero hrhsEnds
    have hkeepStarts : arr.keyStarts.extend fresh [] = .ok arr.keyStarts := by
      rw [extend_eq, cAppend_ok (by omega)]
    have hkeepEnds : arr.keyEnds.extend fresh [] = .ok arr.keyEnds := by
      rw [extend_eq, cAppend_ok (by omega)]
    unfold merge BackedArray.merge
    simp only [plain, hnoStarts, hnoEnds, List.mapM_nil, exec_pure, exec_bind_ok, hkeepStarts, hkeepEnds,
      List.append_nil]
    rfl

end SecretKeyed

/-- **Where a `SecretVecWrapper` does what a `Vec` does.**  A sequence of operations returns, with the
elements of a `Vec` after each, exactly when all are harmless; `remove` does the same with both kinds of
keys exactly when no key is behind the removed ones; `merge` exactly when nothing is merged. -/
theorem secretVec_agrees_iff :
    (∀ (fresh : Nat → T) (self : SecretVecWrapper T) (ops : List (SeqOp T)),
        self.contents.length < usizeSize →
        ((∃ hist, afterEach (SeqOp.onSecret fresh) self ops = .ok hist ∧
            afterEach SeqOp.onVec self.contents ops = .ok (hist.map SecretVecWrapper.contents)) ↔
          AllHarmless self.contents ops)) ∧
      (∀ (fresh : Nat → Nat) (keeps : Ent → List T → Prop) (arr : SecretKeyed Ent) (chunks : List (List T))
        (entryIdx : Nat), WellFormed keeps arr.plain chunks → chunks.length < usizeSize →
        ((arr.remove fresh entryIdx).map SecretKeyed.plain = arr.plain.remove entryIdx ↔
          chunks.length ≤ entryIdx + 1)) ∧
      ∀ (fresh : Nat → Nat) (keeps : Ent → List T → Prop) (arr rhs : SecretKeyed Ent)
        (chunks more : List (List T)), WellFormed keeps arr.plain chunks → WellFormed keeps rhs.plain more →
        chunks.length < usizeSize → (chunks ++ more).flatten.length < usizeSize →
        ((arr.merge fresh rhs).map SecretKeyed.plain = arr.plain.merge rhs.plain ↔ more = []) :=
  ⟨fun _ _ ops hfits => afterEach_iff hfits ops,
    fun _ _ _ _ entryIdx hwf hfits => SecretKeyed.remove_iff hwf hfits entryIdx,
    fun _ _ _ _ _ _ hwf hrhs hfits hsum => SecretKeyed.merge_iff hwf hrhs hfits hsum⟩

/-- Two elements, of which the first is removed. -/
theorem secretVec_remove_front :
    SecretVecWrapper.cRemove (fun _ => 219) { contents := [1, 2] } 0 = .error .explicit ∧
      removeAt [1, 2] 0 = .ok [2] ∧
      ¬∃ hist, afterEach (SeqOp.onSecret fun _ => 219) { contents := [1, 2] } [.remove 0] = .ok hist ∧
        afterEach SeqOp.onVec [1, 2] [.remove 0] = .ok (hist.map SecretVecWrapper.contents) := by
  refine ⟨rfl, rfl, ?_⟩
  rintro ⟨hist, hsecret, -⟩
  cases hsecret

/-- A run that pushes, removes what it pushed, and appends nothing. -/
theorem secretVec_agrees_pushed :
    ∃ hist, afterEach (SeqOp.onSecret fun _ => 219) { contents := [1] } [.push 2, .remove 1, .append []] =
        .ok hist ∧
      afterEach SeqOp.onVec [1] [.push 2, .remove 1, .append []] =
        .ok (hist.map SecretVecWrapper.contents) := by
  have hpush : [1].length + 1 < usizeSize := by decide
  refine ((@secretVec_agrees_iff Nat Nat).1 (fun _ => 219) { contents := [1] }
    [.push 2, .remove 1, .append []] (by decide)).mpr ⟨hpush, fun ys hys => ?_⟩
  cases hys
  refine ⟨rfl, fun ys hys => ?_⟩
  cases hys
  exact ⟨rfl, fun _ _ => trivial⟩

end BackedData.Array
