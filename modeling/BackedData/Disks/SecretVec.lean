/-
# BackedData.Disks.SecretVec — secret vectors, and how one is read from a sequence

A `SecretVec` cannot grow: whatever changes its length allocates another one and copies.  `SecretVecVisitor`
reads a sequence of unknown length that way, from a first buffer as long as the sequence says it might be,
which it doubles when it is full and shrinks when the sequence has ended.

`visitSeq_exact` says when that gives the sequence: not where the first buffer is empty, since twice nothing
is nothing and the first element is assigned outside of it, and not where one of the buffers is more than
can be allocated.  What is granted, and what is in it, is the parameter `memory`.
-/
import BackedData.Logic.Buffer

namespace BackedData.Disks

open Logic.Outcome
open Logic.Buffer

set_option autoImplicit false

variable {T E : Type}

/-- `SecretVecWrapper`, over the `SecretVec` it wraps. -/
structure SecretVecWrapper (T : Type) where
  contents : List T
  deriving DecidableEq, Repr

/-- The protected memory: which numbers of elements it grants an allocation of, and what is in a fresh one. -/
structure SecretMemory (T : Type) where
  grants : Nat → Bool
  fresh : Nat → T

/-- A memory that grants what it is asked for. -/
def SecretMemory.ample (fresh : Nat → T) : SecretMemory T := { grants := fun _ => true, fresh }

/-- What is in a fresh allocation. -/
def freshMemory (fresh : Nat → T) (len : Nat) : List T := (List.range len).map fresh

@[simp] theorem freshMemory_length (fresh : Nat → T) (len : Nat) : (freshMemory fresh len).length = len := by
  simp [freshMemory]

/-- `SecretVec::random`: a fresh allocation; one that is refused stops the call. -/
def SecretVec.random (memory : SecretMemory T) (len : Nat) : Exec (List T) :=
  if memory.grants len then .ok (freshMemory memory.fresh len) else .error .explicit

/-- `SecretVec::new`: a fresh allocation, filled by `f`. -/
def SecretVec.new (memory : SecretMemory T) (len : Nat) (f : List T → Exec (List T)) : Exec (List T) := do
  let s ← SecretVec.random memory len
  f s

theorem SecretVec.new_ample (fresh : Nat → T) (len : Nat) (f : List T → Exec (List T)) :
    SecretVec.new (.ample fresh) len f = f (freshMemory fresh len) := rfl

section Memory

variable {memory : SecretMemory T} {len : Nat} {f : List T → Exec (List T)} {xs : List T}

theorem SecretVec.new_granted (h : memory.grants len = true) :
    SecretVec.new memory len f = f (freshMemory memory.fresh len) := by
  unfold SecretVec.new SecretVec.random
  rw [if_pos h]
  rfl

theorem SecretVec.new_refused (h : memory.grants len = false) :
    SecretVec.new memory len f = .error .explicit := by
  unfold SecretVec.new SecretVec.random
  rw [if_neg (Bool.eq_false_iff.mp h)]
  rfl

end Memory

/-! ## `SecretVecVisitor` -/

/-- The buffer a sequence is read into without a hint. -/
def sizeGuess : Nat := 16

/-- `usize::MAX`. -/
def usizeMax : Nat := usizeSize - 1

/-- Double the capacity if it has been filled; `None` is the error that there is none above it. -/
def growFilled (memory : SecretMemory T) (secretVec : List T) (filledLen : Nat) : Exec (Option (List T)) :=
  if filledLen ≥ secretVec.length then
    if secretVec.length = usizeMax then pure none
    else do
      let grown ← SecretVec.new memory (min (secretVec.length * 2) usizeMax) fun s =>
        copyFromSlice s 0 secretVec.length secretVec
      pure (some grown)
  else pure (some secretVec)

/-- The loop of `visit_seq`, over what the accessor has yet to return. -/
def fillFrom (custom : String → E) (memory : SecretMemory T) :
    List (Except E T) → List T → Nat → Exec (Except E (List T × Nat))
  | [], secretVec, filledLen => pure (.ok (secretVec, filledLen))
  | .error e :: _, _, _ => pure (.error e)
  | .ok next :: seq, secretVec, filledLen => do
      match ← growFilled memory secretVec filledLen with
      | none => pure (.error (custom "sequence length is above usize limit"))
      | some secretVec =>
          let secretVec ← assign secretVec filledLen next
          let filledLen ← usizeAdd filledLen 1
          fillFrom custom memory seq secretVec filledLen

/-- `visit_seq`. -/
def visitSeq (custom : String → E) (memory : SecretMemory T) (sizeHint : Option Nat)
    (seq : List (Except E T)) : Exec (Except E (SecretVecWrapper T)) := do
  let secretVec ← SecretVec.random memory (sizeHint.getD sizeGuess)
  match ← fillFrom custom memory seq secretVec 0 with
  | .error e => pure (.error e)
  | .ok (secretVec, filledLen) =>
      if secretVec.length > filledLen then do
        let secretVec ← SecretVec.new memory filledLen fun s => do
          let filled ← sliceOf secretVec 0 filledLen
          copyFromSlice s 0 s.length filled
        pure (.ok { contents := secretVec })
      else pure (.ok { contents := secretVec })

/-! ## The buffers -/

/-- **`Buffers cap n len`** — for `n` elements a buffer of `cap` is used, or doubled often enough, and one of
these buffers is of `len`. -/
def Buffers (cap n len : Nat) : Prop :=
  len = cap ∨ ∃ k, cap * 2 ^ k < n ∧ len = min (cap * 2 ^ (k + 1)) usizeMax

/-- A buffer that is not full at the end is the only one. -/
theorem buffers_enough {cap n len : Nat} (h : n ≤ cap) : Buffers cap n len ↔ len = cap := by
  refine ⟨fun hlen => ?_, Or.inl⟩
  rcases hlen with hlen | ⟨k, hlt, -⟩
  · exact hlen
  · have hgrow : cap ≤ cap * 2 ^ k := Nat.le_mul_of_pos_right cap (Nat.two_pow_pos k)
    omega

/-- Behind one that is full come those of its double. -/
theorem buffers_double {cap n len : Nat} (h : cap < n) (hlimit : n < usizeSize) :
    Buffers cap n len ↔ len = cap ∨ Buffers (min (cap * 2) usizeMax) n len := by
  unfold Buffers
  refine or_congr_right ?_
  have hdouble : ∀ k, cap * 2 ^ (k + 1) = cap * 2 * 2 ^ k := fun k => by
    rw [Nat.pow_succ', ← Nat.mul_assoc]
  have hle : n ≤ usizeMax := by
    unfold usizeMax
    omega
  by_cases hfits : cap * 2 ≤ usizeMax
  · rw [Nat.min_eq_left hfits]
    constructor
    · rintro ⟨k, hlt, rfl⟩
      cases k with
      | zero => exact Or.inl (by rw [Nat.zero_add, Nat.pow_one, Nat.min_eq_left hfits])
      | succ k => exact Or.inr ⟨k, hdouble k ▸ hlt, by rw [hdouble (k + 1)]⟩
    · rintro (rfl | ⟨k, hlt, rfl⟩)
      · exact ⟨0, by omega, by rw [Nat.zero_add, Nat.pow_one, Nat.min_eq_left hfits]⟩
      · exact ⟨k + 1, by rw [hdouble k]; exact hlt, by rw [hdouble (k + 1)]⟩
  · -- there is no capacity above, and this one is enough
    have hmax : min (cap * 2) usizeMax = usizeMax := Nat.min_eq_right (by omega)
    have hbeyond : ∀ k, usizeMax ≤ cap * 2 ^ (k + 1) := fun k => by
      have hgrow : cap * 2 ≤ cap * 2 * 2 ^ k := Nat.le_mul_of_pos_right _ (Nat.two_pow_pos k)
      rw [hdouble k]
      omega
    rw [hmax]
    constructor
    · rintro ⟨k, -, rfl⟩
      exact Or.inl (Nat.min_eq_right (hbeyond k))
    · rintro (rfl | ⟨k, hlt, -⟩)
      · exact ⟨0, by omega, (Nat.min_eq_right (hbeyond 0)).symm⟩
      · have hgrow : usizeMax ≤ usizeMax * 2 ^ k := Nat.le_mul_of_pos_right _ (Nat.two_pow_pos k)
        omega

/-- Only one of them has room for all elements. -/
theorem buffers_last {cap n a b : Nat} (ha : Buffers cap n a) (hb : Buffers cap n b) (han : n ≤ a)
    (hbn : n ≤ b) : a = b := by
  -- a capacity doubled more often has been doubled from one that was too small
  have hless : ∀ {k j : Nat}, k < j → cap * 2 ^ j < n → min (cap * 2 ^ (k + 1)) usizeMax < n := by
    intro k j hkj hlt
    have hpow : 2 ^ (k + 1) ≤ 2 ^ j := Nat.pow_le_pow_right (by omega) hkj
    have hgrow : cap * 2 ^ (k + 1) ≤ cap * 2 ^ j := Nat.mul_le_mul_left cap hpow
    omega
  rcases ha with rfl | ⟨k, hk, rfl⟩
  · exact ((buffers_enough han).mp hb).symm
  rcases hb with rfl | ⟨j, hj, rfl⟩
  · exact (buffers_enough hbn).mp (Or.inr ⟨k, hk, rfl⟩)
  rcases Nat.lt_trichotomy k j with hkj | rfl | hjk
  · exact absurd han (Nat.not_le_of_lt (hless hkj hj))
  · rfl
  · exact absurd hbn (Nat.not_le_of_lt (hless hjk hk))

/-- **`Granted memory hint n`** — every buffer for `n` elements can be allocated, from the first one of `hint`
on; and if one of them has more room than is needed, one of exactly `n` too. -/
structure Granted (memory : SecretMemory T) (hint n : Nat) : Prop where
  buffers : ∀ len, Buffers hint n len → memory.grants len = true
  exactly : ∀ len, Buffers hint n len → n < len → memory.grants n = true

/-! ## The loop -/

/-- **`Filled secretVec filled`** — the buffer begins with what has been read. -/
def Filled (secretVec filled : List T) : Prop := ∃ spare, secretVec = filled ++ spare

theorem Filled.length_le {secretVec filled : List T} (h : Filled secretVec filled) :
    filled.length ≤ secretVec.length := by
  obtain ⟨spare, rfl⟩ := h
  rw [List.length_append]
  omega

/-- **Growing** a full buffer: a larger one that begins with it, if that can be allocated. -/
theorem growFilled_full (memory : SecretMemory T) (filled : List T) (hlimit : filled.length + 1 < usizeSize) :
    growFilled memory filled filled.length =
      if memory.grants (min (filled.length * 2) usizeMax) = true then
        .ok (some (filled ++ (freshMemory memory.fresh (min (filled.length * 2) usizeMax)).drop filled.length))
      else .error .explicit := by
  have hmax : filled.length ≠ usizeMax := by
    unfold usizeMax
    omega
  unfold growFilled
  rw [if_pos (Nat.le_refl _), if_neg hmax]
  by_cases hgrants : memory.grants (min (filled.length * 2) usizeMax) = true
  · have hcopy : copyFromSlice (freshMemory memory.fresh (min (filled.length * 2) usizeMax)) 0 filled.length
        filled =
        .ok (filled ++ (freshMemory memory.fresh (min (filled.length * 2) usizeMax)).drop filled.length) := by
      apply copyFromSlice_front
      rw [freshMemory_length]
      unfold usizeMax
      omega
    rw [if_pos hgrants, SecretVec.new_granted hgrants, hcopy]
    rfl
  · rw [if_neg hgrants, SecretVec.new_refused (Bool.eq_false_iff.mpr hgrants)]
    rfl

/-- The element behind what has been read. -/
theorem Filled.push {secretVec filled : List T} (h : Filled secretVec filled) (x : T)
    (hroom : filled.length < secretVec.length) :
    assign secretVec filled.length x = .ok (secretVec.set filled.length x) ∧
      Filled (secretVec.set filled.length x) (filled ++ [x]) := by
  refine ⟨assign_ok hroom, ?_⟩
  obtain ⟨spare, rfl⟩ := h
  rw [List.length_append] at hroom
  rcases spare with _ | ⟨y, spare⟩
  · exact absurd hroom (Nat.lt_irrefl _)
  · refine ⟨spare, ?_⟩
    rw [List.set_append_right _ _ (Nat.le_refl _), Nat.sub_self]
    simp

/-- **`Reads memory custom secretVec filled elems`** — the loop reads these elements: with every buffer it
needs, or it stops at one that it does not get. -/
inductive Reads (memory : SecretMemory T) (custom : String → E) (secretVec filled elems : List T) : Prop
  | all (secretVec' : List T)
      (run : fillFrom custom memory (elems.map .ok) secretVec filled.length =
        .ok (.ok (secretVec', (filled ++ elems).length)))
      (holds : Filled secretVec' (filled ++ elems))
      (last : Buffers secretVec.length (filled ++ elems).length secretVec'.length)
      (granted : ∀ len, Buffers secretVec.length (filled ++ elems).length len →
        len = secretVec.length ∨ memory.grants len = true)
  | stopped (run : fillFrom custom memory (elems.map .ok) secretVec filled.length = .error .explicit)
      (len : Nat) (needed : Buffers secretVec.length (filled ++ elems).length len)
      (refused : memory.grants len = false)

/-- An element for which there is room. -/
theorem Reads.step {memory : SecretMemory T} {custom : String → E} {secretVec filled elems : List T} {x : T}
    (h : Filled secretVec filled) (hroom : filled.length < secretVec.length)
    (hlimit : filled.length + 1 < usizeSize)
    (hrest : Reads memory custom (secretVec.set filled.length x) (filled ++ [x]) elems) :
    Reads memory custom secretVec filled (x :: elems) := by
  have hrun : fillFrom custom memory ((x :: elems).map .ok) secretVec filled.length =
      fillFrom custom memory (elems.map .ok) (secretVec.set filled.length x) (filled ++ [x]).length := by
    rw [List.map_cons, fillFrom, growFilled, if_neg (Nat.not_le_of_lt hroom)]
    simp only [exec_pure, exec_bind_ok, (h.push x hroom).1, usizeAdd_ok hlimit, List.length_append,
      List.length_singleton]
  have happend : filled ++ [x] ++ elems = filled ++ x :: elems := by
    rw [List.append_assoc, List.singleton_append]
  cases hrest with
  | all secretVec' run holds last granted =>
      rw [happend, List.length_set] at last granted
      rw [happend] at run holds
      exact .all secretVec' (hrun.trans run) holds last granted
  | stopped run len needed refused =>
      rw [happend, List.length_set] at needed
      exact .stopped (hrun.trans run) len needed refused

/-- **The run lemma**: a buffer that is not empty, and as many elements as a `usize` counts. -/
theorem fillFrom_reads (custom : String → E) (memory : SecretMemory T) (elems : List T)
    {secretVec filled : List T} (h : Filled secretVec filled) (hroom : 0 < secretVec.length)
    (hlimit : filled.length + elems.length < usizeSize) :
    Reads memory custom secretVec filled elems := by
  induction elems generalizing secretVec filled with
  | nil =>
      refine .all secretVec (by rw [List.append_nil]; rfl) (by rwa [List.append_nil]) (Or.inl rfl) ?_
      intro len hlen
      rw [List.append_nil, buffers_enough h.length_le] at hlen
      exact Or.inl hlen
  | cons x elems ih =>
      rw [List.length_cons] at hlimit
      have hnext : ∀ {v : List T}, Filled v filled → filled.length < v.length →
          Reads memory custom v filled (x :: elems) := by
        intro v hv hlt
        refine .step hv hlt (by omega) (ih (hv.push x hlt).2 ?_ ?_)
        · rw [List.length_set]
          omega
        · rw [List.length_append, List.length_singleton]
          omega
      by_cases hspare : filled.length < secretVec.length
      · exact hnext h hspare
      -- the buffer is full, and is what has been read
      have hfull : secretVec = filled := by
        obtain ⟨spare, rfl⟩ := h
        rw [List.length_append] at hspare
        rw [List.eq_nil_of_length_eq_zero (l := spare) (by omega), List.append_nil]
      subst hfull
      have htotal : secretVec.length < (secretVec ++ x :: elems).length := by
        rw [List.length_append, List.length_cons]
        omega
      have hcount : (secretVec ++ x :: elems).length < usizeSize := by
        rw [List.length_append, List.length_cons]
        omega
      have hgrow := growFilled_full memory secretVec (by omega)
      by_cases hgrants : memory.grants (min (secretVec.length * 2) usizeMax) = true
      · rw [if_pos hgrants] at hgrow
        generalize hgrown : secretVec ++ (freshMemory memory.fresh
          (min (secretVec.length * 2) usizeMax)).drop secretVec.length = grown at hgrow
        have hlen : grown.length = min (secretVec.length * 2) usizeMax := by
          rw [← hgrown, List.length_append, List.length_drop, freshMemory_length]
          unfold usizeMax
          omega
        have hlt : secretVec.length < grown.length := by
          rw [hlen]
          unfold usizeMax
          omega
        -- the full buffer and the grown one are read into alike
        have hrun : fillFrom custom memory ((x :: elems).map .ok) secretVec secretVec.length =
            fillFrom custom memory ((x :: elems).map .ok) grown secretVec.length := by
          rw [List.map_cons, fillFrom, fillFrom, hgrow, growFilled, if_neg (Nat.not_le_of_lt hlt)]
          rfl
        have hbuffers : ∀ len, Buffers secretVec.length (secretVec ++ x :: elems).length len ↔
            len = secretVec.length ∨ Buffers grown.length (secretVec ++ x :: elems).length len := fun len => by
          rw [hlen]
          exact buffers_double htotal hcount
        cases hnext ⟨_, hgrown.symm⟩ hlt with
        | all secretVec' run holds last granted =>
            refine .all secretVec' (hrun.trans run) holds ((hbuffers _).mpr (Or.inr last)) fun len hneeded => ?_
            rcases (hbuffers len).mp hneeded with hfirst | hlater
            · exact Or.inl hfirst
            · rcases granted len hlater with rfl | hgranted
              · exact Or.inr (by rw [hlen]; exact hgrants)
              · exact Or.inr hgranted
        | stopped run len needed refused =>
            exact .stopped (hrun.trans run) len ((hbuffers len).mpr (Or.inr needed)) refused
      · rw [if_neg hgrants] at hgrow
        refine .stopped ?_ _ ((buffers_double htotal hcount).mpr (Or.inr (Or.inl rfl)))
          (Bool.eq_false_iff.mpr hgrants)
        rw [List.map_cons, fillFrom, hgrow]
        rfl

/-- No run reads more elements than a `usize` counts. -/
theorem fillFrom_limit {custom : String → E} {memory : SecretMemory T} {elems : List T}
    {secretVec secretVec' : List T}
    {filledLen filledLen' : Nat} (hlen : filledLen < usizeSize)
    (h : fillFrom custom memory (elems.map .ok) secretVec filledLen = .ok (.ok (secretVec', filledLen'))) :
    filledLen + elems.length < usizeSize := by
  induction elems generalizing secretVec filledLen with
  | nil => exact hlen
  | cons x elems ih =>
      rw [List.map_cons, fillFrom] at h
      obtain ⟨_ | grown, -, h⟩ := exec_bind_inv h
      · cases h
      · obtain ⟨assigned, -, h⟩ := exec_bind_inv h
        obtain ⟨filledLen₁, hadd, h⟩ := exec_bind_inv h
        have hfits : filledLen + 1 < usizeSize := by
          unfold usizeAdd at hadd
          split at hadd
          · next hlt => exact hlt
          · cases hadd
        obtain rfl := usizeAdd_inv hadd
        have hrest := ih hfits h
        rw [List.length_cons]
        omega

/-- An empty buffer stays empty, and has no room for the first element. -/
theorem fillFrom_empty (custom : String → E) (memory : SecretMemory T) (x : T) (seq : List (Except E T)) :
    ∃ p, fillFrom custom memory (.ok x :: seq) [] 0 = .error p := by
  have hgrow := growFilled_full memory [] (Nat.one_lt_two_pow (by decide))
  by_cases hgrants : memory.grants (min (([] : List T).length * 2) usizeMax) = true
  · rw [if_pos hgrants] at hgrow
    refine ⟨.indexOutOfBounds, ?_⟩
    rw [fillFrom, show growFilled memory [] 0 = _ from hgrow]
    rfl
  · rw [if_neg hgrants] at hgrow
    refine ⟨.explicit, ?_⟩
    rw [fillFrom, show growFilled memory [] 0 = _ from hgrow]
    rfl

/-- What is shrunk to fit is what has been read. -/
theorem shrink_filled {memory : SecretMemory T} {secretVec filled : List T} (h : Filled secretVec filled)
    (hgrants : memory.grants filled.length = true) :
    (SecretVec.new memory filled.length fun s => do
      let front ← sliceOf secretVec 0 filled.length
      copyFromSlice s 0 s.length front) = .ok filled := by
  have hle := h.length_le
  obtain ⟨spare, rfl⟩ := h
  rw [SecretVec.new_granted hgrants]
  simp only [sliceOf_ok (Nat.zero_le _) hle, exec_bind_ok, List.drop_zero, List.take_left]
  exact copyFromSlice_whole (freshMemory_length _ _)

/-- **When `visit_seq` is right.**  It returns the elements of the sequence exactly when the hint is not
zero, or there are none, a `usize` counts them, and every buffer that they need can be allocated. -/
theorem visitSeq_exact (custom : String → E) (memory : SecretMemory T) (sizeHint : Option Nat)
    (elems : List T) :
    visitSeq custom memory sizeHint (elems.map .ok) = .ok (.ok { contents := elems }) ↔
      (sizeHint = some 0 → elems = []) ∧ elems.length < usizeSize ∧
        Granted memory (sizeHint.getD sizeGuess) elems.length := by
  unfold visitSeq
  by_cases hfirst : memory.grants (sizeHint.getD sizeGuess) = true
  swap
  · -- not even the first buffer can be allocated
    have hrefused : SecretVec.random memory (sizeHint.getD sizeGuess) = .error .explicit := if_neg hfirst
    rw [hrefused]
    exact ⟨nofun, fun ⟨_, _, hgranted⟩ => absurd (hgranted.buffers _ (Or.inl rfl)) hfirst⟩
  have hrandom : SecretVec.random memory (sizeHint.getD sizeGuess) =
      .ok (freshMemory memory.fresh (sizeHint.getD sizeGuess)) := if_pos hfirst
  rw [hrandom, exec_bind_ok]
  by_cases hlimit : elems.length < usizeSize
  swap
  · -- the count of the elements that are read would have overflowed
    refine ⟨fun h => absurd ?_ hlimit, fun h => absurd h.2.1 hlimit⟩
    obtain ⟨e | ⟨secretVec, filledLen⟩, hfill, h⟩ := exec_bind_inv h
    · cases h
    · have hcount := fillFrom_limit (Nat.two_pow_pos 64) hfill
      omega
  by_cases hpos : 0 < sizeHint.getD sizeGuess
  · have hhint : sizeHint = some 0 → elems = [] := by
      rintro rfl
      exact absurd hpos (Nat.lt_irrefl 0)
    have hnone : Filled (freshMemory memory.fresh (sizeHint.getD sizeGuess)) [] := ⟨_, rfl⟩
    have hroom : 0 < (freshMemory memory.fresh (sizeHint.getD sizeGuess)).length := by
      rwa [freshMemory_length]
    cases fillFrom_reads custom memory elems hnone hroom (by rwa [List.length_nil, Nat.zero_add]) with
    | all secretVec run holds last granted =>
        rw [freshMemory_length, List.nil_append] at last granted
        rw [List.nil_append] at run holds
        have hall : ∀ len, Buffers (sizeHint.getD sizeGuess) elems.length len → memory.grants len = true :=
          fun len hlen => (granted len hlen).elim (fun heq => heq ▸ hfirst) id
        rw [show ([] : List T).length = 0 from rfl] at run
        rw [run, exec_bind_ok]
        dsimp only
        by_cases hspare : secretVec.length > elems.length
        · rw [if_pos hspare]
          by_cases hgrants : memory.grants elems.length = true
          · rw [shrink_filled holds hgrants]
            exact ⟨fun _ => ⟨hhint, hlimit, hall, fun _ _ _ => hgrants⟩, fun _ => rfl⟩
          · rw [SecretVec.new_refused (Bool.eq_false_iff.mpr hgrants)]
            exact ⟨nofun, fun h => absurd (h.2.2.exactly _ last hspare) hgrants⟩
        · -- the last buffer is full, and returned as it is
          obtain ⟨spare, rfl⟩ := holds
          have hnospare : spare = [] := by
            rw [List.length_append] at hspare
            exact List.eq_nil_of_length_eq_zero (by omega)
          rw [if_neg hspare, hnospare, List.append_nil]
          refine ⟨fun _ => ⟨hhint, hlimit, hall, fun len hlen hlt => ?_⟩, fun _ => rfl⟩
          rw [hnospare, List.append_nil] at last
          have hsame := buffers_last last hlen (Nat.le_refl _) (Nat.le_of_lt hlt)
          omega
    | stopped run len needed refused =>
        -- the buffer that is refused is one that the elements need
        rw [freshMemory_length, List.nil_append] at needed
        rw [show ([] : List T).length = 0 from rfl] at run
        rw [run]
        refine ⟨nofun, fun h => ?_⟩
        rw [h.2.2.buffers len needed] at refused
        cases refused
  · have hzero : sizeHint = some 0 := by
      rcases sizeHint with _ | n
      · exact absurd (Nat.succ_pos _) hpos
      · exact congrArg some (by simpa using hpos)
    subst hzero
    rcases elems with _ | ⟨x, elems⟩
    · refine ⟨fun _ => ⟨fun _ => rfl, hlimit, fun len hlen => ?_, fun len hlen hlt => ?_⟩, fun _ => rfl⟩
      · rw [(buffers_enough (Nat.le_refl 0)).mp hlen]
        exact hfirst
      · rw [(buffers_enough (Nat.le_refl 0)).mp hlen] at hlt
        exact absurd hlt (Nat.lt_irrefl 0)
    · obtain ⟨p, hpanic⟩ := fillFrom_empty custom memory x (elems.map .ok)
      rw [List.map_cons, show freshMemory memory.fresh ((some 0).getD sizeGuess) = [] from rfl, hpanic]
      exact ⟨nofun, fun h => absurd (h.1 rfl) nofun⟩

/-- One element, of which the accessor says that there is none. -/
theorem visitSeq_hint_zero :
    visitSeq id (.ample fun _ => 219) (some 0) [.ok 7] = .error .indexOutOfBounds ∧
      visitSeq id (.ample fun _ => 219) (some 0) [.ok 7] ≠ .ok (.ok { contents := [7] }) := ⟨rfl, nofun⟩

example : visitSeq id (.ample fun _ => 219) (some 1) [.ok 7, .ok 8, .ok 9] =
    .ok (.ok { contents := [7, 8, 9] }) := rfl

/-- A hint that is more than can be allocated. -/
example : visitSeq id { grants := (· < 4096), fresh := fun _ => 219 } (some usizeMax) [.ok 7] =
    .error .explicit := rfl

end BackedData.Disks
