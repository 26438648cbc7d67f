/-
# BackedData.Logic.Buffer — slices of a buffer, and copies between them

The accesses a loop makes that moves elements between buffers with bounds it has computed by hand: a slice,
an assignment at an index, and `copyFromSlice`, which stops the call where the two slices differ in length.
Each comes with what it returns where its bounds are right, and with what is known if it returned.
-/
import BackedData.Logic.Outcome

namespace Logic.Buffer

open Logic.Outcome

set_option autoImplicit false

universe u

variable {α : Type u}

/-- `xs[start..stop]`. -/
def sliceOf (xs : List α) (start stop : Nat) : Exec (List α) :=
  if start ≤ stop ∧ stop ≤ xs.length then .ok ((xs.take stop).drop start) else .error .indexOutOfBounds

/-- `xs[i] = x`. -/
def assign (xs : List α) (i : Nat) (x : α) : Exec (List α) :=
  if i < xs.length then .ok (xs.set i x) else .error .indexOutOfBounds

/-- `xs[start..stop].copy_from_slice(src)`. -/
def copyFromSlice (xs : List α) (start stop : Nat) (src : List α) : Exec (List α) :=
  if start ≤ stop ∧ stop ≤ xs.length then
    if stop - start = src.length then .ok (xs.take start ++ src ++ xs.drop stop) else .error .explicit
  else .error .indexOutOfBounds

variable {xs src ys : List α} {start stop i : Nat} {x : α}

theorem sliceOf_ok (hstart : start ≤ stop) (hstop : stop ≤ xs.length) :
    sliceOf xs start stop = .ok ((xs.take stop).drop start) := if_pos ⟨hstart, hstop⟩

theorem sliceOf_inv (h : sliceOf xs start stop = .ok ys) :
    start ≤ stop ∧ stop ≤ xs.length ∧ ys = (xs.take stop).drop start := by
  unfold sliceOf at h
  split at h
  · next hbounds => exact ⟨hbounds.1, hbounds.2, (Except.ok.inj h).symm⟩
  · cases h

/-- The length of a slice. -/
theorem sliceOf_length (h : sliceOf xs start stop = .ok ys) : ys.length = stop - start := by
  obtain ⟨-, hstop, rfl⟩ := sliceOf_inv h
  rw [List.length_drop, List.length_take, Nat.min_eq_left hstop]

theorem assign_ok (h : i < xs.length) : assign xs i x = .ok (xs.set i x) := if_pos h

theorem copyFromSlice_ok (hstart : start ≤ stop) (hstop : stop ≤ xs.length)
    (hsrc : stop - start = src.length) :
    copyFromSlice xs start stop src = .ok (xs.take start ++ src ++ xs.drop stop) := by
  unfold copyFromSlice
  rw [if_pos ⟨hstart, hstop⟩, if_pos hsrc]

/-- Over the whole buffer. -/
theorem copyFromSlice_whole (h : xs.length = src.length) : copyFromSlice xs 0 xs.length src = .ok src := by
  rw [copyFromSlice_ok (Nat.zero_le _) (Nat.le_refl _) h]
  simp

/-- Over the front of the buffer. -/
theorem copyFromSlice_front (h : src.length ≤ xs.length) :
    copyFromSlice xs 0 src.length src = .ok (src ++ xs.drop src.length) := by
  rw [copyFromSlice_ok (Nat.zero_le _) h (Nat.sub_zero _)]
  rfl

theorem copyFromSlice_inv (h : copyFromSlice xs start stop src = .ok ys) :
    start ≤ stop ∧ stop ≤ xs.length ∧ stop - start = src.length ∧
      ys = xs.take start ++ src ++ xs.drop stop := by
  unfold copyFromSlice at h
  split at h
  · next hbounds =>
      split at h
      · next hsrc => exact ⟨hbounds.1, hbounds.2, hsrc, (Except.ok.inj h).symm⟩
      · cases h
  · cases h

end Logic.Buffer
