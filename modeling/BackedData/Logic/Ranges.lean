/-
# BackedData.Logic.Ranges — a sequence cut into consecutive ranges

A sequence stored in pieces is addressed through the starts and the (exclusive) ends of its pieces.
This module is the general theory of that layout, over arbitrary piece widths: `startsFrom`/`endsFrom`
lay the ranges out from the widths, `Consecutive` recognises such a layout from the outside (first
start zero, each start the previous end, each end its start plus a width), and the two agree
(`consecutive_iff`).  On top of it sit the three editing operations on a layout — append a piece,
concatenate two layouts, erase a piece and shift what follows — and the addressing lemmas: where an
absolute position lands in the flattened pieces, and what a binary search over the range ends may
answer (`BinarySearch`, the documented contract, which leaves the choice among equal keys open).
-/
import Mathlib.Algebra.Ring.Nat
import Mathlib.Data.List.Basic
import Mathlib.Data.List.Forall2
import Mathlib.Data.Nat.Basic
import Mathlib.Order.Lattice
import Mathlib.Tactic.Common

namespace Logic.Ranges

/-! ## Laying ranges out from their widths -/

/-- The start of every range, when the first one begins at `base`. -/
def startsFrom (base : Nat) : List Nat → List Nat
  | [] => []
  | w :: ws => base :: startsFrom (base + w) ws

/-- The exclusive end of every range, when the first one begins at `base`. -/
def endsFrom (base : Nat) : List Nat → List Nat
  | [] => []
  | w :: ws => (base + w) :: endsFrom (base + w) ws

@[simp] theorem startsFrom_length (base : Nat) (ws : List Nat) :
    (startsFrom base ws).length = ws.length := by
  induction ws generalizing base with
  | nil => rfl
  | cons w ws ih => simp only [startsFrom, List.length_cons, ih]

@[simp] theorem endsFrom_length (base : Nat) (ws : List Nat) :
    (endsFrom base ws).length = ws.length := by
  induction ws generalizing base with
  | nil => rfl
  | cons w ws ih => simp only [endsFrom, List.length_cons, ih]

/-- **Start of range `i`**: the base plus the widths before it. -/
theorem startsFrom_getElem? (base : Nat) (ws : List Nat) {i : Nat} (hi : i < ws.length) :
    (startsFrom base ws)[i]? = some (base + (ws.take i).sum) := by
  induction ws generalizing base i with
  | nil => exact absurd hi (Nat.not_lt_zero i)
  | cons w ws ih =>
      cases i with
      | zero => simp [startsFrom]
      | succ i =>
          have h := ih (base + w) (Nat.lt_of_succ_lt_succ hi)
          simp only [startsFrom, List.getElem?_cons_succ, h, List.take_succ_cons, List.sum_cons,
            Nat.add_assoc]

/-- **End of range `i`**: the base plus the widths up to and including it. -/
theorem endsFrom_getElem? (base : Nat) (ws : List Nat) {i : Nat} (hi : i < ws.length) :
    (endsFrom base ws)[i]? = some (base + (ws.take (i + 1)).sum) := by
  induction ws generalizing base i with
  | nil => exact absurd hi (Nat.not_lt_zero i)
  | cons w ws ih =>
      cases i with
      | zero => simp [endsFrom]
      | succ i =>
          have h := ih (base + w) (Nat.lt_of_succ_lt_succ hi)
          simp only [endsFrom, List.getElem?_cons_succ, h, List.take_succ_cons, List.sum_cons,
            Nat.add_assoc]

/-- The last end, or the base when there is no range. -/
theorem endsFrom_getLast?_getD (base : Nat) (ws : List Nat) :
    (endsFrom base ws).getLast?.getD base = base + ws.sum := by
  induction ws generalizing base with
  | nil => rfl
  | cons w ws ih =>
      have h := ih (base + w)
      simp only [endsFrom, List.getLast?_cons, Option.getD_some, List.sum_cons] at h ⊢
      rw [h, Nat.add_assoc]

theorem startsFrom_add (base k : Nat) (ws : List Nat) :
    startsFrom (base + k) ws = (startsFrom base ws).map (· + k) := by
  induction ws generalizing base with
  | nil => rfl
  | cons w ws ih =>
      simp only [startsFrom, List.map_cons]
      rw [Nat.add_right_comm, ih]

theorem endsFrom_add (base k : Nat) (ws : List Nat) :
    endsFrom (base + k) ws = (endsFrom base ws).map (· + k) := by
  induction ws generalizing base with
  | nil => rfl
  | cons w ws ih =>
      simp only [endsFrom, List.map_cons]
      rw [Nat.add_right_comm, ih]

/-- No range starts behind the end of the layout. -/
theorem le_sum_of_mem_startsFrom (base : Nat) (ws : List Nat) {x : Nat}
    (hx : x ∈ startsFrom base ws) : x ≤ base + ws.sum := by
  induction ws generalizing base with
  | nil => exact absurd hx List.not_mem_nil
  | cons w ws ih =>
      rw [List.sum_cons, ← Nat.add_assoc]
      rcases List.mem_cons.mp hx with rfl | hx
      · omega
      · exact ih (base + w) hx

/-- No range ends behind the end of the layout. -/
theorem le_sum_of_mem_endsFrom (base : Nat) (ws : List Nat) {x : Nat}
    (hx : x ∈ endsFrom base ws) : x ≤ base + ws.sum := by
  induction ws generalizing base with
  | nil => exact absurd hx List.not_mem_nil
  | cons w ws ih =>
      rw [List.sum_cons, ← Nat.add_assoc]
      rcases List.mem_cons.mp hx with rfl | hx
      · omega
      · exact ih (base + w) hx

/-! ## Passing over ranges -/

/-- The ranges themselves, start and exclusive end. -/
def rangesFrom (base : Nat) (ws : List Nat) : List (Nat × Nat) :=
  (startsFrom base ws).zip (endsFrom base ws)

@[simp] theorem rangesFrom_nil (base : Nat) : rangesFrom base [] = [] := rfl

@[simp] theorem rangesFrom_cons (base w : Nat) (ws : List Nat) :
    rangesFrom base (w :: ws) = (base, base + w) :: rangesFrom (base + w) ws := rfl

@[simp] theorem rangesFrom_length (base : Nat) (ws : List Nat) :
    (rangesFrom base ws).length = ws.length := by
  unfold rangesFrom
  rw [List.length_zip, startsFrom_length, endsFrom_length, Nat.min_self]

/-- **Passing over the ranges that end at or before a position** leaves a layout that starts at or before
it, and whose first range holds it. -/
theorem rangesFrom_dropWhile {base pos : Nat} (ws : List Nat) (h : base ≤ pos) :
    ∃ j, j ≤ ws.length ∧
      ((rangesFrom base ws).dropWhile fun r => r.2 ≤ pos) =
        rangesFrom (base + (ws.take j).sum) (ws.drop j) ∧
      base + (ws.take j).sum ≤ pos ∧ ∀ w, ws[j]? = some w → pos < base + (ws.take j).sum + w := by
  induction ws generalizing base with
  | nil => exact ⟨0, Nat.le_refl 0, rfl, h, nofun⟩
  | cons w ws ih =>
      by_cases hend : base + w ≤ pos
      · obtain ⟨j, hj, hdrop, hle, hlt⟩ := ih hend
        refine ⟨j + 1, Nat.succ_le_succ hj, ?_, ?_, ?_⟩
        · rw [rangesFrom_cons, List.dropWhile_cons_of_pos (by simpa using hend), hdrop,
            List.take_succ_cons, List.sum_cons, Nat.add_assoc, List.drop_succ_cons]
        · rw [List.take_succ_cons, List.sum_cons]
          omega
        · intro v hv
          have := hlt v (by simpa using hv)
          rw [List.take_succ_cons, List.sum_cons]
          omega
      · refine ⟨0, Nat.zero_le _, ?_, by simpa using h, ?_⟩
        · rw [rangesFrom_cons, List.dropWhile_cons_of_neg (by simpa using hend)]
          rfl
        · intro v hv
          obtain rfl : w = v := by simpa using hv
          simp only [List.take_zero, List.sum_nil]
          omega

/-! ## Editing a layout -/

theorem startsFrom_append (base : Nat) (ws vs : List Nat) :
    startsFrom base (ws ++ vs) = startsFrom base ws ++ startsFrom (base + ws.sum) vs := by
  induction ws generalizing base with
  | nil => rfl
  | cons w ws ih =>
      simp only [List.cons_append, startsFrom, ih, List.sum_cons, Nat.add_assoc]

theorem endsFrom_append (base : Nat) (ws vs : List Nat) :
    endsFrom base (ws ++ vs) = endsFrom base ws ++ endsFrom (base + ws.sum) vs := by
  induction ws generalizing base with
  | nil => rfl
  | cons w ws ih =>
      simp only [List.cons_append, endsFrom, ih, List.sum_cons, Nat.add_assoc]

/-- Erase range `i` and move every later entry down by `w`. -/
def eraseShift (xs : List Nat) (i w : Nat) : List Nat :=
  xs.take i ++ (xs.drop (i + 1)).map (· - w)

/-- **Erasing a range.**  Dropping entry `i` from the starts and lowering the later ones by its width
is the layout of the remaining widths. -/
theorem startsFrom_eraseIdx (base : Nat) (ws : List Nat) {i w : Nat} (h : ws[i]? = some w) :
    startsFrom base (ws.eraseIdx i) = eraseShift (startsFrom base ws) i w := by
  induction ws generalizing base i with
  | nil => simp at h
  | cons v ws ih =>
      cases i with
      | zero =>
          obtain rfl : v = w := by simpa using h
          simp [eraseShift, startsFrom, startsFrom_add, Function.comp_def]
      | succ i =>
          have ht := ih (base + v) (i := i) (by simpa using h)
          simp only [eraseShift] at ht
          simp [eraseShift, startsFrom, ht]

/-- **Erasing a range**, on the ends. -/
theorem endsFrom_eraseIdx (base : Nat) (ws : List Nat) {i w : Nat} (h : ws[i]? = some w) :
    endsFrom base (ws.eraseIdx i) = eraseShift (endsFrom base ws) i w := by
  induction ws generalizing base i with
  | nil => simp at h
  | cons v ws ih =>
      cases i with
      | zero =>
          obtain rfl : v = w := by simpa using h
          simp [eraseShift, endsFrom, endsFrom_add, Function.comp_def]
      | succ i =>
          have ht := ih (base + v) (i := i) (by simpa using h)
          simp only [eraseShift] at ht
          simp [eraseShift, endsFrom, ht]

/-- Every start after range `i` lies at least a width of range `i` above zero. -/
theorem le_of_mem_startsFrom_drop (base : Nat) (ws : List Nat) {i w x : Nat} (h : ws[i]? = some w)
    (hx : x ∈ (startsFrom base ws).drop (i + 1)) : w ≤ x := by
  induction ws generalizing base i with
  | nil => simp at h
  | cons v ws ih =>
      cases i with
      | zero =>
          obtain rfl : v = w := by simpa using h
          simp only [startsFrom, Nat.zero_add, List.drop_succ_cons, List.drop_zero] at hx
          rw [startsFrom_add] at hx
          obtain ⟨y, -, rfl⟩ := List.mem_map.mp hx
          exact Nat.le_add_left _ _
      | succ i =>
          exact ih (base + v) (i := i) (by simpa using h) (by simpa [startsFrom] using hx)

/-- Every end after range `i` lies at least a width of range `i` above zero. -/
theorem le_of_mem_endsFrom_drop (base : Nat) (ws : List Nat) {i w x : Nat} (h : ws[i]? = some w)
    (hx : x ∈ (endsFrom base ws).drop (i + 1)) : w ≤ x := by
  induction ws generalizing base i with
  | nil => simp at h
  | cons v ws ih =>
      cases i with
      | zero =>
          obtain rfl : v = w := by simpa using h
          simp only [endsFrom, Nat.zero_add, List.drop_succ_cons, List.drop_zero] at hx
          rw [endsFrom_add] at hx
          obtain ⟨y, -, rfl⟩ := List.mem_map.mp hx
          exact Nat.le_add_left _ _
      | succ i =>
          exact ih (base + v) (i := i) (by simpa using h) (by simpa [endsFrom] using hx)

/-! ## Recognising a layout -/

/-- **`Consecutive starts ends widths`** — the two tables describe ranges of these widths, laid end to
end from zero: first start zero, every later start the end before it, every end its start plus its
width. -/
structure Consecutive (starts ends widths : List Nat) : Prop where
  starts_length : starts.length = widths.length
  ends_length : ends.length = widths.length
  first : ∀ s, starts[0]? = some s → s = 0
  next : ∀ i : Nat, i + 1 < widths.length → starts[i + 1]? = ends[i]?
  width : ∀ (i s e w : Nat), starts[i]? = some s → ends[i]? = some e → widths[i]? = some w →
    e = s + w

/-- The start and the end of range `i` of a consecutive layout. -/
theorem Consecutive.getElem? {starts ends widths : List Nat} (h : Consecutive starts ends widths) :
    ∀ i, i < widths.length →
      starts[i]? = some (widths.take i).sum ∧ ends[i]? = some (widths.take (i + 1)).sum := by
  have hend : ∀ i s, i < widths.length → starts[i]? = some s →
      ends[i]? = some (s + widths.getD i 0) := by
    intro i s hi hs
    have hie : i < ends.length := by rw [h.ends_length]; exact hi
    have he : ends[i]? = some ends[i] := List.getElem?_eq_getElem hie
    have hw : widths[i]? = some widths[i] := List.getElem?_eq_getElem hi
    rw [he, h.width i s _ _ hs he hw, List.getD_eq_getElem?_getD, hw, Option.getD_some]
  have htake : ∀ i, i < widths.length →
      (widths.take (i + 1)).sum = (widths.take i).sum + widths.getD i 0 := by
    intro i hi
    rw [List.take_add_one, List.sum_append, List.getD_eq_getElem?_getD,
      List.getElem?_eq_getElem hi]
    simp
  intro i
  induction i with
  | zero =>
      intro hi
      have hs : starts[0]? = some 0 := by
        have his : 0 < starts.length := by rw [h.starts_length]; exact hi
        have hs' : starts[0]? = some starts[0] := List.getElem?_eq_getElem his
        rw [hs', h.first _ hs']
      refine ⟨by simpa using hs, ?_⟩
      rw [hend 0 0 hi hs, htake 0 hi]
      simp
  | succ i ih =>
      intro hi
      have hs : starts[i + 1]? = some (widths.take (i + 1)).sum := by
        rw [h.next i hi]
        exact (ih (Nat.lt_of_succ_lt hi)).2
      exact ⟨hs, by rw [hend _ _ hi hs, htake _ hi]⟩

/-- **Recognition agrees with construction.** -/
theorem consecutive_iff {starts ends widths : List Nat} :
    Consecutive starts ends widths ↔
      starts = startsFrom 0 widths ∧ ends = endsFrom 0 widths := by
  constructor
  · intro h
    have hget := h.getElem?
    constructor
    · apply List.ext_getElem?
      intro i
      by_cases hi : i < widths.length
      · rw [(hget i hi).1, startsFrom_getElem? 0 widths hi, Nat.zero_add]
      · rw [List.getElem?_eq_none (by rw [h.starts_length]; omega),
          List.getElem?_eq_none (by rw [startsFrom_length]; omega)]
    · apply List.ext_getElem?
      intro i
      by_cases hi : i < widths.length
      · rw [(hget i hi).2, endsFrom_getElem? 0 widths hi, Nat.zero_add]
      · rw [List.getElem?_eq_none (by rw [h.ends_length]; omega),
          List.getElem?_eq_none (by rw [endsFrom_length]; omega)]
  · rintro ⟨rfl, rfl⟩
    refine ⟨startsFrom_length 0 widths, endsFrom_length 0 widths, ?_, ?_, ?_⟩
    · intro s hs
      cases widths with
      | nil => simp [startsFrom] at hs
      | cons w ws => simpa [startsFrom] using hs.symm
    · intro i hi
      rw [startsFrom_getElem? 0 widths hi, endsFrom_getElem? 0 widths (Nat.lt_of_succ_lt hi)]
    · intro i s e w hs he hw
      have hi : i < widths.length := (List.getElem?_eq_some_iff.mp hw).1
      rw [startsFrom_getElem? 0 widths hi] at hs
      rw [endsFrom_getElem? 0 widths hi, List.take_add_one, hw] at he
      simp only [Nat.zero_add, Option.some.injEq, Option.toList_some, List.sum_append,
        List.sum_singleton] at hs he
      rw [← hs, ← he]

/-! ## Addressing -/

/-- Position `j` of piece `i` sits behind all the earlier pieces in the flattened sequence. -/
theorem flatten_getElem?_of_piece {α : Type*} {pieces : List (List α)} {i j : Nat} {piece : List α}
    (hi : pieces[i]? = some piece) (hj : j < piece.length) :
    pieces.flatten[((pieces.map List.length).take i).sum + j]? = piece[j]? := by
  induction pieces generalizing i with
  | nil => simp at hi
  | cons p ps ih =>
      cases i with
      | zero =>
          obtain rfl : p = piece := by simpa using hi
          simp [List.getElem?_append_left hj]
      | succ i =>
          have h := ih (i := i) (by simpa using hi)
          simp only [List.map_cons, List.take_succ_cons, List.sum_cons, List.flatten_cons]
          rw [List.getElem?_append_right (by omega), ← h]
          congr 1
          omega

/-- **What a binary search may answer.**  `.ok i`: the key sits at `i` — at any one of the places it
occurs.  `.error i`: the key does not occur, and `i` is where it would be inserted. -/
inductive BinarySearch {α : Type*} [LinearOrder α] (xs : List α) (key : α) : Except Nat Nat → Prop
  | found {i : Nat} : xs[i]? = some key → BinarySearch xs key (.ok i)
  | absent {i : Nat} : key ∉ xs → i ≤ xs.length → (∀ x ∈ xs.take i, x < key) →
      (∀ x ∈ xs.drop i, key < x) → BinarySearch xs key (.error i)

/-- A hit on the range ends names a range that ends at the key. -/
theorem BinarySearch.hit {widths : List Nat} {key i : Nat}
    (h : BinarySearch (endsFrom 0 widths) key (.ok i)) :
    i < widths.length ∧ (widths.take (i + 1)).sum = key := by
  cases h with
  | found hi =>
      have hlt : i < widths.length := by
        simpa using (List.getElem?_eq_some_iff.mp hi).1
      rw [endsFrom_getElem? 0 widths hlt] at hi
      exact ⟨hlt, by simpa using hi⟩

/-- **A miss inside the table** names the one range that holds the key. -/
theorem BinarySearch.miss {widths : List Nat} {key i : Nat}
    (h : BinarySearch (endsFrom 0 widths) key (.error i)) (hi : i < widths.length) :
    (widths.take i).sum ≤ key ∧ key < (widths.take (i + 1)).sum := by
  cases h with
  | absent hmem hle hbelow habove =>
      constructor
      · cases i with
        | zero => simp
        | succ i =>
            have hget := endsFrom_getElem? 0 widths (Nat.lt_of_succ_lt hi)
            have hin : 0 + (widths.take (i + 1)).sum ∈ (endsFrom 0 widths).take (i + 1) :=
              List.mem_of_getElem? (by rw [List.getElem?_take_of_lt (Nat.lt_succ_self i)]; exact hget)
            have := hbelow _ hin
            omega
      · have hget := endsFrom_getElem? 0 widths hi
        have hin : 0 + (widths.take (i + 1)).sum ∈ (endsFrom 0 widths).drop i :=
          List.mem_of_getElem? (i := 0) (by rw [List.getElem?_drop]; simpa using hget)
        have := habove _ hin
        omega

/-- **A miss past the table** means the key lies beyond every range. -/
theorem BinarySearch.miss_end {widths : List Nat} {key : Nat}
    (h : BinarySearch (endsFrom 0 widths) key (.error widths.length)) : widths.sum ≤ key := by
  cases h with
  | absent hmem hle hbelow habove =>
      rw [List.take_of_length_le (by rw [endsFrom_length])] at hbelow
      have hlast := endsFrom_getLast?_getD 0 widths
      cases hl : (endsFrom 0 widths).getLast? with
      | none => rw [hl] at hlast; simp at hlast; omega
      | some e =>
          rw [hl] at hlast
          have := hbelow e (List.mem_of_getLast? hl)
          simp at hlast
          omega

end Logic.Ranges
