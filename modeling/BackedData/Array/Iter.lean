/-
# BackedData.Array.Iter — the item iterators, `BackedArrayIter` and `BackedArrayGenericIter`

Both iterators keep a position and a location, and move the location by subtracting the widths of the
entries it passes.  They differ in the lookup at the end of a step (`get_loc` or `generic_get_loc`), so
`nthWith` is the step over a lookup.  The addition they use is a parameter: `usize` here, or `unbounded`
where the width of the machine word is left out of account.

The measure is the iterator of a slice (`Logic.Slices`) over the concatenation of the chunks, with the
error of its loads in place of every element of a chunk that does not load.  `Reached` is the invariant: the
location, whether or not it lies inside its entry, adds up to the position.
-/
import BackedData.Array.Lookup
import BackedData.Logic.Slices

namespace BackedData.Array

open Logic.Outcome
open Logic.Ranges
open Logic.Slices
open BackedData.Entry

set_option autoImplicit false

variable {Ent T D C S E : Type}

/-! ## The iterators -/

/-- `BackedArrayIter`, beside the array it borrows. -/
structure BackedArrayIter where
  pos : Nat
  loc : ArrayLoc
  deriving DecidableEq, Repr

/-- `BackedArrayGenericIter` has the same fields. -/
abbrev BackedArrayGenericIter := BackedArrayIter

/-- `new`, of either. -/
def BackedArrayIter.new : BackedArrayIter := { pos := 0, loc := { entryIdx := 0, insideEntryIdx := 0 } }

/-- Addition on a `usize` without end. -/
def unbounded (a b : Nat) : Exec Nat := .ok (a + b)

/-- The closure `cur_key_range`: the width of the entry the location is in, if there is one. -/
def BackedArray.curKeyRange (self : BackedArray Ent) (loc : ArrayLoc) : Exec (Option Nat) :=
  match self.keyEnds[loc.entryIdx]?, self.keyStarts[loc.entryIdx]? with
  | some stop, some start => do
      let range ← usizeSub stop start
      pure (some range)
  | _, _ => pure none

theorem curKeyRange_inside {self : BackedArray Ent} {loc : ArrayLoc} {range : Nat}
    (h : self.curKeyRange loc = .ok (some range)) : loc.entryIdx < self.keyEnds.length := by
  unfold BackedArray.curKeyRange at h
  split at h
  · rename_i stop start hstop hstart
    exact (List.getElem?_eq_some_iff.mp hstop).1
  · cases h

/-- The `while` loop of the closure `advance`; `none` is its early return, with the location it had come
to. -/
def BackedArray.advanceLoop (self : BackedArray Ent) (loc : ArrayLoc) :
    Exec (Option Unit × ArrayLoc) :=
  match _hrange : self.curKeyRange loc with
  | .error p => .error p
  | .ok none => .ok (none, loc)
  | .ok (some range) =>
      if range ≤ loc.insideEntryIdx then
        self.advanceLoop
          { entryIdx := loc.entryIdx + 1, insideEntryIdx := loc.insideEntryIdx - range }
      else .ok (some (), loc)
termination_by self.keyEnds.length - loc.entryIdx
decreasing_by
  have := curKeyRange_inside _hrange
  show self.keyEnds.length - (loc.entryIdx + 1) < self.keyEnds.length - loc.entryIdx
  omega

section Loop

variable {self : BackedArray Ent} {loc : ArrayLoc}

/-- The loop, behind the last entry. -/
theorem advanceLoop_past (h : self.curKeyRange loc = .ok none) :
    self.advanceLoop loc = .ok (none, loc) := by
  unfold BackedArray.advanceLoop
  split <;> simp_all

/-- The loop, at an entry it goes on from or stays in. -/
theorem advanceLoop_at {range : Nat} (h : self.curKeyRange loc = .ok (some range)) :
    self.advanceLoop loc =
      if range ≤ loc.insideEntryIdx then
        self.advanceLoop
          { entryIdx := loc.entryIdx + 1, insideEntryIdx := loc.insideEntryIdx - range }
      else .ok (some (), loc) := by
  rw [BackedArray.advanceLoop]
  split <;> simp_all

end Loop

/-- What a lookup at a location leaves: its result, the array with the entry it loaded, the
surroundings. -/
abbrev Lookup (T D C S E : Type) :=
  BackedArray (Chunk T D C) → ArrayLoc → Nat → S →
    Exec (Except (BackedArrayError E) T × BackedArray (Chunk T D C) × S)

/-- The state of an iteration: the array, the iterator, the surroundings. -/
abbrev Iteration (T D C S : Type) := BackedArray (Chunk T D C) × BackedArrayIter × S

namespace BackedArrayIter

variable (add : Nat → Nat → Exec Nat)

/-- The closure `advance`. -/
def advance (backed : BackedArray Ent) (this : BackedArrayIter) (n : Nat) :
    Exec (Option Unit × BackedArrayIter) := do
  let pos ← add this.pos n
  let insideEntryIdx ← add this.loc.insideEntryIdx n
  let (done, loc) ← backed.advanceLoop { this.loc with insideEntryIdx }
  pure (done, { pos, loc })

/-- `nth` over a lookup. -/
def nthWith (lookup : Lookup T D C S E) (n : Nat) (st : Iteration T D C S) :
    Exec (Option (Except E T) × Iteration T D C S) := do
  let (backed, this, s) := st
  let (done, this) ← advance add backed this n
  match done with
  | none => pure (none, backed, this, s)
  | some () =>
      if backed.keyEnds.length ≤ this.loc.entryIdx then pure (none, backed, this, s)
      else do
        let (r, backed, s) ← lookup backed this.loc this.pos s
        match r with
        | .ok val => do
            let (_, this) ← advance add backed this 1
            pure (some (.ok val), backed, this, s)
        | .error (.outsideEntryBounds _) => pure (none, backed, this, s)
        | .error (.coder c) => do
            let (_, this) ← advance add backed this 1
            pure (some (.error c), backed, this, s)

/-- `nth`. -/
def nth (io : Medium (List T) D C S E) (n : Nat) (st : Iteration T D C S) :
    Exec (Option (Except E T) × Iteration T D C S) :=
  nthWith add (fun backed loc _ => backed.getLoc io loc) n st

/-- `next`. -/
def next (io : Medium (List T) D C S E) (st : Iteration T D C S) :
    Exec (Option (Except E T) × Iteration T D C S) :=
  nth add io 0 st

/-- The call, on the iterator. -/
def call (io : Medium (List T) D C S E) :
    Call → Iteration T D C S → Exec (Option (Except E T) × Iteration T D C S)
  | .next => next add io
  | .nth n => nth add io n

theorem call_eq (io : Medium (List T) D C S E) (c : Call) :
    call add io c = nthWith add (fun backed loc _ => backed.getLoc io loc) c.skip := by
  cases c <;> rfl

end BackedArrayIter

namespace BackedArrayGenericIter

variable (add : Nat → Nat → Exec Nat)

/-- `nth`. -/
def nth (io : Medium (List T) D C S E) (n : Nat) (st : Iteration T D C S) :
    Exec (Option (Except E T) × Iteration T D C S) :=
  BackedArrayIter.nthWith add (fun backed loc pos => backed.genericGetLoc io loc pos) n st

/-- `next`. -/
def next (io : Medium (List T) D C S E) (st : Iteration T D C S) :
    Exec (Option (Except E T) × Iteration T D C S) :=
  nth add io 0 st

/-- The call, on the iterator. -/
def call (io : Medium (List T) D C S E) :
    Call → Iteration T D C S → Exec (Option (Except E T) × Iteration T D C S)
  | .next => next add io
  | .nth n => nth add io n

theorem call_eq (io : Medium (List T) D C S E) (c : Call) :
    call add io c =
      BackedArrayIter.nthWith add (fun backed loc pos => backed.genericGetLoc io loc pos) c.skip := by
  cases c <;> rfl

end BackedArrayGenericIter

/-- A run of calls: the answers, and the state behind the last. -/
def runCalls (call : Call → Iteration T D C S → Exec (Option (Except E T) × Iteration T D C S)) :
    List Call → Iteration T D C S → Exec (List (Option (Except E T)) × Iteration T D C S)
  | [], st => pure ([], st)
  | c :: cs, st => do
      let (r, st) ← call c st
      let (rs, st) ← runCalls call cs st
      pure (r :: rs, st)

/-! ## Where the loop ends -/

section Walk

variable {arr : BackedArray Ent} {widths : List Nat}

/-- **`Rests widths done loc`** — how the loop leaves off: inside an entry, or by its early return behind
the last one. -/
inductive Rests (widths : List Nat) : Option Unit → ArrayLoc → Prop where
  | inside {loc : ArrayLoc} {w : Nat} (hw : widths[loc.entryIdx]? = some w)
      (hlt : loc.insideEntryIdx < w) : Rests widths (some ()) loc
  | past {loc : ArrayLoc} (hend : loc.entryIdx = widths.length) : Rests widths none loc

/-- The position a location stands for, inside its entry or not. -/
def place (widths : List Nat) (loc : ArrayLoc) : Nat :=
  (widths.take loc.entryIdx).sum + loc.insideEntryIdx

theorem curKeyRange_eq (hkeys : Consecutive arr.keyStarts arr.keyEnds widths) (loc : ArrayLoc) :
    arr.curKeyRange loc = .ok widths[loc.entryIdx]? := by
  unfold BackedArray.curKeyRange
  by_cases hi : loc.entryIdx < widths.length
  · obtain ⟨hs, he⟩ := hkeys.getElem? _ hi
    have hw : widths[loc.entryIdx]? = some widths[loc.entryIdx] := List.getElem?_eq_getElem hi
    have hsum : (widths.take (loc.entryIdx + 1)).sum =
        (widths.take loc.entryIdx).sum + widths[loc.entryIdx] := by
      rw [List.take_add_one, List.sum_append, hw]
      simp
    rw [hs, he, hw, hsum]
    simp only [usizeSub_add_left, exec_bind_ok, exec_pure]
  · have hend : arr.keyEnds[loc.entryIdx]? = none := by
      apply List.getElem?_eq_none
      rw [hkeys.ends_length]
      omega
    have hwidth : widths[loc.entryIdx]? = none := List.getElem?_eq_none (Nat.le_of_not_lt hi)
    rw [hend, hwidth]
    rfl

/-- Going on to the next entry keeps the place. -/
theorem place_next {loc : ArrayLoc} {w : Nat} (hw : widths[loc.entryIdx]? = some w)
    (hle : w ≤ loc.insideEntryIdx) :
    place widths { entryIdx := loc.entryIdx + 1, insideEntryIdx := loc.insideEntryIdx - w } =
      place widths loc := by
  unfold place
  simp only [List.take_add_one, List.sum_append, hw, Option.toList_some, List.sum_singleton]
  omega

/-- **The loop of `advance`** ends, in an entry or behind the last one, and keeps the place. -/
theorem advanceLoop_spec (hkeys : Consecutive arr.keyStarts arr.keyEnds widths) (loc : ArrayLoc)
    (hle : loc.entryIdx ≤ widths.length) :
    ∃ done loc', arr.advanceLoop loc = .ok (done, loc') ∧ place widths loc' = place widths loc ∧
      Rests widths done loc' := by
  induction loc using BackedArray.advanceLoop.induct arr with
  | case1 loc p hrange =>
      rw [curKeyRange_eq hkeys] at hrange
      cases hrange
  | case2 loc hrange =>
      refine ⟨none, loc, advanceLoop_past hrange, rfl, .past ?_⟩
      rw [curKeyRange_eq hkeys] at hrange
      have := List.getElem?_eq_none_iff.mp (Except.ok.inj hrange)
      omega
  | case3 loc range hrange hge ih =>
      have hw : widths[loc.entryIdx]? = some range := by
        rw [curKeyRange_eq hkeys] at hrange
        exact Except.ok.inj hrange
      have hlt : loc.entryIdx < widths.length := (List.getElem?_eq_some_iff.mp hw).1
      obtain ⟨done, loc', hrun, hplace, hrests⟩ := ih hlt
      refine ⟨done, loc', ?_, hplace.trans (place_next hw hge), hrests⟩
      rw [advanceLoop_at hrange, if_pos hge]
      exact hrun
  | case4 loc range hrange hlt =>
      refine ⟨some (), loc, ?_, rfl, ?_⟩
      · rw [advanceLoop_at hrange, if_neg hlt]
      · rw [curKeyRange_eq hkeys] at hrange
        exact .inside (Except.ok.inj hrange) (Nat.lt_of_not_le hlt)

end Walk

/-! ## What an iteration shows of a chunk -/

/-- Every load of the entry comes out so, however often it has been loaded before and whatever the
surroundings of these loads. -/
def Steady (io : Medium (List T) D C S E) (e : Chunk T D C) (out : Except E (List T)) : Prop :=
  ∀ (before : List S) (s : S),
    ((before.foldl (fun e s => (e.load io s).2.1) e).load io s).1 = out

/-- What there is to show for a chunk whose loads come to `out`: its elements, or in the place of each
the error. -/
def Shows : Except E (List T) → List (Except E T) → Prop
  | .ok chunk, piece => piece = chunk.map .ok
  | .error e, piece => ∀ x ∈ piece, x = .error e

/-- **`ComesTo io e piece`** — an iteration shows `piece` for the entry: it loads, or it fails to load,
for good. -/
def ComesTo (io : Medium (List T) D C S E) (e : Chunk T D C) (piece : List (Except E T)) : Prop :=
  ∃ out, Steady io e out ∧ Shows out piece

variable {io : Medium (List T) D C S E}

/-- What holds of the entry and is kept by its loads, all of which come out so, makes it steady. -/
theorem steady_of_invariant {out : Except E (List T)} {P : Chunk T D C → Prop}
    (hstep : ∀ e s, P e → (e.load io s).1 = out ∧ P (e.load io s).2.1) {e : Chunk T D C} (h : P e) :
    Steady io e out := by
  intro before
  induction before generalizing e with
  | nil =>
      intro s
      exact (hstep e s h).1
  | cons t before ih => exact ih (hstep e t h).2

theorem Steady.load {e e' : Chunk T D C} {out r : Except E (List T)} (h : Steady io e out) {s s' : S}
    (hload : e.load io s = (r, e', s')) : r = out ∧ Steady io e' out := by
  constructor
  · have := h [] s
    simpa only [List.foldl_nil, hload] using this
  · intro before t
    have := h (s :: before) t
    simpa only [List.foldl_cons, hload] using this

/-- What a lookup does at a location inside its entry: it loads the entry, and comes back with the
element there or with the error of the load. -/
structure Looks (io : Medium (List T) D C S E) (lookup : Lookup T D C S E) : Prop where
  element : ∀ {arr : BackedArray (Chunk T D C)} {loc pos s e chunk e' s' x},
    arr.entries[loc.entryIdx]? = some e → e.load io s = (.ok chunk, e', s') →
    chunk[loc.insideEntryIdx]? = some x →
    lookup arr loc pos s = .ok (.ok x, arr.setEntry loc.entryIdx e', s')
  failure : ∀ {arr : BackedArray (Chunk T D C)} {loc pos s e err e' s'},
    arr.entries[loc.entryIdx]? = some e → e.load io s = (.error err, e', s') →
    lookup arr loc pos s = .ok (.error (.coder err), arr.setEntry loc.entryIdx e', s')

theorem getLoc_looks (io : Medium (List T) D C S E) :
    Looks io fun backed loc _ => backed.getLoc io loc where
  element := by
    intro arr loc pos s e chunk e' s' x he hload hx
    simp only [BackedArray.getLoc, index_ok he, exec_bind_ok, hload, index_ok hx, exec_pure]
  failure := by
    intro arr loc pos s e err e' s' he hload
    simp only [BackedArray.getLoc, index_ok he, exec_bind_ok, hload, exec_pure]

theorem genericGetLoc_looks (io : Medium (List T) D C S E) :
    Looks io fun backed loc pos => backed.genericGetLoc io loc pos where
  element := by
    intro arr loc pos s e chunk e' s' x he hload hx
    simp only [BackedArray.genericGetLoc, he, hload, hx, exec_pure]
  failure := by
    intro arr loc pos s e err e' s' he hload
    simp only [BackedArray.genericGetLoc, he, hload, exec_pure]

/-! ## One call -/

/-- Position `p` lies in the range of entry `i`. -/
def InRange (arr : BackedArray Ent) (i p : Nat) : Prop :=
  ∃ start stop, arr.keyStarts[i]? = some start ∧ arr.keyEnds[i]? = some stop ∧ start ≤ p ∧ p < stop

/-- **`Reached widths it p`** — the iterator has `p` elements behind it; past the end it may count on
differently. -/
structure Reached (widths : List Nat) (it : BackedArrayIter) (p : Nat) : Prop where
  place_eq : place widths it.loc = it.pos
  entry_le : it.loc.entryIdx ≤ widths.length
  pos_eq : it.pos = p ∨ widths.sum ≤ it.pos ∧ widths.sum ≤ p

theorem reached_new (widths : List Nat) : Reached widths .new 0 where
  place_eq := rfl
  entry_le := Nat.zero_le _
  pos_eq := Or.inl rfl

/-- **`advance`** moves the place and the position by `n`. -/
theorem advance_spec (add : Nat → Nat → Exec Nat) {arr : BackedArray Ent} {widths : List Nat}
    (hkeys : Consecutive arr.keyStarts arr.keyEnds widths) {it : BackedArrayIter} {p : Nat}
    (hr : Reached widths it p) {n : Nat} (hpos : add it.pos n = .ok (it.pos + n))
    (hinside : add it.loc.insideEntryIdx n = .ok (it.loc.insideEntryIdx + n)) :
    ∃ done it', BackedArrayIter.advance add arr it n = .ok (done, it') ∧
      it'.pos = it.pos + n ∧ Reached widths it' (p + n) ∧ Rests widths done it'.loc := by
  obtain ⟨done, loc', hrun, hplace, hrests⟩ :=
    advanceLoop_spec hkeys { it.loc with insideEntryIdx := it.loc.insideEntryIdx + n } hr.entry_le
  refine ⟨done, { pos := it.pos + n, loc := loc' }, ?_, rfl, ⟨?_, ?_, ?_⟩, hrests⟩
  · unfold BackedArrayIter.advance
    simp only [hpos, hinside, exec_bind_ok, hrun, exec_pure]
  · have hat := hr.place_eq
    unfold place at hplace hat ⊢
    simp only at hplace ⊢
    omega
  · cases hrests with
    | inside hw hlt => exact Nat.le_of_lt (List.getElem?_eq_some_iff.mp hw).1
    | past hend => exact Nat.le_of_eq hend
  · rcases hr.pos_eq with h | ⟨h, h'⟩
    · exact Or.inl (by simp only [h])
    · exact Or.inr ⟨by simp only; omega, by omega⟩

/-- A lookup at a location comes back with what there is to show there. -/
theorem Looks.shown {lookup : Lookup T D C S E} (hlook : Looks io lookup)
    {arr : BackedArray (Chunk T D C)} {loc : ArrayLoc} {e : Chunk T D C} {piece : List (Except E T)}
    {x : Except E T} (he : arr.entries[loc.entryIdx]? = some e) (hcomes : ComesTo io e piece)
    (hx : piece[loc.insideEntryIdx]? = some x) (pos : Nat) (s : S) :
    ∃ e' s', lookup arr loc pos s =
        .ok (x.mapError .coder, arr.setEntry loc.entryIdx e', s') ∧ ComesTo io e' piece := by
  obtain ⟨out, hsteady, hshows⟩ := hcomes
  rcases hload : e.load io s with ⟨r, e', s'⟩
  obtain ⟨rfl, hsteady'⟩ := hsteady.load hload
  refine ⟨e', s', ?_, r, hsteady', hshows⟩
  cases r with
  | error err =>
      have hxerr : x = .error err := hshows x (List.mem_of_getElem? hx)
      rw [hlook.failure he hload, hxerr]
      rfl
  | ok chunk =>
      have hpiece : piece = chunk.map .ok := hshows
      obtain ⟨y, hy, hxy⟩ : ∃ y, chunk[loc.insideEntryIdx]? = some y ∧ .ok y = x := by
        rw [hpiece, List.getElem?_map] at hx
        simpa using hx
      rw [hlook.element he hload hy, ← hxy]
      rfl

/-- **`Moved io pieces arr p st`** — what a call that selects position `p` leaves: the same layout, the
iterator behind `p`, and no entry touched but the one `p` lies in. -/
structure Moved (io : Medium (List T) D C S E) (pieces : List (List (Except E T)))
    (arr : BackedArray (Chunk T D C)) (p : Nat) (st : Iteration T D C S) : Prop where
  wellFormed : WellFormed (ComesTo io) st.1 pieces
  reached : Reached (pieces.map List.length) st.2.1 (p + 1)
  keyStarts : st.1.keyStarts = arr.keyStarts
  keyEnds : st.1.keyEnds = arr.keyEnds
  touched : ∀ i, st.1.entries[i]? ≠ arr.entries[i]? → p < pieces.flatten.length ∧ InRange arr i p

section Step

variable {arr : BackedArray (Chunk T D C)} {pieces : List (List (Except E T))}
  {it : BackedArrayIter} {p : Nat}

/-- An iterator whose location lies inside an entry has not miscounted, and is at an element. -/
theorem Reached.locates {X : Type} {pieces : List (List X)}
    (hr : Reached (pieces.map List.length) it p) {w : Nat}
    (hw : (pieces.map List.length)[it.loc.entryIdx]? = some w) (hlt : it.loc.insideEntryIdx < w) :
    ∃ piece, Locates pieces p it.loc piece := by
  rw [List.getElem?_map] at hw
  obtain ⟨piece, hpiece, rfl⟩ : ∃ piece, pieces[it.loc.entryIdx]? = some piece ∧ piece.length = w := by
    simpa using hw
  have hat := hr.place_eq
  unfold place at hat
  refine ⟨piece, hpiece, hlt, ?_⟩
  rcases hr.pos_eq with hpos | ⟨hpast, -⟩
  · rw [hat, hpos]
  · -- a location inside an entry is not past the end
    have hin := flatten_getElem?_of_piece hpiece hlt
    rw [hat, List.getElem?_eq_getElem hlt] at hin
    have hlen := (List.getElem?_eq_some_iff.mp hin).1
    rw [List.length_flatten] at hlen
    omega

/-- An iterator behind the last entry is past the end. -/
theorem Reached.past {X : Type} {pieces : List (List X)}
    (hr : Reached (pieces.map List.length) it p)
    (hend : it.loc.entryIdx = (pieces.map List.length).length) :
    (pieces.map List.length).sum ≤ it.pos ∧ (pieces.map List.length).sum ≤ p := by
  have hat := hr.place_eq
  unfold place at hat
  rw [hend, List.take_length] at hat
  rcases hr.pos_eq with hpos | hpast <;> omega

/-- A location inside an entry is in the range of that entry. -/
theorem Locates.inRange {X : Type} {loads : Chunk T D C → List X → Prop} {pieces : List (List X)}
    (hwf : WellFormed loads arr pieces) {loc : ArrayLoc} {piece : List X}
    (h : Locates pieces p loc piece) : InRange arr loc.entryIdx p := by
  have hlt : loc.entryIdx < (pieces.map List.length).length := by
    simpa using (List.getElem?_eq_some_iff.mp h.chunk_eq).1
  obtain ⟨hs, he⟩ := hwf.keys.getElem? _ hlt
  refine ⟨_, _, hs, he, ?_, ?_⟩
  · have := h.idx_eq
    omega
  · have hw : (pieces.map List.length)[loc.entryIdx]? = some piece.length := by
      rw [List.getElem?_map, h.chunk_eq]
      rfl
    have hsum := h.idx_eq
    have hin := h.inside_lt
    rw [List.take_add_one, List.sum_append, hw]
    simp only [Option.toList_some, List.sum_singleton]
    omega

/-- **One call** answers as the iterator of the slice does, and loads at most the chunk of its
answer. -/
theorem nthWith_spec {lookup : Lookup T D C S E} (hlook : Looks io lookup)
    (hwf : WellFormed (ComesTo io) arr pieces) (hr : Reached (pieces.map List.length) it p) (n : Nat)
    (s : S) :
    ∃ st, BackedArrayIter.nthWith unbounded lookup n (arr, it, s) =
        .ok (pieces.flatten[p + n]?, st) ∧ Moved io pieces arr (p + n) st := by
  obtain ⟨done, it₁, hadv, -, hr₁, hrests⟩ := advance_spec unbounded hwf.keys hr (n := n) rfl rfl
  have hends : arr.keyEnds.length = (pieces.map List.length).length := hwf.keys.ends_length
  rcases hrests with ⟨hw, hlt⟩ | hend
  · obtain ⟨piece, hloc⟩ := hr₁.locates hw hlt
    obtain ⟨x, hx, hflat⟩ := hloc.element
    obtain ⟨e, he, hcomes⟩ := hwf.entry hloc.chunk_eq
    obtain ⟨e', s', hlooked, hcomes'⟩ := hlook.shown he hcomes hx it₁.pos s
    have hwf' := hwf.setEntry hloc.chunk_eq hcomes'
    obtain ⟨done', it₂, hadv', -, hr₂, -⟩ := advance_spec unbounded hwf'.keys hr₁ (n := 1) rfl rfl
    have hinside : ¬ arr.keyEnds.length ≤ it₁.loc.entryIdx := by
      have := (List.getElem?_eq_some_iff.mp hw).1
      omega
    refine ⟨(arr.setEntry it₁.loc.entryIdx e', it₂, s'), ?_, hwf', hr₂, rfl, rfl, ?_⟩
    · unfold BackedArrayIter.nthWith
      rw [hflat]
      simp only [hadv, exec_bind_ok, if_neg hinside, hlooked]
      -- an element or an error, the position moves on
      cases x with
      | ok y => simp only [Except.mapError, hadv', exec_bind_ok, exec_pure]
      | error err => simp only [Except.mapError, hadv', exec_bind_ok, exec_pure]
    · intro i hi
      have hsame : i = it₁.loc.entryIdx := by
        by_contra hne
        exact hi (List.getElem?_set_ne (fun h => hne h.symm))
      subst hsame
      exact ⟨(List.getElem?_eq_some_iff.mp hflat).1, hloc.inRange hwf⟩
  · obtain ⟨hpos, hpast⟩ := hr₁.past hend
    have hnone : pieces.flatten[p + n]? = none := by
      apply List.getElem?_eq_none
      rw [List.length_flatten]
      exact hpast
    refine ⟨(arr, it₁, s), ?_, hwf, ⟨hr₁.place_eq, hr₁.entry_le, Or.inr ⟨hpos, by omega⟩⟩, rfl, rfl,
      fun i hi => absurd rfl hi⟩
    unfold BackedArrayIter.nthWith
    rw [hnone]
    simp only [hadv, exec_bind_ok, exec_pure]

end Step

/-! ## Runs of calls -/

/-- **`IteratesTo arr pieces cs answers st`** — the calls `cs` on a new iterator were answered as the
iterator of a slice over the concatenation answers them, `None` for good once it comes; and they leave
the keys as they were, and every entry in whose range no call selected a position. -/
structure IteratesTo (arr : BackedArray (Chunk T D C)) (pieces : List (List (Except E T)))
    (cs : List Call) (answers : List (Option (Except E T))) (st : Iteration T D C S) : Prop where
  answers_eq : answers = calls pieces.flatten cs
  fused : Fused answers
  keyStarts : st.1.keyStarts = arr.keyStarts
  keyEnds : st.1.keyEnds = arr.keyEnds
  touched : ∀ i, st.1.entries[i]? ≠ arr.entries[i]? →
    ∃ p, some p ∈ positions pieces.flatten.length 0 cs ∧ InRange arr i p

/-- **The run lemma**, from any position. -/
theorem runCalls_spec {lookup : Lookup T D C S E} (hlook : Looks io lookup)
    {call : Call → Iteration T D C S → Exec (Option (Except E T) × Iteration T D C S)}
    (hcall : ∀ c, call c = BackedArrayIter.nthWith unbounded lookup c.skip)
    {pieces : List (List (Except E T))} (cs : List Call) {arr : BackedArray (Chunk T D C)}
    (hwf : WellFormed (ComesTo io) arr pieces) {it : BackedArrayIter} {p : Nat}
    (hr : Reached (pieces.map List.length) it p) (s : S) :
    ∃ st, runCalls call cs (arr, it, s) = .ok (calls (pieces.flatten.drop p) cs, st) ∧
      st.1.keyStarts = arr.keyStarts ∧ st.1.keyEnds = arr.keyEnds ∧
      ∀ i, st.1.entries[i]? ≠ arr.entries[i]? →
        ∃ q, some q ∈ positions pieces.flatten.length p cs ∧ InRange arr i q := by
  induction cs generalizing arr it p s with
  | nil => exact ⟨(arr, it, s), rfl, rfl, rfl, fun i hi => absurd rfl hi⟩
  | cons c cs ih =>
      obtain ⟨⟨arr', it', s'⟩, hnth, hmoved⟩ := nthWith_spec hlook hwf hr c.skip s
      obtain ⟨st, hrun, hstarts, hends, htouched⟩ := ih hmoved.wellFormed hmoved.reached s'
      refine ⟨st, ?_, hstarts.trans hmoved.keyStarts, hends.trans hmoved.keyEnds, ?_⟩
      · unfold runCalls
        rw [hcall, hnth, exec_bind_ok]
        simp only [hrun, exec_bind_ok, exec_pure, calls, nth, List.getElem?_drop, List.drop_drop]
        rfl
      · intro i hi
        rw [positions_cons]
        by_cases hstep : arr'.entries[i]? = arr.entries[i]?
        · -- touched by a later call
          obtain ⟨q, hq, hin⟩ := htouched i (by rw [hstep]; exact hi)
          refine ⟨q, List.mem_cons_of_mem _ hq, ?_⟩
          unfold InRange at hin ⊢
          rw [hmoved.keyStarts, hmoved.keyEnds] at hin
          exact hin
        · obtain ⟨hlt, hin⟩ := hmoved.touched i hstep
          refine ⟨p + c.skip, ?_, hin⟩
          rw [if_pos hlt]
          exact List.mem_cons_self

/-- The run lemma, for a new iterator. -/
theorem runCalls_iterates {lookup : Lookup T D C S E} (hlook : Looks io lookup)
    {call : Call → Iteration T D C S → Exec (Option (Except E T) × Iteration T D C S)}
    (hcall : ∀ c, call c = BackedArrayIter.nthWith unbounded lookup c.skip)
    {pieces : List (List (Except E T))} (cs : List Call) {arr : BackedArray (Chunk T D C)}
    (hwf : WellFormed (ComesTo io) arr pieces) (s : S) :
    ∃ answers st, runCalls call cs (arr, .new, s) = .ok (answers, st) ∧
      IteratesTo arr pieces cs answers st := by
  obtain ⟨st, hrun, hstarts, hends, htouched⟩ := runCalls_spec hlook hcall cs hwf (reached_new _) s
  rw [List.drop_zero] at hrun
  exact ⟨_, st, hrun, rfl, calls_fused _ cs, hstarts, hends, htouched⟩

/-- **The item iterators are the iterator of a slice.**  On every well-formed array, wherever it has
empty chunks and whichever of its chunks fail to load, and for every run of `next` and `nth(n)`, both
iterators return from every call; the answers are those of the iterator of a slice over the concatenation,
with the error of its loads in place of each element of a chunk that fails; after a `None` only `None`s
follow; and no entry is touched, its disk included, but those in whose range a call selected a
position. -/
theorem iter_refines (io : Medium (List T) D C S E) (arr : BackedArray (Chunk T D C))
    (pieces : List (List (Except E T))) (hwf : WellFormed (ComesTo io) arr pieces) (cs : List Call)
    (s : S) :
    (∃ answers st, runCalls (BackedArrayIter.call unbounded io) cs (arr, .new, s) = .ok (answers, st) ∧
        IteratesTo arr pieces cs answers st) ∧
      ∃ answers st, runCalls (BackedArrayGenericIter.call unbounded io) cs (arr, .new, s) =
          .ok (answers, st) ∧
        IteratesTo arr pieces cs answers st := by
  constructor
  · exact runCalls_iterates (getLoc_looks io) (BackedArrayIter.call_eq unbounded io) cs hwf s
  · exact runCalls_iterates (genericGetLoc_looks io) (BackedArrayGenericIter.call_eq unbounded io) cs hwf s

/-- A disk that fails only where nothing is stored. -/
def quiet (T : Type) : Medium T (Option T) Unit Unit Unit where
  writeDisk _ s := (.ok (), none, s)
  encode _ v _ s := (.ok (), some v, s)
  readDisk d s := (.ok (), d, s)
  decode _ d s :=
    match d with
    | some v => (.ok v, d, s)
    | none => (.error (), d, s)

/-- On such a disk an unloaded chunk comes to what is stored. -/
theorem quiet_comesTo (chunk : List Nat) :
    ComesTo (quiet (List Nat)) (BackedEntry.new (some chunk) ()) (chunk.map .ok) := by
  refine ⟨.ok chunk, ?_, rfl⟩
  refine steady_of_invariant
    (P := fun e => e.disk = some chunk ∧ (e.value = none ∨ e.value = some chunk)) ?_ ⟨rfl, Or.inl rfl⟩
  rintro ⟨value, disk, coder⟩ s ⟨rfl, rfl | rfl⟩ <;> exact ⟨rfl, rfl, Or.inr rfl⟩

/-- Where nothing is stored, it comes to the error. -/
theorem quiet_fails (width : Nat) :
    ComesTo (quiet (List Nat)) (BackedEntry.new none ()) (List.replicate width (.error ())) := by
  refine ⟨.error (), ?_, fun x hx => List.eq_of_mem_replicate hx⟩
  refine steady_of_invariant (P := fun e => e.disk = none ∧ e.value = none) ?_ ⟨rfl, rfl⟩
  rintro ⟨value, disk, coder⟩ s ⟨rfl, rfl⟩
  exact ⟨rfl, rfl, rfl⟩

/-- An empty chunk in front, one in the middle, and behind it a chunk of two that does not load. -/
def sampleArray : BackedArray (Chunk Nat (Option (List Nat)) Unit) where
  keyStarts := [0, 0, 2, 2, 4]
  keyEnds := [0, 2, 2, 4, 5]
  entries := [.new (some []) (), .new (some [10, 11]) (), .new (some []) (), .new none (),
    .new (some [12]) ()]

/-- What there is to show of it. -/
def samplePieces : List (List (Except Unit Nat)) :=
  [[], [.ok 10, .ok 11], [], [.error (), .error ()], [.ok 12]]

theorem sampleArray_wellFormed : WellFormed (ComesTo (quiet (List Nat))) sampleArray samplePieces where
  keys := consecutive_iff.mpr ⟨rfl, rfl⟩
  entries := .cons (quiet_comesTo []) (.cons (quiet_comesTo [10, 11]) (.cons (quiet_comesTo [])
    (.cons (quiet_fails 2) (.cons (quiet_comesTo [12]) .nil))))

/-- The calls select the second element, the first that does not load, the last, and run off the end. -/
theorem iter_refines_sample :
    (∃ answers st, runCalls (BackedArrayIter.call unbounded (quiet (List Nat)))
          [.nth 1, .next, .nth 1, .next, .nth 7] (sampleArray, .new, ()) = .ok (answers, st) ∧
        IteratesTo sampleArray samplePieces [.nth 1, .next, .nth 1, .next, .nth 7] answers st) ∧
      ∃ answers st, runCalls (BackedArrayGenericIter.call unbounded (quiet (List Nat)))
          [.nth 1, .next, .nth 1, .next, .nth 7] (sampleArray, .new, ()) = .ok (answers, st) ∧
        IteratesTo sampleArray samplePieces [.nth 1, .next, .nth 1, .next, .nth 7] answers st :=
  iter_refines (quiet (List Nat)) sampleArray samplePieces sampleArray_wellFormed _ ()

example : calls samplePieces.flatten [.nth 1, .next, .nth 1, .next, .nth 7] =
    [some (.ok 11), some (.error ()), some (.ok 12), none, none] := by
  decide

end BackedData.Array
