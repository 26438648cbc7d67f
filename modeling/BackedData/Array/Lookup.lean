/-
# BackedData.Array.Lookup — what `get`, `generic_get` and `a_get` return

`internal_idx` searches the range ends and, on a hit at `x`, goes to entry `x + 1`.  When the ends are
pairwise distinct that entry begins exactly at the index.  A run of equal ends — an empty chunk behind
another chunk — breaks it: any of the equal ends may be hit, and behind all but the last of them comes
an empty chunk, which is then indexed.  `get_exact` states for every well-formed array and every index
exactly when the lookup is right whatever the search answers; `get_panics`/`genericGet_hides` say what
the two families do in the remaining case.
-/
import BackedData.Array.Basic

namespace BackedData.Array

open Logic.Outcome
open Logic.Ranges
open BackedData.Entry

set_option autoImplicit false

variable {T D C S E : Type}

/-- The load of an entry, in state `s`, succeeds with this chunk. -/
def Loads (io : Medium (List T) D C S E) (s : S) (e : Chunk T D C) (chunk : List T) : Prop :=
  ∃ e' s', e.load io s = (.ok chunk, e', s')

/-- A lookup came back (it did not panic) with this result. -/
def Answers {R A : Type} (out : Exec (R × A × S)) (r : R) : Prop :=
  ∃ arr s', out = .ok (r, arr, s')

/-- **`Serves arr chunks idx out`** — the outcome a caller of a lookup at `idx` is promised: below
`len` the element at that position of the concatenation, from `len` on the out-of-bounds error. -/
structure Serves (arr : BackedArray (Chunk T D C)) (chunks : List (List T)) (idx : Nat)
    (out : Exec (Except (BackedArrayError E) T × BackedArray (Chunk T D C) × S)) : Prop where
  inside : idx < arr.len → ∃ x, chunks.flatten[idx]? = some x ∧ Answers out (.ok x)
  outside : arr.len ≤ idx → Answers out (.error (.outsideEntryBounds idx))

/-- `loc` is the place of position `idx`: a chunk, and a position the chunk has. -/
structure Locates (chunks : List (List T)) (idx : Nat) (loc : ArrayLoc) (chunk : List T) : Prop where
  chunk_eq : chunks[loc.entryIdx]? = some chunk
  inside_lt : loc.insideEntryIdx < chunk.length
  idx_eq : ((chunks.map List.length).take loc.entryIdx).sum + loc.insideEntryIdx = idx

/-- A location reads off the element at its position of the concatenation. -/
theorem Locates.element {chunks : List (List T)} {idx : Nat} {loc : ArrayLoc} {chunk : List T}
    (h : Locates chunks idx loc chunk) :
    ∃ x, chunk[loc.insideEntryIdx]? = some x ∧ chunks.flatten[idx]? = some x := by
  have hget := flatten_getElem?_of_piece h.chunk_eq h.inside_lt
  rw [h.idx_eq, List.getElem?_eq_getElem h.inside_lt] at hget
  exact ⟨_, List.getElem?_eq_getElem h.inside_lt, hget⟩

section

variable {io : Medium (List T) D C S E} {arr : BackedArray (Chunk T D C)} {chunks : List (List T)}
  {s : S} {idx : Nat} {loc : ArrayLoc} {chunk : List T}

/-! ## The tail of a lookup: from a location to an element -/

/-- `get_loc` on a chunk that loads: the indexing of the chunk decides. -/
theorem getLoc_eq (hwf : WellFormed (Loads io s) arr chunks) (loc : ArrayLoc)
    (hc : chunks[loc.entryIdx]? = some chunk) :
    ∃ arr' s', arr.getLoc io loc s =
      (do let x ← index chunk loc.insideEntryIdx
          pure (.ok x, arr', s')) := by
  obtain ⟨e, he, e', s', hload⟩ := hwf.entry hc
  refine ⟨arr.setEntry loc.entryIdx e', s', ?_⟩
  unfold BackedArray.getLoc
  rw [index_ok he, exec_bind_ok, hload]

/-- `generic_get_loc` on a chunk that loads: a position the chunk lacks is reported as an error. -/
theorem genericGetLoc_eq (hwf : WellFormed (Loads io s) arr chunks) (loc : ArrayLoc) (idx : Nat)
    (hc : chunks[loc.entryIdx]? = some chunk) :
    ∃ arr' s', arr.genericGetLoc io loc idx s =
      .ok (match chunk[loc.insideEntryIdx]? with
        | none => .error (.outsideEntryBounds idx)
        | some x => .ok x, arr', s') := by
  obtain ⟨e, he, e', s', hload⟩ := hwf.entry hc
  refine ⟨arr.setEntry loc.entryIdx e', s', ?_⟩
  unfold BackedArray.genericGetLoc
  rw [he]
  simp only [hload]
  cases chunk[loc.insideEntryIdx]? <;> rfl

/-- A located element is served by `get`. -/
theorem get_serves_of_locates (hwf : WellFormed (Loads io s) arr chunks) {found : Except Nat Nat}
    (hloc : internalIdx arr.keyStarts arr.keyEnds found idx = .ok (some loc))
    (h : Locates chunks idx loc chunk) : Serves arr chunks idx (arr.get io found idx s) := by
  obtain ⟨x, hx, hflat⟩ := h.element
  have hlt : idx < arr.len := by
    rw [hwf.len_eq]
    exact (List.getElem?_eq_some_iff.mp hflat).1
  obtain ⟨arr', s', hget⟩ := getLoc_eq hwf loc h.chunk_eq
  refine ⟨fun _ => ⟨_, hflat, arr', s', ?_⟩, fun hge => absurd hlt (Nat.not_lt.mpr hge)⟩
  unfold BackedArray.get
  rw [hloc, exec_bind_ok]
  simp only [hget, index_ok hx, exec_bind_ok, exec_pure]

/-- A located element is served by `generic_get`. -/
theorem genericGet_serves_of_locates (hwf : WellFormed (Loads io s) arr chunks)
    {found : Except Nat Nat}
    (hloc : internalIdx arr.keyStarts arr.keyEnds found idx = .ok (some loc))
    (h : Locates chunks idx loc chunk) : Serves arr chunks idx (arr.genericGet io found idx s) := by
  obtain ⟨x, hx, hflat⟩ := h.element
  have hlt : idx < arr.len := by
    rw [hwf.len_eq]
    exact (List.getElem?_eq_some_iff.mp hflat).1
  obtain ⟨arr', s', hget⟩ := genericGetLoc_eq hwf loc idx h.chunk_eq
  refine ⟨fun _ => ⟨_, hflat, arr', s', ?_⟩, fun hge => absurd hlt (Nat.not_lt.mpr hge)⟩
  unfold BackedArray.genericGet
  rw [hloc, exec_bind_ok]
  simp only [hget, hx]

/-- An index that `internal_idx` rejects, past the end, is served by both families. -/
theorem serves_of_none (hge : arr.len ≤ idx) {found : Except Nat Nat}
    (hloc : internalIdx arr.keyStarts arr.keyEnds found idx = .ok none) :
    Serves arr chunks idx (arr.get io found idx s) ∧
      Serves arr chunks idx (arr.genericGet io found idx s) := by
  refine ⟨⟨fun hlt => absurd hlt (Nat.not_lt.mpr hge), fun _ => ⟨arr, s, ?_⟩⟩,
    ⟨fun hlt => absurd hlt (Nat.not_lt.mpr hge), fun _ => ⟨arr, s, ?_⟩⟩⟩
  · unfold BackedArray.get
    rw [hloc]
    rfl
  · unfold BackedArray.genericGet
    rw [hloc]
    rfl

/-! ## `internal_idx` on each answer of the search -/

/-- A hit on any end but the last leads to the start of the next entry. -/
theorem internalIdx_hit {loads : Chunk T D C → List T → Prop} (hwf : WellFormed loads arr chunks)
    {i : Nat} (hfound : BinarySearch arr.keyEnds idx (.ok i)) (hi : i + 1 < chunks.length) :
    internalIdx arr.keyStarts arr.keyEnds (.ok i) idx =
        .ok (some { entryIdx := i + 1, insideEntryIdx := 0 }) ∧
      ((chunks.map List.length).take (i + 1)).sum = idx := by
  rw [hwf.keyEnds_eq] at hfound
  obtain ⟨-, hsum⟩ := hfound.hit
  have hlen : arr.keyEnds.length = chunks.length := by
    rw [hwf.keyEnds_eq, endsFrom_length, List.length_map]
  have hstart : arr.keyStarts[i + 1]? = some idx := by
    rw [hwf.keyStarts_eq, startsFrom_getElem? 0 _ (by simpa using hi), Nat.zero_add, hsum]
  refine ⟨?_, hsum⟩
  unfold internalIdx arrayLoc
  have hfinal : usizeSub arr.keyEnds.length 1 = .ok (chunks.length - 1) := by
    rw [hlen]; exact usizeSub_ok (by omega)
  have hne : i ≠ chunks.length - 1 := by omega
  simp only [hfinal, exec_bind_ok, if_pos hne, index_ok hstart, usizeSub_ok (Nat.le_refl idx),
    Nat.sub_self, exec_pure, ne_eq]

/-- A hit on the last end is out of bounds, and is the length. -/
theorem internalIdx_hit_last {loads : Chunk T D C → List T → Prop}
    (hwf : WellFormed loads arr chunks) {i : Nat} (hfound : BinarySearch arr.keyEnds idx (.ok i))
    (hi : i + 1 = chunks.length) :
    internalIdx arr.keyStarts arr.keyEnds (.ok i) idx = .ok none ∧ arr.len = idx := by
  have hlen : arr.keyEnds.length = chunks.length := by
    rw [hwf.keyEnds_eq, endsFrom_length, List.length_map]
  rw [hwf.keyEnds_eq] at hfound
  obtain ⟨-, hsum⟩ := hfound.hit
  constructor
  · have hfinal : usizeSub arr.keyEnds.length 1 = .ok i := by
      rw [hlen, ← hi]; exact usizeSub_ok (by omega)
    unfold internalIdx
    simp only [hfinal, exec_bind_ok, ne_eq, not_true_eq_false, if_false, exec_pure]
  · rw [List.take_of_length_le (by simp [hi])] at hsum
    rw [hwf.len_eq, List.length_flatten, hsum]

/-- A miss inside the table leads to the entry that holds the index. -/
theorem internalIdx_miss {loads : Chunk T D C → List T → Prop} (hwf : WellFormed loads arr chunks)
    {i : Nat} (hfound : BinarySearch arr.keyEnds idx (.error i)) (hi : i < chunks.length) :
    ∃ loc chunk, internalIdx arr.keyStarts arr.keyEnds (.error i) idx = .ok (some loc) ∧
      Locates chunks idx loc chunk := by
  have hlen : arr.keyEnds.length = chunks.length := by
    rw [hwf.keyEnds_eq, endsFrom_length, List.length_map]
  have hiw : i < (chunks.map List.length).length := by simpa using hi
  rw [hwf.keyEnds_eq] at hfound
  obtain ⟨hle, hlt⟩ := hfound.miss hiw
  have hstart : arr.keyStarts[i]? = some ((chunks.map List.length).take i).sum := by
    rw [hwf.keyStarts_eq, startsFrom_getElem? 0 _ hiw, Nat.zero_add]
  refine ⟨⟨i, idx - ((chunks.map List.length).take i).sum⟩, chunks[i], ?_, ?_⟩
  · unfold internalIdx arrayLoc
    have hne : i ≠ arr.keyEnds.length := by omega
    simp only [if_pos hne, index_ok hstart, exec_bind_ok, usizeSub_ok hle, exec_pure, ne_eq]
  · refine ⟨List.getElem?_eq_getElem hi, ?_, by simp only; omega⟩
    rw [List.take_add_one, List.sum_append, List.getElem?_map, List.getElem?_eq_getElem hi] at hlt
    simp at hlt
    simp only
    omega

/-- A miss past the table is out of bounds. -/
theorem internalIdx_miss_end {loads : Chunk T D C → List T → Prop}
    (hwf : WellFormed loads arr chunks)
    (hfound : BinarySearch arr.keyEnds idx (.error chunks.length)) :
    internalIdx arr.keyStarts arr.keyEnds (.error chunks.length) idx = .ok none ∧
      arr.len ≤ idx := by
  have hlen : arr.keyEnds.length = chunks.length := by
    rw [hwf.keyEnds_eq, endsFrom_length, List.length_map]
  constructor
  · unfold internalIdx
    simp only [hlen, ne_eq, not_true_eq_false, if_false, exec_pure]
  · rw [hwf.keyEnds_eq] at hfound
    have hend : BinarySearch (endsFrom 0 (chunks.map List.length)) idx
        (.error (chunks.map List.length).length) := by simpa using hfound
    rw [hwf.len_eq, List.length_flatten]
    exact hend.miss_end

/-! ## The lookup as a whole -/

/-- **`EmptyBehind arr chunks idx`** — some chunk other than the first is empty and begins at `idx`;
equivalently, `idx` stands in `key_ends` more than once. -/
def EmptyBehind (arr : BackedArray (Chunk T D C)) (chunks : List (List T)) (idx : Nat) : Prop :=
  ∃ i, arr.keyStarts[i + 1]? = some idx ∧ chunks[i + 1]? = some []

/-- The end before an empty chunk is a permitted answer of the search, and leads into that chunk. -/
theorem EmptyBehind.hit (hwf : WellFormed (Loads io s) arr chunks) {i : Nat}
    (hstart : arr.keyStarts[i + 1]? = some idx) (hempty : chunks[i + 1]? = some []) :
    BinarySearch arr.keyEnds idx (.ok i) ∧
      internalIdx arr.keyStarts arr.keyEnds (.ok i) idx =
        .ok (some { entryIdx := i + 1, insideEntryIdx := 0 }) := by
  have hi : i + 1 < chunks.length := (List.getElem?_eq_some_iff.mp hempty).1
  have hend : arr.keyEnds[i]? = some idx := by
    rw [← hwf.keys.next i (by simpa using hi), hstart]
  have hfound : BinarySearch arr.keyEnds idx (.ok i) := .found hend
  exact ⟨hfound, (internalIdx_hit hwf hfound hi).1⟩

/-- **`get` panics behind an empty chunk**: the search may answer so that the empty chunk is indexed. -/
theorem get_panics (hwf : WellFormed (Loads io s) arr chunks) (h : EmptyBehind arr chunks idx) :
    ∃ found, BinarySearch arr.keyEnds idx found ∧
      arr.get io found idx s = .error .indexOutOfBounds := by
  obtain ⟨i, hstart, hempty⟩ := h
  obtain ⟨hfound, hloc⟩ := EmptyBehind.hit hwf hstart hempty
  obtain ⟨arr', s', hget⟩ :=
    getLoc_eq hwf { entryIdx := i + 1, insideEntryIdx := 0 } hempty
  refine ⟨.ok i, hfound, ?_⟩
  unfold BackedArray.get
  rw [hloc, exec_bind_ok]
  simp only [hget, index_panics (Nat.le_of_eq List.length_nil), exec_bind_error]

/-- **`generic_get` hides the element** in the same place: it reports the index as out of bounds. -/
theorem genericGet_hides (hwf : WellFormed (Loads io s) arr chunks)
    (h : EmptyBehind arr chunks idx) :
    ∃ found, BinarySearch arr.keyEnds idx found ∧
      Answers (arr.genericGet io found idx s) (.error (.outsideEntryBounds idx)) := by
  obtain ⟨i, hstart, hempty⟩ := h
  obtain ⟨hfound, hloc⟩ := EmptyBehind.hit hwf hstart hempty
  obtain ⟨arr', s', hget⟩ :=
    genericGetLoc_eq hwf { entryIdx := i + 1, insideEntryIdx := 0 } idx hempty
  refine ⟨.ok i, hfound, arr', s', ?_⟩
  unfold BackedArray.genericGet
  rw [hloc, exec_bind_ok]
  simp only [hget, List.getElem?_nil]

/-- Away from empty chunks every permitted answer of the search is served by both families. -/
theorem serves_of_not_emptyBehind (hwf : WellFormed (Loads io s) arr chunks)
    (h : ¬ EmptyBehind arr chunks idx) {found : Except Nat Nat}
    (hfound : BinarySearch arr.keyEnds idx found) :
    Serves arr chunks idx (arr.get io found idx s) ∧
      Serves arr chunks idx (arr.genericGet io found idx s) := by
  have hlen : arr.keyEnds.length = chunks.length := by
    rw [hwf.keyEnds_eq, endsFrom_length, List.length_map]
  cases found with
  | ok i =>
      have hi : i < chunks.length := by
        cases hfound with
        | found hget => rw [← hlen]; exact (List.getElem?_eq_some_iff.mp hget).1
      rcases Nat.lt_or_eq_of_le (Nat.succ_le_of_lt hi) with hnext | hlast
      · obtain ⟨hloc, hsum⟩ := internalIdx_hit hwf hfound hnext
        have hchunk : chunks[i + 1]? = some chunks[i + 1] := List.getElem?_eq_getElem hnext
        -- the entry behind the hit begins at `idx`, so it is the one chunk that must not be empty
        have hne : chunks[i + 1] ≠ [] := by
          intro hnil
          apply h
          refine ⟨i, ?_, by rw [hchunk, hnil]⟩
          rw [hwf.keyStarts_eq, startsFrom_getElem? 0 _ (by simpa using hnext), Nat.zero_add, hsum]
        have hlocates : Locates chunks idx { entryIdx := i + 1, insideEntryIdx := 0 }
            chunks[i + 1] := ⟨hchunk, List.length_pos_iff.mpr hne, hsum⟩
        exact ⟨get_serves_of_locates hwf hloc hlocates,
          genericGet_serves_of_locates hwf hloc hlocates⟩
      · obtain ⟨hloc, hidx⟩ := internalIdx_hit_last hwf hfound hlast
        exact serves_of_none (Nat.le_of_eq hidx) hloc
  | error i =>
      rcases Nat.lt_or_ge i chunks.length with hi | hi
      · obtain ⟨loc, chunk, hloc, hlocates⟩ := internalIdx_miss hwf hfound hi
        exact ⟨get_serves_of_locates hwf hloc hlocates,
          genericGet_serves_of_locates hwf hloc hlocates⟩
      · have hend : i = chunks.length := by
          cases hfound with
          | absent _ hle _ _ => omega
        subst hend
        obtain ⟨hloc, hge⟩ := internalIdx_miss_end hwf hfound
        exact serves_of_none hge hloc

/-- **The exact condition of the lookups.**  On a well-formed array, `get`, `generic_get` and `a_get`
serve `idx` whatever position the binary search answers with, exactly when no empty chunk other than
the first begins at `idx`. -/
theorem get_exact (io : Medium (List T) D C S E) (arr : BackedArray (Chunk T D C))
    (chunks : List (List T)) (s : S) (hwf : WellFormed (Loads io s) arr chunks) (idx : Nat) :
    (∀ found, BinarySearch arr.keyEnds idx found →
        Serves arr chunks idx (arr.get io found idx s) ∧
        Serves arr chunks idx (arr.genericGet io found idx s) ∧
        Serves arr chunks idx (arr.aGet io found idx s)) ↔
      ¬ EmptyBehind arr chunks idx := by
  constructor
  · intro hall hempty
    obtain ⟨found, hfound, hpanic⟩ := get_panics hwf hempty
    obtain ⟨hget, -, -⟩ := hall found hfound
    rw [hpanic] at hget
    rcases Nat.lt_or_ge idx arr.len with hlt | hge
    · obtain ⟨x, -, arr', s', hok⟩ := hget.inside hlt
      cases hok
    · obtain ⟨arr', s', hok⟩ := hget.outside hge
      cases hok
  · intro h found hfound
    obtain ⟨hget, hgeneric⟩ := serves_of_not_emptyBehind hwf h hfound
    exact ⟨hget, hgeneric, by rw [BackedArray.aGet_eq_get]; exact hget⟩

end

/-! ## The two-element array with an empty chunk in the middle -/

/-- Chunks `[10]`, `[]`, `[20]`, each on its own disk, nothing in memory. -/
def gapArray : BackedArray (Chunk Nat (Option (List Nat)) Unit) where
  keyStarts := [0, 1, 1]
  keyEnds := [1, 1, 2]
  entries := [.new (some [10]) (), .new (some []) (), .new (some [20]) ()]

theorem gapArray_wellFormed :
    WellFormed (Loads (scripted (List Nat)) []) gapArray [[10], [], [20]] where
  keys := consecutive_iff.mpr ⟨rfl, rfl⟩
  entries := .cons ⟨_, _, rfl⟩ (.cons ⟨_, _, rfl⟩ (.cons ⟨_, _, rfl⟩ .nil))

/-- Position 1 holds `20`, but the search may answer `Ok(0)`, and then `get(1)` panics while
`generic_get(1)` says the index is out of bounds. -/
theorem gapArray_get_fails :
    WellFormed (Loads (scripted (List Nat)) []) gapArray [[10], [], [20]] ∧
      BinarySearch gapArray.keyEnds 1 (.ok 0) ∧
      [[10], [], [20]].flatten[1]? = some 20 ∧
      gapArray.get (scripted (List Nat)) (.ok 0) 1 [] = .error .indexOutOfBounds ∧
      ¬ Serves gapArray [[10], [], [20]] 1
          (gapArray.get (scripted (List Nat)) (.ok 0) 1 []) ∧
      ¬ Serves gapArray [[10], [], [20]] 1
          (gapArray.genericGet (scripted (List Nat)) (.ok 0) 1 []) := by
  refine ⟨gapArray_wellFormed, .found rfl, rfl, rfl, ?_, ?_⟩
  · intro h
    obtain ⟨x, -, arr', s', hok⟩ := h.inside (by decide)
    cases hok
  · intro h
    obtain ⟨x, -, arr', s', hok⟩ := h.inside (by decide)
    cases hok

/-- No empty chunk begins at position 0 of the same array, so all three lookups serve it, for every
answer of the search. -/
theorem gapArray_get_zero :
    ¬ EmptyBehind gapArray [[10], [], [20]] 0 ∧
      ∀ found, BinarySearch gapArray.keyEnds 0 found →
        Serves gapArray [[10], [], [20]] 0 (gapArray.get (scripted (List Nat)) found 0 []) ∧
        Serves gapArray [[10], [], [20]] 0 (gapArray.genericGet (scripted (List Nat)) found 0 []) ∧
        Serves gapArray [[10], [], [20]] 0 (gapArray.aGet (scripted (List Nat)) found 0 []) := by
  have hfree : ¬ EmptyBehind gapArray [[10], [], [20]] 0 := by
    rintro ⟨i, hstart, -⟩
    rcases i with _ | _ | i <;> simp [gapArray] at hstart
  exact ⟨hfree, (get_exact (scripted (List Nat)) gapArray [[10], [], [20]] [] gapArray_wellFormed
    0).mpr hfree⟩

end BackedData.Array
