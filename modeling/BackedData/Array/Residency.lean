/-
# BackedData.Array.Residency — which chunks are in memory, and that nothing else depends on it

Reads pull chunks into memory and `clear_memory`, `clear_chunk` and `shrink_to_query` push them out.  The
abstract view of an array is the list of its chunks together with the set of those in memory: a read loads
at most one chunk (`LoadsOne`), an eviction says exactly which it unloads (`Effect`), and neither is seen
in the keys or in what `chunk_iter` returns (`Observes`).  Disks may fail at any read.
-/
import BackedData.Array.Iter
import BackedData.Array.Resize

namespace BackedData.Array

open Logic.Outcome
open Logic.Ranges
open Logic.Trace
open BackedData.Entry

set_option autoImplicit false

variable {Ent T D C S E : Type}

/-! ## The operations -/

namespace BackedArray

/-- `clear_chunk`. -/
def clearChunk (self : BackedArray (Chunk T D C)) (idx : Nat) : BackedArray (Chunk T D C) :=
  match self.entries[idx]? with
  | some val => self.setEntry idx val.unload
  | none => self

/-- `!idxs.iter().any(|idx| (**start..**end).contains(idx))`. -/
def unneeded (idxs : List Nat) (range : (Nat × Nat) × Nat) : Bool :=
  !idxs.any fun idx => decide (range.1.1 ≤ idx) && decide (idx < range.1.2)

/-- `shrink_to_query`; what it does to an entry is what `clear_chunk` does. -/
def shrinkToQuery (self : BackedArray (Chunk T D C)) (idxs : List Nat) : BackedArray (Chunk T D C) :=
  ((self.keyStarts.zip self.keyEnds).zipIdx.filter (unneeded idxs)).foldl
    (fun self range => self.clearChunk range.2) self

/-- One term of the sum in `loaded_len`. -/
def addRange (sum : Nat) (ent : Chunk T D C × Nat × Nat) : Exec Nat := do
  let range ← usizeSub ent.2.2 ent.2.1
  usizeAdd sum range

/-- `loaded_len`. -/
def loadedLen (self : BackedArray (Chunk T D C)) : Exec Nat :=
  ((self.entries.zip (self.keyStarts.zip self.keyEnds)).filter fun ent => ent.1.isLoaded).foldlM
    addRange 0

/-- `next` of `chunk_iter`, and of `generic_chunk_iter`, come to entry `i`. -/
def chunkNext (io : Medium (List T) D C S E) (self : BackedArray (Chunk T D C)) (i : Nat) (s : S) :
    Option (Except E (List T)) × BackedArray (Chunk T D C) × S :=
  match self.entries[i]? with
  | none => (none, self, s)
  | some arr =>
      match arr.load io s with
      | (r, arr, s) => (some r, self.setEntry i arr, s)

/-- `chunk_iter`, `n` times, from entry `i` on: the answers up to the first `None`. -/
def chunksFrom (io : Medium (List T) D C S E) (self : BackedArray (Chunk T D C)) :
    Nat → Nat → S → List (Except E (List T))
  | 0, _, _ => []
  | n + 1, i, s =>
      match self.chunkNext io i s with
      | (none, _, _) => []
      | (some r, self, s) => r :: self.chunksFrom io n (i + 1) s

/-- `chunk_iter().collect()`. -/
def collectChunks (io : Medium (List T) D C S E) (self : BackedArray (Chunk T D C)) (s : S) :
    List (Except E (List T)) :=
  self.chunksFrom io self.entries.length 0 s

end BackedArray

/-- The reads: the two lookups with the answer of their search, a call on an item iterator wherever it
stands, a step of the chunk iterator. -/
inductive Read where
  | get (search : Except Nat Nat) (idx : Nat)
  | genericGet (search : Except Nat Nat) (idx : Nat)
  | nth (it : BackedArrayIter) (n : Nat)
  | genericNth (it : BackedArrayGenericIter) (n : Nat)
  | chunk (i : Nat)
  deriving DecidableEq, Repr

/-- A read, and the evictions. -/
inductive CacheOp where
  | read (r : Read)
  | clearMemory
  | clearChunk (idx : Nat)
  | shrinkToQuery (idxs : List Nat)
  deriving DecidableEq, Repr

/-- The array and the surroundings a read leaves. -/
def Read.apply (io : Medium (List T) D C S E) (arr : BackedArray (Chunk T D C)) (s : S) :
    Read → Exec (BackedArray (Chunk T D C) × S)
  | .get search idx => do
      let (_, arr, s) ← arr.get io search idx s
      pure (arr, s)
  | .genericGet search idx => do
      let (_, arr, s) ← arr.genericGet io search idx s
      pure (arr, s)
  | .nth it n => do
      let (_, arr, _, s) ← BackedArrayIter.nth usizeAdd io n (arr, it, s)
      pure (arr, s)
  | .genericNth it n => do
      let (_, arr, _, s) ← BackedArrayGenericIter.nth usizeAdd io n (arr, it, s)
      pure (arr, s)
  | .chunk i =>
      match arr.chunkNext io i s with
      | (_, arr, s) => pure (arr, s)

/-- The array and the surroundings an operation leaves. -/
def CacheOp.apply (io : Medium (List T) D C S E) (arr : BackedArray (Chunk T D C)) (s : S) :
    CacheOp → Exec (BackedArray (Chunk T D C) × S)
  | .read r => r.apply io arr s
  | .clearMemory => pure (arr.clearMemory, s)
  | .clearChunk idx => pure (arr.clearChunk idx, s)
  | .shrinkToQuery idxs => pure (arr.shrinkToQuery idxs, s)

/-- The array and its surroundings as a system; an operation that panics is not taken. -/
def cacheNext (io : Medium (List T) D C S E) (st : BackedArray (Chunk T D C) × S) (op : CacheOp) :
    Option (BackedArray (Chunk T D C) × S) :=
  (op.apply io st.1 st.2).toOption

theorem cacheNext_inv {io : Medium (List T) D C S E} {st st' : BackedArray (Chunk T D C) × S}
    {op : CacheOp} (h : Steps (cacheNext io) st op st') : op.apply io st.1 st.2 = .ok st' := by
  unfold Steps cacheNext at h
  exact toOption_inv h

/-! ## A read loads at most one chunk -/

/-- **`LoadsOne io arr arr'`** — a read made of `arr` what it was, or loaded one of its entries. -/
inductive LoadsOne (io : Medium (List T) D C S E) (arr : BackedArray (Chunk T D C)) :
    BackedArray (Chunk T D C) → Prop where
  | none : LoadsOne io arr arr
  | load {i : Nat} {e e' : Chunk T D C} {s s' : S} {r : Except E (List T)}
      (he : arr.entries[i]? = some e) (hload : e.load io s = (r, e', s')) :
      LoadsOne io arr (arr.setEntry i e')

section Reads

variable {io : Medium (List T) D C S E} {arr arr' : BackedArray (Chunk T D C)} {s s' : S}

theorem getLoc_loadsOne {loc : ArrayLoc} {r : Except (BackedArrayError E) T}
    (h : arr.getLoc io loc s = .ok (r, arr', s')) : LoadsOne io arr arr' := by
  unfold BackedArray.getLoc at h
  obtain ⟨e, he, h⟩ := exec_bind_inv h
  rcases hload : e.load io s with ⟨err | chunk, e', t⟩
  · simp only [hload, exec_pure] at h
    cases h
    exact .load (index_inv he) hload
  · simp only [hload] at h
    obtain ⟨x, -, h⟩ := exec_bind_inv h
    cases h
    exact .load (index_inv he) hload

theorem genericGetLoc_loadsOne {loc : ArrayLoc} {pos : Nat} {r : Except (BackedArrayError E) T}
    (h : arr.genericGetLoc io loc pos s = .ok (r, arr', s')) : LoadsOne io arr arr' := by
  unfold BackedArray.genericGetLoc at h
  rcases he : arr.entries[loc.entryIdx]? with _ | e
  · rw [he] at h
    cases h
    exact .none
  · rw [he] at h
    rcases hload : e.load io s with ⟨err | chunk, e', t⟩
    · simp only [hload, exec_pure] at h
      cases h
      exact .load he hload
    · simp only [hload] at h
      -- the element is there or not, the chunk has been loaded
      split at h <;> cases h <;> exact .load he hload

/-- A lookup that ends in `lookup`, as `get` and `generic_get` do. -/
theorem lookup_loadsOne {found : Exec (Option ArrayLoc)} {r r₀ : Except (BackedArrayError E) T}
    {lookup : ArrayLoc → Exec (Except (BackedArrayError E) T × BackedArray (Chunk T D C) × S)}
    (hlook : ∀ loc, lookup loc = .ok (r, arr', s') → LoadsOne io arr arr')
    (h : (do match ← found with
          | none => pure (r₀, arr, s)
          | some loc => lookup loc) = .ok (r, arr', s')) : LoadsOne io arr arr' := by
  obtain ⟨loc, -, h⟩ := exec_bind_inv h
  cases loc with
  | none =>
      cases h
      exact .none
  | some loc => exact hlook loc h

theorem nthWith_loadsOne {lookup : Lookup T D C S E}
    (hlook : ∀ {arr' loc pos s s'} {r : Except (BackedArrayError E) T},
      lookup arr loc pos s = .ok (r, arr', s') → LoadsOne io arr arr')
    {add : Nat → Nat → Exec Nat} {n : Nat} {it it' : BackedArrayIter} {r : Option (Except E T)}
    (h : BackedArrayIter.nthWith add lookup n (arr, it, s) = .ok (r, arr', it', s')) :
    LoadsOne io arr arr' := by
  unfold BackedArrayIter.nthWith at h
  obtain ⟨⟨done, it₁⟩, -, h⟩ := exec_bind_inv h
  rcases done with _ | _
  · cases h
    exact .none
  · simp only at h
    split at h
    · cases h
      exact .none
    · obtain ⟨⟨res, arr₁, s₁⟩, hres, h⟩ := exec_bind_inv h
      -- whatever the lookup found, the rest of the call does not touch the array
      have hsame : arr₁ = arr' := by
        rcases res with (_ | err) | val
        · cases h
          rfl
        · obtain ⟨x, -, h⟩ := exec_bind_inv h
          cases h
          rfl
        · obtain ⟨x, -, h⟩ := exec_bind_inv h
          cases h
          rfl
      rw [← hsame]
      exact hlook hres

/-- **A read loads at most one chunk.** -/
theorem read_loadsOne {rd : Read} (h : rd.apply io arr s = .ok (arr', s')) : LoadsOne io arr arr' := by
  cases rd with
  | get search idx =>
      obtain ⟨⟨r, arr₁, s₁⟩, hget, h⟩ := exec_bind_inv h
      cases h
      exact lookup_loadsOne (fun loc => getLoc_loadsOne) hget
  | genericGet search idx =>
      obtain ⟨⟨r, arr₁, s₁⟩, hget, h⟩ := exec_bind_inv h
      cases h
      exact lookup_loadsOne (fun loc => genericGetLoc_loadsOne) hget
  | nth it n =>
      obtain ⟨⟨r, arr₁, it₁, s₁⟩, hnth, h⟩ := exec_bind_inv h
      cases h
      exact nthWith_loadsOne getLoc_loadsOne hnth
  | genericNth it n =>
      obtain ⟨⟨r, arr₁, it₁, s₁⟩, hnth, h⟩ := exec_bind_inv h
      cases h
      exact nthWith_loadsOne genericGetLoc_loadsOne hnth
  | chunk i =>
      unfold Read.apply BackedArray.chunkNext at h
      rcases he : arr.entries[i]? with _ | e
      · simp only [he] at h
        cases h
        exact .none
      · simp only [he] at h
        cases h
        exact .load he rfl

end Reads

/-! ## An eviction unloads exactly what it says -/

/-- **`Unloads P arr arr'`** — the entries at the places `P` are unloaded, the others and the keys are
left alone. -/
structure Unloads (P : Nat → Prop) (arr arr' : BackedArray (Chunk T D C)) : Prop where
  keyStarts : arr'.keyStarts = arr.keyStarts
  keyEnds : arr'.keyEnds = arr.keyEnds
  length : arr'.entries.length = arr.entries.length
  evicted : ∀ i, P i → arr'.entries[i]? = arr.entries[i]?.map BackedEntry.unload
  kept : ∀ i, ¬ P i → arr'.entries[i]? = arr.entries[i]?

/-- Chunk `i` is in memory. -/
def InMemory (arr : BackedArray (Chunk T D C)) (i : Nat) : Prop :=
  ∃ e, arr.entries[i]? = some e ∧ e.isLoaded = true

section Evictions

variable {arr arr' arr'' : BackedArray (Chunk T D C)} {P Q : Nat → Prop}

theorem Unloads.trans (h : Unloads P arr arr') (h' : Unloads Q arr' arr'') :
    Unloads (fun i => P i ∨ Q i) arr arr'' where
  keyStarts := h'.keyStarts.trans h.keyStarts
  keyEnds := h'.keyEnds.trans h.keyEnds
  length := h'.length.trans h.length
  evicted := by
    intro i hi
    by_cases hQ : Q i
    · rw [h'.evicted i hQ]
      by_cases hP : P i
      · -- unloading twice is unloading once
        rw [h.evicted i hP, Option.map_map]
        rfl
      · rw [h.kept i hP]
    · rw [h'.kept i hQ, h.evicted i (hi.resolve_right hQ)]
  kept := by
    intro i hi
    rw [h'.kept i fun hQ => hi (Or.inr hQ), h.kept i fun hP => hi (Or.inl hP)]

/-- The places may be named differently, as far as there are entries. -/
theorem Unloads.congr (h : Unloads P arr arr')
    (hPQ : ∀ i, i < arr.entries.length → (P i ↔ Q i)) : Unloads Q arr arr' where
  keyStarts := h.keyStarts
  keyEnds := h.keyEnds
  length := h.length
  evicted := by
    intro i hi
    rcases Nat.lt_or_ge i arr.entries.length with hlt | hge
    · exact h.evicted i ((hPQ i hlt).mpr hi)
    · rw [List.getElem?_eq_none hge, List.getElem?_eq_none (by rw [h.length]; exact hge)]
      rfl
  kept := by
    intro i hi
    rcases Nat.lt_or_ge i arr.entries.length with hlt | hge
    · exact h.kept i fun hP => hi ((hPQ i hlt).mp hP)
    · rw [List.getElem?_eq_none hge, List.getElem?_eq_none (by rw [h.length]; exact hge)]

/-- What is in memory afterwards. -/
theorem Unloads.inMemory_iff (h : Unloads P arr arr') (i : Nat) :
    InMemory arr' i ↔ InMemory arr i ∧ ¬ P i := by
  unfold InMemory
  by_cases hP : P i
  · rw [h.evicted i hP]
    constructor
    · rintro ⟨e, he, hload⟩
      obtain ⟨e₀, -, rfl⟩ := Option.map_eq_some_iff.mp he
      cases hload
    · intro hmem
      exact absurd hP hmem.2
  · rw [h.kept i hP]
    exact ⟨fun hmem => ⟨hmem, hP⟩, And.left⟩

theorem clearMemory_unloads (arr : BackedArray (Chunk T D C)) :
    Unloads (fun _ => True) arr arr.clearMemory where
  keyStarts := rfl
  keyEnds := rfl
  length := List.length_map _
  evicted := fun _ _ => List.getElem?_map
  kept := fun _ hi => absurd trivial hi

theorem clearChunk_unloads (arr : BackedArray (Chunk T D C)) (idx : Nat) :
    Unloads (fun i => i = idx) arr (arr.clearChunk idx) := by
  unfold BackedArray.clearChunk
  rcases he : arr.entries[idx]? with _ | e
  · refine ⟨rfl, rfl, rfl, ?_, fun i _ => rfl⟩
    intro i hi
    rw [hi, he]
    rfl
  · refine ⟨rfl, rfl, List.length_set, ?_, ?_⟩
    · intro i hi
      subst hi
      show (arr.entries.set i e.unload)[i]? = _
      rw [List.getElem?_set_self (List.getElem?_eq_some_iff.mp he).1, he]
      rfl
    · intro i hi
      exact List.getElem?_set_ne fun h => hi h.symm

/-- Clearing one chunk after another. -/
theorem clearChunks_unloads (ranges : List ((Nat × Nat) × Nat)) (arr : BackedArray (Chunk T D C)) :
    Unloads (fun i => ∃ range ∈ ranges, range.2 = i) arr
      (ranges.foldl (fun self range => self.clearChunk range.2) arr) := by
  induction ranges generalizing arr with
  | nil =>
      refine ⟨rfl, rfl, rfl, ?_, fun i _ => rfl⟩
      rintro i ⟨range, hmem, -⟩
      exact absurd hmem List.not_mem_nil
  | cons range ranges ih =>
      refine ((clearChunk_unloads arr range.2).trans (ih _)).congr ?_
      intro i _
      simp only [List.mem_cons, exists_eq_or_imp]
      rw [eq_comm]

/-- **`shrink_to_query`** unloads the chunks in whose range no index lies. -/
theorem shrinkToQuery_unloads {loads : Chunk T D C → List T → Prop} {chunks : List (List T)}
    (hwf : WellFormed loads arr chunks) (idxs : List Nat) :
    Unloads (fun i => ¬ ∃ idx ∈ idxs, InRange arr i idx) arr (arr.shrinkToQuery idxs) := by
  refine (clearChunks_unloads _ arr).congr ?_
  intro i hi
  have hlt : i < (chunks.map List.length).length := by
    rw [List.length_map, ← hwf.entries_length]
    exact hi
  obtain ⟨hs, he⟩ := hwf.keys.getElem? i hlt
  have hat : ∀ range : Nat × Nat, (range, i) ∈ (arr.keyStarts.zip arr.keyEnds).zipIdx ↔
      arr.keyStarts[i]? = some range.1 ∧ arr.keyEnds[i]? = some range.2 := by
    intro range
    rw [List.mk_mem_zipIdx_iff_getElem?, List.getElem?_zip_eq_some]
  have hneed : ∀ range : Nat × Nat, arr.keyStarts[i]? = some range.1 →
      arr.keyEnds[i]? = some range.2 →
      (BackedArray.unneeded idxs (range, i) = true ↔ ¬ ∃ idx ∈ idxs, InRange arr i idx) := by
    intro range hstart hend
    simp [BackedArray.unneeded, InRange, hstart, hend]
  constructor
  · rintro ⟨⟨range, j⟩, hmem, rfl⟩
    obtain ⟨hin, hun⟩ := List.mem_filter.mp hmem
    obtain ⟨hstart, hend⟩ := (hat range).mp hin
    exact (hneed range hstart hend).mp hun
  · intro hnone
    refine ⟨((((chunks.map List.length).take i).sum, ((chunks.map List.length).take (i + 1)).sum), i),
      ?_, rfl⟩
    exact List.mem_filter.mpr ⟨(hat _).mpr ⟨hs, he⟩, (hneed _ hs he).mpr hnone⟩

end Evictions

/-! ## What does not depend on residency -/

section Contents

variable {io : Medium (List T) D C S E} {stored : C → D → Option (List T)}
  {arr₀ arr arr' : BackedArray (Chunk T D C)} {chunks : List (List T)} {s : S}

theorem Holds.unload {e : Chunk T D C} {chunk : List T} (h : Holds stored e chunk) :
    Holds stored e.unload chunk := ⟨Or.inl rfl, h.2⟩

/-- A load returns the chunk the entry holds or fails, and the entry holds it still. -/
theorem Holds.load (hio : Lawful io stored) {e e' : Chunk T D C} {chunk : List T} {s' : S}
    {r : Except E (List T)} (h : Holds stored e chunk) (hload : e.load io s = (r, e', s')) :
    Holds stored e' chunk ∧ (e.isLoaded = true → e'.isLoaded = true) ∧
      ∀ x, r = .ok x → x = chunk := by
  obtain ⟨hval, hst⟩ := h
  cases r with
  | error err =>
      obtain ⟨hnone, hnone', hst'⟩ := hio.load_error hload
      refine ⟨⟨Or.inl hnone', hst'.trans hst⟩, ?_, fun x hx => by cases hx⟩
      intro hloaded
      rw [BackedEntry.isLoaded, hnone] at hloaded
      cases hloaded
  | ok v =>
      obtain ⟨hval', hst', hcase⟩ := hio.load_ok hload
      have hv : v = chunk := by
        rcases hcase with hcached | ⟨-, hread⟩
        · rcases hval with hnone | hsome
          · rw [hnone] at hcached
            cases hcached
          · rw [hsome] at hcached
            exact (Option.some.inj hcached).symm
        · rw [hst] at hread
          exact (Option.some.inj hread).symm
      subst hv
      refine ⟨⟨Or.inr hval', hst'.trans hst⟩, fun _ => ?_, fun x hx => (Except.ok.inj hx).symm⟩
      rw [BackedEntry.isLoaded, hval']
      rfl

/-- **`Unseen stored arr₀ chunks arr`** — `arr` differs from `arr₀` in which chunks are in memory, at
most: the keys are the same, and it holds `chunks` as before. -/
structure Unseen (stored : C → D → Option (List T)) (arr₀ : BackedArray (Chunk T D C))
    (chunks : List (List T)) (arr : BackedArray (Chunk T D C)) : Prop where
  keyStarts : arr.keyStarts = arr₀.keyStarts
  keyEnds : arr.keyEnds = arr₀.keyEnds
  wellFormed : WellFormed (Holds stored) arr chunks

theorem Unseen.loadsOne (hio : Lawful io stored) (h : Unseen stored arr₀ chunks arr)
    (hload : LoadsOne io arr arr') : Unseen stored arr₀ chunks arr' := by
  cases hload with
  | none => exact h
  | @load i e e' s s' r he hload =>
      obtain ⟨chunk, hchunk, hholds⟩ := h.wellFormed.chunk he
      exact ⟨h.keyStarts, h.keyEnds, h.wellFormed.setEntry hchunk (hholds.load hio hload).1⟩

theorem Unseen.unloads {P : Nat → Prop} (h : Unseen stored arr₀ chunks arr)
    (hun : Unloads P arr arr') : Unseen stored arr₀ chunks arr' := by
  refine ⟨hun.keyStarts.trans h.keyStarts, hun.keyEnds.trans h.keyEnds, ?_, ?_⟩
  · rw [hun.keyStarts, hun.keyEnds]
    exact h.wellFormed.keys
  · refine List.forall₂_iff_get.mpr ⟨hun.length.trans h.wellFormed.entries_length, ?_⟩
    intro i hi hi'
    obtain ⟨e, he, hholds⟩ := h.wellFormed.entry (List.getElem?_eq_getElem hi')
    have hat : arr'.entries[i]? = some (arr'.entries.get ⟨i, hi⟩) := List.getElem?_eq_getElem hi
    by_cases hP : P i
    · rw [hun.evicted i hP, he] at hat
      rw [← Option.some.inj hat]
      exact hholds.unload
    · rw [hun.kept i hP, he] at hat
      rw [← Option.some.inj hat]
      exact hholds

/-- A loaded chunk stays loaded through a read. -/
theorem LoadsOne.inMemory (hio : Lawful io stored) (h : Unseen stored arr₀ chunks arr)
    (hload : LoadsOne io arr arr') {i : Nat} (hi : InMemory arr i) : InMemory arr' i := by
  cases hload with
  | none => exact hi
  | @load j e e' s s' r he hload =>
      obtain ⟨e₁, he₁, hloaded⟩ := hi
      by_cases hij : j = i
      · subst hij
        obtain rfl : e = e₁ := Option.some.inj (he.symm.trans he₁)
        have hlt : j < arr.entries.length := (List.getElem?_eq_some_iff.mp he).1
        obtain ⟨chunk, -, hholds⟩ := h.wellFormed.chunk he
        exact ⟨e', List.getElem?_set_self hlt, (hholds.load hio hload).2.1 hloaded⟩
      · exact ⟨e₁, (List.getElem?_set_ne hij).trans he₁, hloaded⟩

/-- The lengths of the chunks in memory, together. -/
def residentLen (entries : List (Chunk T D C)) (chunks : List (List T)) : Nat :=
  (((entries.zip chunks).filter fun ent => ent.1.isLoaded).map fun ent => ent.2.length).sum

/-- The sum of `loaded_len`, behind the first entries. -/
theorem loadedLen_from (base sum : Nat) {entries : List (Chunk T D C)} {chunks : List (List T)}
    (hlen : entries.length = chunks.length) (hsum : sum ≤ base)
    (hfit : base + (chunks.map List.length).sum < usizeSize) :
    ((entries.zip ((startsFrom base (chunks.map List.length)).zip
        (endsFrom base (chunks.map List.length)))).filter fun ent => ent.1.isLoaded).foldlM
      BackedArray.addRange sum = .ok (sum + residentLen entries chunks) := by
  induction entries generalizing base sum chunks with
  | nil => rfl
  | cons e entries ih =>
      cases chunks with
      | nil => cases hlen
      | cons chunk chunks =>
          simp only [List.map_cons, List.sum_cons] at hfit
          have hlen' : entries.length = chunks.length := Nat.succ.inj hlen
          simp only [List.map_cons, startsFrom, endsFrom, List.zip_cons_cons, List.filter_cons]
          by_cases hloaded : e.isLoaded = true
          · have hadd : BackedArray.addRange sum (e, base, base + chunk.length) =
                .ok (sum + chunk.length) := by
              simp only [BackedArray.addRange, usizeSub_add_left, exec_bind_ok]
              exact usizeAdd_ok (by omega)
            rw [if_pos hloaded, List.foldlM_cons, hadd, exec_bind_ok,
              ih (base + chunk.length) (sum + chunk.length) hlen' (by omega) (by omega)]
            simp only [residentLen, List.zip_cons_cons, List.filter_cons, if_pos hloaded,
              List.map_cons, List.sum_cons, Nat.add_assoc]
          · rw [if_neg hloaded, ih (base + chunk.length) sum hlen' (by omega) (by omega)]
            simp only [residentLen, List.zip_cons_cons, List.filter_cons, if_neg hloaded]

/-- **`loaded_len`** is the sum of the lengths of the chunks in memory. -/
theorem loadedLen_eq (hwf : WellFormed (Holds stored) arr chunks)
    (hfit : chunks.flatten.length < usizeSize) :
    arr.loadedLen = .ok (residentLen arr.entries chunks) := by
  unfold BackedArray.loadedLen
  rw [hwf.keyStarts_eq, hwf.keyEnds_eq,
    loadedLen_from 0 0 hwf.entries_length (Nat.le_refl 0) (by rw [List.length_flatten] at hfit; omega),
    Nat.zero_add]

/-- What is stored can be read, whenever it is asked for. -/
def Reliable (io : Medium (List T) D C S E) (stored : C → D → Option (List T)) : Prop :=
  ∀ (e : Chunk T D C) v s, e.storedValue stored = some v → (e.decodeFromDisk io s).1 = .ok v

/-- **`Observes io stored arr₀ chunks arr`** — what can be seen of `arr` without asking for what is in
memory is what could be seen of `arr₀`; and `loaded_len` counts exactly what is in memory.  An answer of the
chunk iterator is the chunk, or the error of a disk that could not be read. -/
structure Observes (io : Medium (List T) D C S E) (stored : C → D → Option (List T))
    (arr₀ : BackedArray (Chunk T D C)) (chunks : List (List T)) (arr : BackedArray (Chunk T D C)) :
    Prop where
  keyStarts : arr.keyStarts = arr₀.keyStarts
  keyEnds : arr.keyEnds = arr₀.keyEnds
  len : arr.len = arr₀.len
  chunk : ∀ i s, (arr.chunkNext io i s).1 = chunks[i]?.map .ok ∨
    i < chunks.length ∧ ∃ err, (arr.chunkNext io i s).1 = some (.error err)
  chunk_of_reliable : Reliable io stored →
    ∀ i s, (arr.chunkNext io i s).1 = chunks[i]?.map .ok
  loadedLen : arr.loadedLen = .ok (residentLen arr.entries chunks)

/-- A step of the chunk iterator. -/
theorem chunkNext_eq (hio : Lawful io stored) (hwf : WellFormed (Holds stored) arr chunks) (i : Nat)
    (s : S) :
    (arr.chunkNext io i s).1 = chunks[i]?.map .ok ∨
      (i < chunks.length ∧ ∃ err, (arr.chunkNext io i s).1 = some (.error err)) ∧
        ¬ Reliable io stored := by
  unfold BackedArray.chunkNext
  rcases he : arr.entries[i]? with _ | e
  · left
    have hge : chunks.length ≤ i := by
      rw [← hwf.entries_length]
      exact List.getElem?_eq_none_iff.mp he
    rw [List.getElem?_eq_none hge]
    rfl
  · obtain ⟨chunk, hchunk, hholds⟩ := hwf.chunk he
    simp only
    rcases hload : e.load io s with ⟨err | x, e', s'⟩
    · right
      refine ⟨⟨(List.getElem?_eq_some_iff.mp hchunk).1, err, rfl⟩, ?_⟩
      intro hreliable
      have hnone := (hio.load_error hload).1
      have hread := hreliable e chunk s hholds.2
      rw [BackedEntry.load, hnone] at hload
      rcases hdec : e.decodeFromDisk io s with ⟨r, e₁, s₁⟩
      rw [hdec] at hread hload
      obtain rfl : r = .ok chunk := hread
      cases hload
    · left
      rw [hchunk, (hholds.load hio hload).2.2 x rfl]
      rfl

theorem Unseen.observes (hio : Lawful io stored) (h : Unseen stored arr₀ chunks arr)
    (hfit : chunks.flatten.length < usizeSize) : Observes io stored arr₀ chunks arr where
  keyStarts := h.keyStarts
  keyEnds := h.keyEnds
  len := by
    unfold BackedArray.len
    rw [h.keyEnds]
  chunk := by
    intro i s
    exact (chunkNext_eq hio h.wellFormed i s).imp_right And.left
  chunk_of_reliable := by
    intro hreliable i s
    exact (chunkNext_eq hio h.wellFormed i s).resolve_right fun hfail => hfail.2 hreliable
  loadedLen := loadedLen_eq h.wellFormed hfit

end Contents

/-! ## Runs -/

/-- **`Effect st op st'`** — which chunks are in memory after an operation: an eviction keeps exactly
what it says of those that were, a read keeps all of them. -/
def Effect (st : BackedArray (Chunk T D C) × S) : CacheOp → BackedArray (Chunk T D C) × S → Prop
  | .read _, st' => ∀ i, InMemory st.1 i → InMemory st'.1 i
  | .clearMemory, st' => ∀ i, ¬ InMemory st'.1 i
  | .clearChunk idx, st' => ∀ i, InMemory st'.1 i ↔ InMemory st.1 i ∧ i ≠ idx
  | .shrinkToQuery idxs, st' =>
      ∀ i, InMemory st'.1 i ↔ InMemory st.1 i ∧ ∃ idx ∈ idxs, InRange st.1 i idx

section Run

variable {io : Medium (List T) D C S E} {stored : C → D → Option (List T)}
  {arr₀ : BackedArray (Chunk T D C)} {chunks : List (List T)}

/-- **The step lemma.** -/
theorem cacheStep_effect (hio : Lawful io stored) (st : BackedArray (Chunk T D C) × S) (op : CacheOp)
    (st' : BackedArray (Chunk T D C) × S) (h : Unseen stored arr₀ chunks st.1)
    (hnext : Steps (cacheNext io) st op st') :
    Unseen stored arr₀ chunks st'.1 ∧ Effect st op st' := by
  have hstep := cacheNext_inv hnext
  obtain ⟨arr, s⟩ := st
  obtain ⟨arr', s'⟩ := st'
  cases op with
  | read rd =>
      have hone := read_loadsOne hstep
      exact ⟨h.loadsOne hio hone, fun i hi => hone.inMemory hio h hi⟩
  | clearMemory =>
      cases hstep
      have hun := clearMemory_unloads arr
      refine ⟨h.unloads hun, fun i hi => ?_⟩
      exact ((hun.inMemory_iff i).mp hi).2 trivial
  | clearChunk idx =>
      cases hstep
      have hun := clearChunk_unloads arr idx
      exact ⟨h.unloads hun, hun.inMemory_iff⟩
  | shrinkToQuery idxs =>
      cases hstep
      have hun := shrinkToQuery_unloads h.wellFormed idxs
      refine ⟨h.unloads hun, fun i => ?_⟩
      rw [hun.inMemory_iff i, not_not]

/-- **Residency is all that changes.**  On a well-formed array, over disks and coders as documented,
along every interleaving of reads and evictions: in every state the keys, the length and what the chunk
iterator returns are those of the array at the start, and `loaded_len` is the sum of the lengths of the
chunks in memory; and every eviction keeps in memory exactly what it says. -/
theorem residency_unseen (io : Medium (List T) D C S E) (stored : C → D → Option (List T))
    (hio : Lawful io stored) (arr : BackedArray (Chunk T D C)) (chunks : List (List T))
    (hwf : WellFormed (Holds stored) arr chunks) (husize : ∀ key ∈ arr.keyEnds, key < usizeSize) (s : S)
    (tr : List (CacheOp × (BackedArray (Chunk T D C) × S)))
    (htr : IsTrace (Steps (cacheNext io)) (arr, s) tr) :
    StatesMeet (fun st => Observes io stored arr chunks st.1) (arr, s) tr ∧
      StepsMeet Effect (arr, s) tr := by
  have h0 : Unseen stored arr chunks arr := ⟨rfl, rfl, hwf⟩
  have hstep : ∀ st op st', Unseen stored arr chunks st.1 → Steps (cacheNext io) st op st' →
      Unseen stored arr chunks st'.1 ∧ Effect st op st' :=
    fun st op st' h hnext => cacheStep_effect hio st op st' h hnext
  -- the last key is the length of it all
  have hfit : chunks.flatten.length < usizeSize := by
    rw [← hwf.len_eq]
    unfold BackedArray.len
    rcases hlast : arr.keyEnds.getLast? with _ | key
    · exact Nat.two_pow_pos 64
    · exact husize key (List.mem_of_getLast? hlast)
  constructor
  · have hall := invariant (P := fun st => Unseen stored arr chunks st.1)
      (fun st op st' h hnext => (hstep st op st' h hnext).1) h0 htr
    exact ⟨hall.1.observes hio hfit, fun x hx => (hall.2 x hx).observes hio hfit⟩
  · exact stepsMeet_of_invariant (I := fun st => Unseen stored arr chunks st.1)
      (fun st op st' h hnext => (hstep st op st' h hnext).1)
      (fun st op st' h hnext => (hstep st op st' h hnext).2) h0 htr

end Run

/-- An empty chunk, a chunk of two in memory, and one of one that is not. -/
def residentArray : BackedArray (Chunk Nat (Option (List Nat)) Unit) where
  keyStarts := [0, 0, 2]
  keyEnds := [0, 2, 3]
  entries := [.new (some []) (), { value := some [10, 11], disk := some [10, 11], coder := () },
    .new (some [7]) ()]

/-- The first read of a disk fails. -/
def residentRun : List (CacheOp × (BackedArray (Chunk Nat (Option (List Nat)) Unit) × List Bool)) :=
  follow (cacheNext (scripted (List Nat))) (residentArray, [true])
    [.read (.chunk 2), .read (.genericGet (.error 2) 2), .shrinkToQuery [2], .read (.chunk 0),
      .clearChunk 2, .clearMemory]

theorem residency_unseen_sample :
    StatesMeet (fun st => Observes (scripted (List Nat)) (fun _ d => d) residentArray
        [[], [10, 11], [7]] st.1) (residentArray, [true]) residentRun ∧
      StepsMeet Effect (residentArray, [true]) residentRun :=
  residency_unseen (scripted (List Nat)) (fun _ d => d) (scripted_lawful (List Nat)) residentArray
    [[], [10, 11], [7]]
    ⟨consecutive_iff.mpr ⟨rfl, rfl⟩,
      .cons ⟨Or.inl rfl, rfl⟩ (.cons ⟨Or.inr rfl, rfl⟩ (.cons ⟨Or.inl rfl, rfl⟩ .nil))⟩
    (by decide) [true] residentRun (isTrace_follow _ _ _)

example : residentRun.map (fun x => x.2.1.entries.map BackedEntry.isLoaded) =
    [[false, true, false], [false, true, true], [false, false, true], [true, false, true],
      [true, false, false], [false, false, false]] := by
  decide

end BackedData.Array
