/-
# BackedData.Array.Resize — `append`, `append_memory`, `remove` and `merge` keep the tables in step

The purpose of the three tables is to be one list of chunks.  Here that list is the abstract model:
`Op.plain` is what an operation does to a plain list of lists (push at the end, delete at an index,
concatenate), in the same surroundings, so that a write which fails pushes nothing.  `Op.apply` is
what it does to a `BackedArray`.  One lemma per operation says that the array stays the layout of the
plain list; `runOps_refines` carries it along every sequence of operations from the empty array.
-/
import BackedData.Array.Basic
import BackedData.Entry.Spec
import BackedData.Logic.Trace
import Mathlib.Data.List.InsertIdx

namespace BackedData.Array

open Logic.Outcome
open Logic.Ranges
open Logic.Trace
open BackedData.Entry

set_option autoImplicit false

variable {T D C S E : Type}

/-- **`Holds stored e chunk`** — the entry keeps exactly this chunk: on its disk, and in memory if it
is loaded. -/
def Holds (stored : C → D → Option (List T)) (e : Chunk T D C) (chunk : List T) : Prop :=
  (e.value = none ∨ e.value = some chunk) ∧ e.storedValue stored = some chunk

/-- A well-formed array with the chunks it holds: what `merge` accepts on its right. -/
structure Filled (T D C : Type) (stored : C → D → Option (List T)) where
  array : BackedArray (Chunk T D C)
  chunks : List (List T)
  wellFormed : WellFormed (Holds stored) array chunks

/-- The resizing operations of a `BackedArray`. -/
inductive Op (T D C : Type) (stored : C → D → Option (List T)) where
  | append (values : List T) (backingStore : D) (coder : C)
  | appendMemory (values : List T) (backingStore : D) (coder : C)
  | remove (entryIdx : Nat)
  | merge (rhs : Filled T D C stored)

variable {stored : C → D → Option (List T)}

/-- The operation, on the array. -/
def Op.apply (io : Medium (List T) D C S E) (arr : BackedArray (Chunk T D C)) (s : S) :
    Op T D C stored → Exec (Except E Unit × BackedArray (Chunk T D C) × S)
  | .append values backingStore coder => arr.append io values backingStore coder s
  | .appendMemory values backingStore coder => arr.appendMemory io values backingStore coder s
  | .remove entryIdx => do
      let arr ← arr.remove entryIdx
      pure (.ok (), arr, s)
  | .merge rhs => do
      let arr ← arr.merge rhs.array
      pure (.ok (), arr, s)

/-- The operation, on a plain list of lists in the same surroundings. -/
def Op.plain (io : Medium (List T) D C S E) (chunks : List (List T)) (s : S) :
    Op T D C stored → Except E Unit × List (List T) × S
  | .append values backingStore coder =>
      match (BackedEntry.new backingStore coder).writeUnload io values s with
      | (.error e, _, s) => (.error e, chunks, s)
      | (.ok (), _, s) => (.ok (), chunks ++ [values], s)
  | .appendMemory values backingStore coder =>
      match (BackedEntry.new backingStore coder).write io values s with
      | (.error e, _, s) => (.error e, chunks, s)
      | (.ok (), _, s) => (.ok (), chunks ++ [values], s)
  | .remove entryIdx => (.ok (), chunks.eraseIdx entryIdx, s)
  | .merge rhs => (.ok (), chunks ++ rhs.chunks, s)

/-- A sequence of operations on an array: the result of each, with the array it leaves. -/
def runOps (io : Medium (List T) D C S E) :
    List (Op T D C stored) → BackedArray (Chunk T D C) → S →
      Exec (List (Except E Unit × BackedArray (Chunk T D C)))
  | [], _, _ => pure []
  | op :: ops, arr, s => do
      let (r, arr, s) ← op.apply io arr s
      let rest ← runOps io ops arr s
      pure ((r, arr) :: rest)

/-- The same sequence on a plain list of lists. -/
def plainOps (io : Medium (List T) D C S E) :
    List (Op T D C stored) → List (List T) → S → List (Except E Unit × List (List T))
  | [], _, _ => []
  | op :: ops, chunks, s =>
      match op.plain io chunks s with
      | (r, chunks, s) => (r, chunks) :: plainOps io ops chunks s

/-! ## One lemma per operation -/

section Tables

variable {Ent : Type} {keeps : Ent → List T → Prop} {arr rhs : BackedArray Ent}
  {chunks more : List (List T)}

/-- The last range end is the number of elements. -/
theorem WellFormed.getLast?_keyEnds (hwf : WellFormed keeps arr chunks) :
    arr.keyEnds.getLast?.getD 0 = chunks.flatten.length := hwf.len_eq

/-- **Pushing an entry** lays its chunk behind the others. -/
theorem pushEntry_wellFormed (hwf : WellFormed keeps arr chunks) {entry : Ent} {values : List T}
    (he : keeps entry values) (hfit : (chunks ++ [values]).flatten.length < usizeSize) :
    ∃ arr', arr.pushEntry entry values.length = .ok arr' ∧
      WellFormed keeps arr' (chunks ++ [values]) := by
  have hsum : chunks.flatten.length + values.length < usizeSize := by simpa using hfit
  refine ⟨{ keyStarts := arr.keyStarts ++ [chunks.flatten.length]
            keyEnds := arr.keyEnds ++ [chunks.flatten.length + values.length]
            entries := arr.entries ++ [entry] }, ?_, ?_⟩
  · unfold BackedArray.pushEntry
    simp only [hwf.getLast?_keyEnds, usizeAdd_ok hsum, exec_bind_ok, exec_pure]
  · refine ⟨consecutive_iff.mpr ⟨?_, ?_⟩, ?_⟩
    · show arr.keyStarts ++ [chunks.flatten.length] = _
      rw [List.map_append, startsFrom_append, hwf.keyStarts_eq, List.length_flatten, Nat.zero_add]
      rfl
    · show arr.keyEnds ++ [chunks.flatten.length + values.length] = _
      rw [List.map_append, endsFrom_append, hwf.keyEnds_eq, List.length_flatten, Nat.zero_add]
      rfl
    · exact List.rel_append hwf.entries (.cons he .nil)

/-- A push that returned. -/
theorem pushEntry_returned (hwf : WellFormed keeps arr chunks) {entry : Ent} {values : List T}
    {arr' : BackedArray Ent} (he : keeps entry values)
    (h : arr.pushEntry entry values.length = .ok arr') :
    WellFormed keeps arr' (chunks ++ [values]) ∧ arr'.entries = arr.entries ++ [entry] := by
  have hinv := h
  unfold BackedArray.pushEntry at hinv
  simp only at hinv
  obtain ⟨stop, hstop, hinv⟩ := exec_bind_inv hinv
  cases hinv
  refine ⟨?_, rfl⟩
  -- the sum was returned, so it fits
  have hfit : (chunks ++ [values]).flatten.length < usizeSize := by
    rw [hwf.getLast?_keyEnds] at hstop
    unfold usizeAdd at hstop
    split at hstop
    · next hlt => simpa using hlt
    · cases hstop
  obtain ⟨arr', hpush, hwf'⟩ := pushEntry_wellFormed hwf he hfit
  rw [h] at hpush
  cases hpush
  exact hwf'

/-- `key_remove` is `eraseShift` wherever no key underflows. -/
theorem keyRemove_ok {keys : List Nat} {i width : Nat} (hi : i < keys.length)
    (hle : ∀ x ∈ keys.drop (i + 1), width ≤ x) :
    BackedArray.keyRemove keys i width = .ok (eraseShift keys i width) := by
  have hdrop : (keys.eraseIdx i).drop i = keys.drop (i + 1) := by
    have hlen : (keys.take i).length = i := List.length_take_of_le (Nat.le_of_lt hi)
    rw [List.eraseIdx_eq_take_drop_succ, List.drop_append_of_le_length (Nat.le_of_eq hlen.symm),
      List.drop_eq_nil_of_le (Nat.le_of_eq hlen), List.nil_append]
  have htake : (keys.eraseIdx i).take i = keys.take i := List.take_eraseIdx_eq_take_of_le _ _ _ le_rfl
  unfold BackedArray.keyRemove
  rw [removeAt_ok hi, exec_bind_ok, hdrop, htake, mapM_ok (g := (· - width)), exec_bind_ok]
  · rfl
  · exact fun x hx => usizeSub_ok (hle x hx)

/-- Two tables related pointwise stay so when one index is erased from both. -/
theorem forall₂_eraseIdx {α β : Type} {R : α → β → Prop} {xs : List α} {ys : List β}
    (h : List.Forall₂ R xs ys) (i : Nat) : List.Forall₂ R (xs.eraseIdx i) (ys.eraseIdx i) := by
  rw [List.eraseIdx_eq_take_drop_succ, List.eraseIdx_eq_take_drop_succ]
  exact List.rel_append (List.forall₂_take i h) (List.forall₂_drop (i + 1) h)

/-- **Removing an entry** erases its chunk and shifts what follows; out of range nothing happens.
No key underflows. -/
theorem remove_wellFormed (hwf : WellFormed keeps arr chunks) (i : Nat) :
    ∃ arr', arr.remove i = .ok arr' ∧ WellFormed keeps arr' (chunks.eraseIdx i) := by
  have hstarts := hwf.keyStarts_eq
  have hends := hwf.keyEnds_eq
  by_cases hi : i < chunks.length
  · have hiw : i < (chunks.map List.length).length := by simpa using hi
    have hwidth : (chunks.map List.length)[i]? = some chunks[i].length := by
      rw [List.getElem?_map, List.getElem?_eq_getElem hi]
      rfl
    have hs := startsFrom_getElem? 0 _ hiw
    have he := endsFrom_getElem? 0 _ hiw
    have hwidth_sub : usizeSub (0 + ((chunks.map List.length).take (i + 1)).sum)
        (0 + ((chunks.map List.length).take i).sum) = .ok chunks[i].length := by
      rw [List.take_add_one, hwidth, List.sum_append, Nat.zero_add, Nat.zero_add,
        usizeSub_add_left]
      simp
    refine ⟨{ keyStarts := eraseShift arr.keyStarts i chunks[i].length
              keyEnds := eraseShift arr.keyEnds i chunks[i].length
              entries := arr.entries.eraseIdx i }, ?_, ?_⟩
    · have hks : BackedArray.keyRemove arr.keyStarts i chunks[i].length =
          .ok (eraseShift arr.keyStarts i chunks[i].length) := by
        apply keyRemove_ok
        · rw [hstarts, startsFrom_length]
          exact hiw
        · rw [hstarts]
          exact fun x hx => le_of_mem_startsFrom_drop 0 _ hwidth hx
      have hke : BackedArray.keyRemove arr.keyEnds i chunks[i].length =
          .ok (eraseShift arr.keyEnds i chunks[i].length) := by
        apply keyRemove_ok
        · rw [hends, endsFrom_length]
          exact hiw
        · rw [hends]
          exact fun x hx => le_of_mem_endsFrom_drop 0 _ hwidth hx
      have hent : removeAt arr.entries i = .ok (arr.entries.eraseIdx i) := by
        apply removeAt_ok
        rw [hwf.entries_length]
        exact hi
      unfold BackedArray.remove
      rw [hstarts, hs, hends, he]
      simp only [hwidth_sub, exec_bind_ok, hent]
      rw [← hstarts, ← hends, hks, exec_bind_ok, hke, exec_bind_ok, exec_pure]
    · have hmap : (chunks.eraseIdx i).map List.length = (chunks.map List.length).eraseIdx i :=
        (List.eraseIdx_map List.length chunks i).symm
      refine ⟨consecutive_iff.mpr ⟨?_, ?_⟩, forall₂_eraseIdx hwf.entries i⟩
      · rw [hmap, startsFrom_eraseIdx 0 _ hwidth, hstarts]
      · rw [hmap, endsFrom_eraseIdx 0 _ hwidth, hends]
  · have hnone : arr.keyStarts[i]? = none := by
      apply List.getElem?_eq_none
      rw [hstarts, startsFrom_length, List.length_map]
      exact Nat.le_of_not_lt hi
    refine ⟨arr, ?_, ?_⟩
    · unfold BackedArray.remove
      rw [hnone]
      rfl
    · rw [List.eraseIdx_of_length_le (Nat.le_of_not_lt hi)]
      exact hwf

/-- A removal takes out the entry, unless a key is missing. -/
theorem remove_inv {arr arr' : BackedArray Ent} {i : Nat} (h : arr.remove i = .ok arr') :
    arr'.entries = arr.entries.eraseIdx i ∨
      arr' = arr ∧ ∀ start stop, arr.keyStarts[i]? = some start → arr.keyEnds[i]? ≠ some stop := by
  unfold BackedArray.remove at h
  split at h
  · obtain ⟨width, -, h⟩ := exec_bind_inv h
    obtain ⟨entries, hentries, h⟩ := exec_bind_inv h
    obtain ⟨starts, -, h⟩ := exec_bind_inv h
    obtain ⟨ends, -, h⟩ := exec_bind_inv h
    cases h
    exact Or.inl (removeAt_inv hentries)
  · next hmiss =>
      cases h
      exact Or.inr ⟨rfl, hmiss⟩

/-- The entries a removal leaves. -/
theorem remove_entries (hwf : WellFormed keeps arr chunks) {i : Nat} {arr' : BackedArray Ent}
    (h : arr.remove i = .ok arr') : arr'.entries = arr.entries.eraseIdx i := by
  rcases remove_inv h with herased | ⟨rfl, hmiss⟩
  · exact herased
  · have hge : arr'.entries.length ≤ i := by
      rw [hwf.entries_length]
      by_contra hlt
      have hi : i < (chunks.map List.length).length := by simpa using hlt
      obtain ⟨hs, he⟩ := hwf.keys.getElem? i hi
      exact hmiss _ _ hs he
    exact (List.eraseIdx_of_length_le hge).symm

/-- What `merge` returns. -/
def merged {Ent : Type} (arr rhs : BackedArray Ent) : BackedArray Ent where
  keyStarts := arr.keyStarts ++ rhs.keyStarts.map (· + arr.keyEnds.getLast?.getD 0)
  keyEnds := arr.keyEnds ++ rhs.keyEnds.map (· + arr.keyEnds.getLast?.getD 0)
  entries := arr.entries ++ rhs.entries

/-- A merge that returned. -/
theorem merge_inv {Ent : Type} {arr rhs arr' : BackedArray Ent} (h : arr.merge rhs = .ok arr') :
    arr' = merged arr rhs := by
  unfold BackedArray.merge at h
  simp only at h
  have hadd : ∀ x y, usizeAdd x (arr.keyEnds.getLast?.getD 0) = .ok y →
      y = x + arr.keyEnds.getLast?.getD 0 := fun _ _ => usizeAdd_inv
  rcases hs : rhs.keyStarts.mapM (usizeAdd · (arr.keyEnds.getLast?.getD 0)) with p | starts
  · rw [hs] at h
    cases h
  · rw [hs, exec_bind_ok] at h
    rcases he : rhs.keyEnds.mapM (usizeAdd · (arr.keyEnds.getLast?.getD 0)) with p | ends
    · rw [he] at h
      cases h
    · rw [he, exec_bind_ok, exec_pure] at h
      cases h
      rw [mapM_inv hadd hs, mapM_inv hadd he]
      rfl

/-- The keys of the right array, shifted, go on where those of the left one end. -/
theorem merged_keys (hwf : WellFormed keeps arr chunks) (hrhs : WellFormed keeps rhs more) :
    Consecutive (merged arr rhs).keyStarts (merged arr rhs).keyEnds
      ((chunks ++ more).map List.length) := by
  unfold merged
  rw [hwf.getLast?_keyEnds]
  refine consecutive_iff.mpr ⟨?_, ?_⟩
  · show arr.keyStarts ++ rhs.keyStarts.map (· + chunks.flatten.length) = _
    rw [List.map_append, startsFrom_append, hwf.keyStarts_eq, hrhs.keyStarts_eq,
      List.length_flatten, startsFrom_add]
  · show arr.keyEnds ++ rhs.keyEnds.map (· + chunks.flatten.length) = _
    rw [List.map_append, endsFrom_append, hwf.keyEnds_eq, hrhs.keyEnds_eq,
      List.length_flatten, endsFrom_add]

/-- **Merging** lays the chunks of the right array behind those of the left one. -/
theorem merge_wellFormed (hwf : WellFormed keeps arr chunks) (hrhs : WellFormed keeps rhs more)
    (hfit : (chunks ++ more).flatten.length < usizeSize) :
    ∃ arr', arr.merge rhs = .ok arr' ∧ WellFormed keeps arr' (chunks ++ more) := by
  -- every key of `rhs` is at most its length, so no shifted key leaves the word
  have hbound : ∀ x, x ∈ rhs.keyStarts ∨ x ∈ rhs.keyEnds → x ≤ more.flatten.length := by
    intro x hx
    rw [hrhs.keyStarts_eq, hrhs.keyEnds_eq] at hx
    rw [List.length_flatten, ← Nat.zero_add (more.map List.length).sum]
    rcases hx with hx | hx
    · exact le_sum_of_mem_startsFrom 0 _ hx
    · exact le_sum_of_mem_endsFrom 0 _ hx
  have hfit' : chunks.flatten.length + more.flatten.length < usizeSize := by
    simpa [List.flatten_append, List.length_append] using hfit
  have hadd : ∀ x, x ∈ rhs.keyStarts ∨ x ∈ rhs.keyEnds →
      usizeAdd x (arr.keyEnds.getLast?.getD 0) = .ok (x + arr.keyEnds.getLast?.getD 0) := by
    intro x hx
    have := hbound x hx
    rw [hwf.getLast?_keyEnds]
    exact usizeAdd_ok (by omega)
  refine ⟨merged arr rhs, ?_, merged_keys hwf hrhs, List.rel_append hwf.entries hrhs.entries⟩
  unfold BackedArray.merge merged
  simp only
  rw [mapM_ok fun x hx => hadd x (Or.inl hx), exec_bind_ok,
    mapM_ok fun x hx => hadd x (Or.inr hx), exec_bind_ok, exec_pure]

end Tables

/-! ## Runs -/

/-- **The step lemma.**  On a well-formed array, with room for what the plain list becomes, an
operation returns; its result is that of the plain operation, the array it leaves lays out the plain
list it leaves, the surroundings agree, and an error changes nothing. -/
theorem apply_refines {io : Medium (List T) D C S E} (hio : Encodes io stored)
    {arr : BackedArray (Chunk T D C)} {chunks : List (List T)}
    (hwf : WellFormed (Holds stored) arr chunks) (s : S) (op : Op T D C stored)
    (hfit : (op.plain io chunks s).2.1.flatten.length < usizeSize) :
    ∃ arr', op.apply io arr s =
        .ok ((op.plain io chunks s).1, arr', (op.plain io chunks s).2.2) ∧
      WellFormed (Holds stored) arr' (op.plain io chunks s).2.1 ∧
      ∀ e, (op.plain io chunks s).1 = .error e → arr' = arr := by
  cases op with
  | append values backingStore coder =>
      simp only [Op.plain, Op.apply, BackedArray.append] at hfit ⊢
      rcases hw : (BackedEntry.new backingStore coder).writeUnload io values s with ⟨r | r, e', s'⟩
      · exact ⟨arr, rfl, hwf, fun _ _ => rfl⟩
      · rw [hw] at hfit
        have he : Holds stored e' values := by
          obtain ⟨hv, hst⟩ := hio.writeUnload_ok hw
          exact ⟨Or.inl hv, hst⟩
        obtain ⟨arr', hpush, hwf'⟩ := pushEntry_wellFormed hwf he hfit
        refine ⟨arr', ?_, hwf', fun _ h => by cases h⟩
        simp only [hpush, exec_bind_ok, exec_pure]
  | appendMemory values backingStore coder =>
      simp only [Op.plain, Op.apply, BackedArray.appendMemory] at hfit ⊢
      rcases hw : (BackedEntry.new backingStore coder).write io values s with ⟨r | r, e', s'⟩
      · exact ⟨arr, rfl, hwf, fun _ _ => rfl⟩
      · rw [hw] at hfit
        have he : Holds stored e' values := by
          obtain ⟨hv, hst⟩ := hio.write_ok hw
          exact ⟨Or.inr hv, hst⟩
        obtain ⟨arr', hpush, hwf'⟩ := pushEntry_wellFormed hwf he hfit
        refine ⟨arr', ?_, hwf', fun _ h => by cases h⟩
        simp only [hpush, exec_bind_ok, exec_pure]
  | remove entryIdx =>
      obtain ⟨arr', hrem, hwf'⟩ := remove_wellFormed hwf entryIdx
      refine ⟨arr', ?_, hwf', fun _ h => by cases h⟩
      simp only [Op.apply, Op.plain, hrem, exec_bind_ok, exec_pure]
  | merge rhs =>
      obtain ⟨arr', hmerge, hwf'⟩ := merge_wellFormed hwf rhs.wellFormed hfit
      refine ⟨arr', ?_, hwf', fun _ h => by cases h⟩
      simp only [Op.apply, Op.plain, hmerge, exec_bind_ok, exec_pure]

/-- One recorded step of an array beside the recorded step of the plain list. -/
def SameStep (stored : C → D → Option (List T))
    (x : Except E Unit × BackedArray (Chunk T D C)) (y : Except E Unit × List (List T)) : Prop :=
  x.1 = y.1 ∧ WellFormed (Holds stored) x.2 y.2

/-- A step that returned an error left the array as it was. -/
def ErrKeeps (arr : BackedArray (Chunk T D C)) (r : Except E Unit)
    (arr' : BackedArray (Chunk T D C)) : Prop :=
  ∀ e, r = .error e → arr' = arr

/-- **The run lemma**, from any well-formed array. -/
theorem runOps_refines_from {io : Medium (List T) D C S E} (hio : Encodes io stored)
    (ops : List (Op T D C stored)) {arr : BackedArray (Chunk T D C)} {chunks : List (List T)}
    (hwf : WellFormed (Holds stored) arr chunks) (s : S)
    (hfit : ∀ y ∈ plainOps io ops chunks s, y.2.flatten.length < usizeSize) :
    ∃ hist, runOps io ops arr s = .ok hist ∧
      List.Forall₂ (SameStep stored) hist (plainOps io ops chunks s) ∧
      StepsMeet ErrKeeps arr hist := by
  induction ops generalizing arr chunks s with
  | nil => exact ⟨[], rfl, .nil, trivial⟩
  | cons op ops ih =>
      simp only [plainOps, List.forall_mem_cons] at hfit ⊢
      obtain ⟨arr', hstep, hwf', herr⟩ := apply_refines hio hwf s op hfit.1
      obtain ⟨hist, hrun, hsame, hkeeps⟩ := ih hwf' (op.plain io chunks s).2.2 hfit.2
      refine ⟨((op.plain io chunks s).1, arr') :: hist, ?_, ?_, ?_⟩
      · unfold runOps
        rw [hstep, exec_bind_ok]
        simp only [hrun, exec_bind_ok, exec_pure]
      · exact .cons ⟨rfl, hwf'⟩ hsame
      · exact ⟨herr, hkeeps⟩

/-- **Every sequence of resizing operations refines the plain list of lists.**  Started on the empty
array over any medium that encodes, as long as the plain totals stay below `2^64`, the run does not panic;
after every step the array lays out exactly the plain list, with the same result, and a step that
returned an error left the array as it was. -/
theorem runOps_refines (io : Medium (List T) D C S E) (hio : Encodes io stored)
    (ops : List (Op T D C stored)) (s : S)
    (hfit : ∀ y ∈ plainOps io ops [] s, y.2.flatten.length < usizeSize) :
    ∃ hist, runOps io ops .new s = .ok hist ∧
      List.Forall₂ (SameStep stored) hist (plainOps io ops [] s) ∧
      StepsMeet ErrKeeps .new hist :=
  runOps_refines_from hio ops (wellFormed_new _) s hfit

/-- A run with an empty chunk, a write that fails, a removal out of range and one in the middle, and
an array merged behind the rest. -/
def sampleOps : List (Op Nat (Option (List Nat)) Unit fun _ d => d) :=
  [.append [10, 11] none (), .appendMemory [] none (), .append [7] none (), .remove 9,
    .appendMemory [20] none (), .remove 0,
    .merge
      { array := { keyStarts := [0], keyEnds := [1], entries := [.new (some [30]) ()] }
        chunks := [[30]]
        wellFormed := ⟨consecutive_iff.mpr ⟨rfl, rfl⟩, .cons ⟨Or.inl rfl, rfl⟩ .nil⟩ }]

/-- The third write of `sampleOps` is the one that fails. -/
theorem runOps_refines_sample :
    ∃ hist, runOps (scripted (List Nat)) sampleOps .new [false, false, false, false, false, true] =
        .ok hist ∧
      List.Forall₂ (SameStep fun _ d => d) hist
        (plainOps (scripted (List Nat)) sampleOps [] [false, false, false, false, false, true]) ∧
      StepsMeet ErrKeeps .new hist :=
  runOps_refines (scripted (List Nat)) (scripted_lawful (List Nat)).toEncodes sampleOps _ (by decide)

example : (plainOps (scripted (List Nat)) sampleOps []
      [false, false, false, false, false, true]).map Prod.snd =
    [[[10, 11]], [[10, 11], []], [[10, 11], []], [[10, 11], []], [[10, 11], [], [20]], [[], [20]],
      [[], [20], [30]]] := by
  decide

end BackedData.Array
