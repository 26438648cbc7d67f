/-
# BackedData.Array.Build — `from_containers` and `from_backing`

The two constructors that build a whole array at once.  Both have to lay out the same tables as appending
the chunks one by one would (`LaysOut`).  `from_containers` does; `from_backing` hands out its two key
vectors in the wrong order, the lengths as `key_starts` and the starts as `key_ends`, so it is right only
where there is nothing to tell apart.
-/
import BackedData.Array.Resize

namespace BackedData.Array

open Logic.Outcome
open Logic.Ranges
open BackedData.Entry

set_option autoImplicit false

variable {Ent T D C S E : Type}

/-! ## The constructors -/

/-- The keys and the entry of each container, `collect`ed up to the first write that fails.  A clone of the
disk is the same value. -/
def buildEntries (io : Medium (List T) D C S E) (disk : D) (coder : C) :
    Nat → List (List T) → S → Exec (Except E (List ((Nat × Nat) × Chunk T D C)) × S)
  | _, [], s => pure (.ok [], s)
  | start, x :: xs, s =>
      match (BackedEntry.new disk coder).write io x s with
      | (.error e, _, s) => pure (.error e, s)
      | (.ok (), entry, s) => do
          let stop ← usizeAdd start x.length
          match ← buildEntries io disk coder stop xs s with
          | (.error e, s) => pure (.error e, s)
          | (.ok rest, s) => pure (.ok (((start, stop), entry) :: rest), s)

/-- The keys of `from_backing`: the pairs `(k, prev_start)`. -/
def backingKeys : Nat → List Nat → Exec (List (Nat × Nat))
  | _, [] => pure []
  | rangeStart, k :: ks => do
      let prevStart := rangeStart
      let rangeStart ← usizeAdd rangeStart k
      let rest ← backingKeys rangeStart ks
      pure ((k, prevStart) :: rest)

namespace BackedArray

/-- `from_containers`. -/
def fromContainers (io : Medium (List T) D C S E) (containers : List (List T)) (disk : D) (coder : C)
    (s : S) : Exec (Except E (BackedArray (Chunk T D C)) × S) := do
  match ← buildEntries io disk coder 0 containers s with
  | (.error e, s) => pure (.error e, s)
  | (.ok built, s) =>
      let (keys, entries) := built.unzip
      let (keyStarts, keyEnds) := keys.unzip
      pure (.ok { keyStarts, keyEnds, entries }, s)

/-- `from_backing`. -/
def fromBacking (iter : List (Nat × Ent)) : Exec (Option (BackedArray Ent)) := do
  let (keys, entries) := iter.unzip
  if keys.length ≠ entries.length then pure none
  else do
    let keys ← backingKeys 0 keys
    let (keyStarts, keyEnds) := keys.unzip
    pure (some { keyStarts, keyEnds, entries })

end BackedArray

/-! ## Appending one by one -/

/-- Push entries that are already there, each with its length. -/
def pushAll (arr : BackedArray Ent) (pairs : List (Nat × Ent)) : Exec (BackedArray Ent) :=
  pairs.foldlM (fun arr pair => arr.pushEntry pair.2 pair.1) arr

/-- **`LaysOut pairs arr`** — `arr` is what appending the pairs one by one to an empty array gives: every
range starts where the ranges before it end, and is as wide as the length says. -/
structure LaysOut (pairs : List (Nat × Ent)) (arr : BackedArray Ent) : Prop where
  keyStarts : arr.keyStarts = startsFrom 0 (pairs.map Prod.fst)
  keyEnds : arr.keyEnds = endsFrom 0 (pairs.map Prod.fst)
  entries : arr.entries = pairs.map Prod.snd
  len : arr.len = (pairs.map Prod.fst).sum
  appended : pushAll .new pairs = .ok arr

/-- Pushing onto an array whose last range ends at `base`. -/
theorem pushAll_ok (pairs : List (Nat × Ent)) (base : Nat) {arr : BackedArray Ent}
    (hbase : arr.keyEnds.getLast?.getD 0 = base)
    (hfit : base + (pairs.map Prod.fst).sum < usizeSize) :
    pushAll arr pairs =
      .ok
        { keyStarts := arr.keyStarts ++ startsFrom base (pairs.map Prod.fst)
          keyEnds := arr.keyEnds ++ endsFrom base (pairs.map Prod.fst)
          entries := arr.entries ++ pairs.map Prod.snd } := by
  induction pairs generalizing arr base with
  | nil => simp [pushAll, startsFrom, endsFrom]
  | cons pair pairs ih =>
      obtain ⟨k, entry⟩ := pair
      simp only [List.map_cons, List.sum_cons] at hfit
      have hpush : arr.pushEntry entry k =
          .ok
            { keyStarts := arr.keyStarts ++ [base]
              keyEnds := arr.keyEnds ++ [base + k]
              entries := arr.entries ++ [entry] } := by
        unfold BackedArray.pushEntry
        have hadd : usizeAdd base k = .ok (base + k) := usizeAdd_ok (by omega)
        simp only [hbase, hadd, exec_bind_ok, exec_pure]
      have hrest := @ih (base + k)
        { keyStarts := arr.keyStarts ++ [base]
          keyEnds := arr.keyEnds ++ [base + k]
          entries := arr.entries ++ [entry] }
        (by rw [List.getLast?_concat]; rfl) (by omega)
      unfold pushAll at hrest ⊢
      rw [List.foldlM_cons, hpush, exec_bind_ok, hrest]
      simp only [List.map_cons, startsFrom, endsFrom, List.append_assoc, List.singleton_append]

/-- What the constructors are to build, wherever it can be built at all. -/
theorem laysOut_of_fits (pairs : List (Nat × Ent)) (hfit : (pairs.map Prod.fst).sum < usizeSize) :
    LaysOut pairs
      { keyStarts := startsFrom 0 (pairs.map Prod.fst)
        keyEnds := endsFrom 0 (pairs.map Prod.fst)
        entries := pairs.map Prod.snd } where
  keyStarts := rfl
  keyEnds := rfl
  entries := rfl
  len := by
    unfold BackedArray.len
    rw [endsFrom_getLast?_getD, Nat.zero_add]
  appended := by
    rw [pushAll_ok pairs 0 rfl (by omega)]
    rfl

/-! ## `from_containers` -/

section Containers

variable {io : Medium (List T) D C S E} {disk : D} {coder : C}

/-- The entry that writing a container to a clone of the disk leaves. -/
def Wrote (io : Medium (List T) D C S E) (disk : D) (coder : C) (entry : Chunk T D C) (x : List T) :
    Prop :=
  ∃ s s', (BackedEntry.new disk coder).write io x s = (.ok (), entry, s')

/-- One container more: its write succeeded, and so did the others behind it. -/
theorem buildEntries_cons {start : Nat} {x : List T} {xs : List (List T)} {s s' : S}
    {built : List ((Nat × Nat) × Chunk T D C)}
    (h : buildEntries io disk coder start (x :: xs) s = .ok (.ok built, s')) :
    ∃ entry s₁ rest, (BackedEntry.new disk coder).write io x s = (.ok (), entry, s₁) ∧
      buildEntries io disk coder (start + x.length) xs s₁ = .ok (.ok rest, s') ∧
      built = ((start, start + x.length), entry) :: rest := by
  unfold buildEntries at h
  rcases hw : (BackedEntry.new disk coder).write io x s with ⟨e | _, entry, s₁⟩
  · simp only [hw, exec_pure] at h
    cases h
  · simp only [hw] at h
    obtain ⟨stop, hstop, h⟩ := exec_bind_inv h
    obtain rfl : stop = start + x.length := usizeAdd_inv hstop
    obtain ⟨⟨e | rest, s₂⟩, hrest, h⟩ := exec_bind_inv h
    · cases h
    · cases h
      exact ⟨entry, s₁, rest, rfl, hrest, rfl⟩

/-- What was collected: the ranges of the containers, and an entry for each. -/
theorem buildEntries_inv {start : Nat} {containers : List (List T)} {s s' : S}
    {built : List ((Nat × Nat) × Chunk T D C)}
    (h : buildEntries io disk coder start containers s = .ok (.ok built, s')) :
    (built.map Prod.fst).map Prod.fst = startsFrom start (containers.map List.length) ∧
      (built.map Prod.fst).map Prod.snd = endsFrom start (containers.map List.length) ∧
      List.Forall₂ (Wrote io disk coder) (built.map Prod.snd) containers := by
  induction containers generalizing start s built with
  | nil =>
      cases h
      exact ⟨rfl, rfl, .nil⟩
  | cons x xs ih =>
      obtain ⟨entry, s₁, rest, hw, hrest, rfl⟩ := buildEntries_cons h
      obtain ⟨hstarts, hends, hentries⟩ := ih hrest
      refine ⟨?_, ?_, .cons ⟨s, s₁, hw⟩ hentries⟩
      · simp only [List.map_cons, startsFrom, hstarts]
      · simp only [List.map_cons, endsFrom, hends]

/-- The array is the layout of the containers, every entry written with its own. -/
theorem fromContainers_inv {containers : List (List T)} {s s' : S} {arr : BackedArray (Chunk T D C)}
    (h : BackedArray.fromContainers io containers disk coder s = .ok (.ok arr, s')) :
    WellFormed (Wrote io disk coder) arr containers ∧
      ∃ built, buildEntries io disk coder 0 containers s = .ok (.ok built, s') := by
  unfold BackedArray.fromContainers at h
  obtain ⟨⟨e | built, s₁⟩, hbuilt, h⟩ := exec_bind_inv h
  · cases h
  · simp only [List.unzip_eq_map, exec_pure] at h
    cases h
    obtain ⟨hstarts, hends, hentries⟩ := buildEntries_inv hbuilt
    exact ⟨⟨consecutive_iff.mpr ⟨hstarts, hends⟩, hentries⟩, built, hbuilt⟩

/-- **Over disks whose clones store apart**, `from_containers` returns an array that holds the
containers. -/
theorem fromContainers_wellFormed {stored : C → D → Option (List T)} (hio : Lawful io stored)
    {containers : List (List T)} {s s' : S} {arr : BackedArray (Chunk T D C)}
    (h : BackedArray.fromContainers io containers disk coder s = .ok (.ok arr, s')) :
    WellFormed (Holds stored) arr containers := by
  obtain ⟨hwf, -⟩ := fromContainers_inv h
  refine ⟨hwf.keys, hwf.entries.imp ?_⟩
  rintro entry x ⟨s, s', hw⟩
  obtain ⟨hval, hst⟩ := hio.write_ok hw
  exact ⟨Or.inr hval, hst⟩

end Containers

/-! ## `from_backing` -/

/-- The keys that were returned are the lengths beside the starts. -/
theorem backingKeys_inv {base : Nat} {ks : List Nat} {keys : List (Nat × Nat)}
    (h : backingKeys base ks = .ok keys) : keys = ks.zip (startsFrom base ks) := by
  induction ks generalizing base keys with
  | nil =>
      cases h
      rfl
  | cons k ks ih =>
      unfold backingKeys at h
      simp only at h
      obtain ⟨next, hnext, h⟩ := exec_bind_inv h
      obtain ⟨rest, hrest, h⟩ := exec_bind_inv h
      cases h
      rw [ih hrest, usizeAdd_inv hnext]
      rfl

/-- Where the lengths fit into a `usize` together, they are returned. -/
theorem backingKeys_ok (base : Nat) (ks : List Nat) (hfit : base + ks.sum < usizeSize) :
    ∃ keys, backingKeys base ks = .ok keys := by
  induction ks generalizing base with
  | nil => exact ⟨[], rfl⟩
  | cons k ks ih =>
      rw [List.sum_cons] at hfit
      obtain ⟨rest, hrest⟩ := ih (base + k) (by omega)
      have hadd : usizeAdd base k = .ok (base + k) := usizeAdd_ok (by omega)
      refine ⟨(k, base) :: rest, ?_⟩
      unfold backingKeys
      simp only [hadd, hrest, exec_bind_ok, exec_pure]

/-- What `from_backing` returns: the lengths as starts, and the starts as ends. -/
def swapped (pairs : List (Nat × Ent)) : BackedArray Ent where
  keyStarts := pairs.map Prod.fst
  keyEnds := startsFrom 0 (pairs.map Prod.fst)
  entries := pairs.map Prod.snd

/-- The vectors of `from_backing` are always of one length. -/
theorem fromBacking_keys (pairs : List (Nat × Ent)) :
    BackedArray.fromBacking pairs = (do
      let keys ← backingKeys 0 (pairs.map Prod.fst)
      let (keyStarts, keyEnds) := keys.unzip
      pure (some { keyStarts, keyEnds, entries := pairs.map Prod.snd })) := by
  unfold BackedArray.fromBacking
  simp only [List.unzip_eq_map, List.length_map, ne_eq, not_true_eq_false, if_false]

theorem fromBacking_inv {pairs : List (Nat × Ent)} {arr : BackedArray Ent}
    (h : BackedArray.fromBacking pairs = .ok (some arr)) : arr = swapped pairs := by
  rw [fromBacking_keys] at h
  obtain ⟨keys, hkeys, h⟩ := exec_bind_inv h
  rw [backingKeys_inv hkeys] at h
  have hlen : (pairs.map Prod.fst).length = (startsFrom 0 (pairs.map Prod.fst)).length :=
    (startsFrom_length 0 _).symm
  simp only [List.unzip_zip hlen, exec_pure] at h
  cases h
  rfl

theorem fromBacking_ok (pairs : List (Nat × Ent)) (hfit : (pairs.map Prod.fst).sum < usizeSize) :
    BackedArray.fromBacking pairs = .ok (some (swapped pairs)) := by
  obtain ⟨keys, hkeys⟩ := backingKeys_ok 0 (pairs.map Prod.fst) (by omega)
  have hret : ∃ arr, BackedArray.fromBacking pairs = .ok (some arr) := by
    rw [fromBacking_keys, hkeys, exec_bind_ok]
    exact ⟨_, rfl⟩
  obtain ⟨arr, harr⟩ := hret
  rw [harr, fromBacking_inv harr]

/-- Only where every width is zero are the widths the starts. -/
theorem eq_startsFrom_iff (ks : List Nat) : ks = startsFrom 0 ks ↔ ∀ k ∈ ks, k = 0 := by
  induction ks with
  | nil => simp [startsFrom]
  | cons k ks ih =>
      simp only [startsFrom, List.cons.injEq, List.forall_mem_cons, Nat.zero_add]
      constructor
      · rintro ⟨hk, hks⟩
        subst hk
        exact ⟨rfl, ih.mp hks⟩
      · rintro ⟨hk, hks⟩
        subst hk
        exact ⟨rfl, ih.mpr hks⟩

/-- Ranges of no width end where they start. -/
theorem endsFrom_of_zero {ks : List Nat} (h : ∀ k ∈ ks, k = 0) : endsFrom 0 ks = startsFrom 0 ks := by
  induction ks with
  | nil => rfl
  | cons k ks ih =>
      obtain ⟨hk, hks⟩ := List.forall_mem_cons.mp h
      subst hk
      simp only [endsFrom, startsFrom, Nat.zero_add, ih hks]

/-- **When `from_backing` is right.**  It builds the array that appending the backings one by one builds
exactly when every one of them is empty. -/
theorem fromBacking_exact (pairs : List (Nat × Ent)) :
    (∃ arr, BackedArray.fromBacking pairs = .ok (some arr) ∧ LaysOut pairs arr) ↔
      ∀ pair ∈ pairs, pair.1 = 0 := by
  rw [← List.forall_mem_map (f := Prod.fst) (P := fun k => k = 0)]
  constructor
  · rintro ⟨arr, hrun, hlays⟩
    have hstarts := hlays.keyStarts
    rw [fromBacking_inv hrun] at hstarts
    exact (eq_startsFrom_iff _).mp hstarts
  · intro hzero
    have hsum : (pairs.map Prod.fst).sum = 0 := List.sum_eq_zero_iff_forall_eq_nat.mpr hzero
    have hfit : (pairs.map Prod.fst).sum < usizeSize := by
      rw [hsum]
      exact Nat.two_pow_pos 64
    have hsame : swapped pairs =
        { keyStarts := startsFrom 0 (pairs.map Prod.fst)
          keyEnds := endsFrom 0 (pairs.map Prod.fst)
          entries := pairs.map Prod.snd } := by
      unfold swapped
      rw [endsFrom_of_zero hzero, ← (eq_startsFrom_iff _).mpr hzero]
    exact ⟨swapped pairs, fromBacking_ok pairs hfit, hsame ▸ laysOut_of_fits pairs hfit⟩

/-- Two backings, of two and of three elements. -/
def backingPairs : List (Nat × Chunk Nat (Option (List Nat)) Unit) :=
  [(2, .new (some [10, 11]) ()), (3, .new (some [20, 21, 22]) ())]

/-- Each decodes to as many elements as its length says, and the array that is returned has the lengths
for its starts, and ends where its last chunk starts. -/
theorem fromBacking_swaps :
    (∀ pair ∈ backingPairs, ∃ chunk, Holds (fun _ d => d) pair.2 chunk ∧ chunk.length = pair.1) ∧
      ∃ arr, BackedArray.fromBacking backingPairs = .ok (some arr) ∧ arr.keyStarts = [2, 3] ∧
        arr.keyEnds = [0, 2] ∧ arr.len = 2 ∧ ¬ LaysOut backingPairs arr := by
  refine ⟨?_, swapped backingPairs, rfl, rfl, rfl, rfl, ?_⟩
  · intro pair hpair
    simp only [backingPairs, List.mem_cons, List.not_mem_nil, or_false] at hpair
    rcases hpair with rfl | rfl
    · exact ⟨[10, 11], ⟨Or.inl rfl, rfl⟩, rfl⟩
    · exact ⟨[20, 21, 22], ⟨Or.inl rfl, rfl⟩, rfl⟩
  · intro hlays
    have hlen : (swapped backingPairs).len = 5 := hlays.len
    revert hlen
    decide

end BackedData.Array
