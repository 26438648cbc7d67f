/-
# BackedData.Array.AsyncBuild — `a_from_containers`

The async constructor makes a future of every container, which writes it to a clone of the disk, and
collects the futures through `buffered`; only when all are written does it lay the ranges out.  The width of
the buffer is taken from the size hint of the iterator: the upper bound if there is one, else the lower one,
but at least one.

An upper bound of zero is the one hint that leaves no room for a future.  An iterator without elements may
report it, and `vec![].into_iter()` does: then `buffered` never asks its source for anything, does not learn
that it has ended, and the call never returns (`aFromContainers_same_iff`).
-/
import BackedData.Array.Build
import BackedData.Logic.Buffered

namespace BackedData.Array

open Logic.Outcome
open Logic.Ranges
open Logic.Buffered
open BackedData.Entry

set_option autoImplicit false

variable {T D C E : Type}

/-! ## One disk for each container -/

/-- The disks of the containers as one that counts the writes: the `k`-th behaves as `io k`. -/
def inTurn (io : Nat → Medium (List T) D C Unit E) : Medium (List T) D C Nat E where
  writeDisk d k :=
    match (io k).writeDisk d () with
    | (r, d, ()) => (r, d, k)
  encode c v d k :=
    match (io k).encode c v d () with
    | (r, d, ()) => (r, d, k + 1)
  readDisk d k :=
    match (io k).readDisk d () with
    | (r, d, ()) => (r, d, k)
  decode c d k :=
    match (io k).decode c d () with
    | (r, d, ()) => (r, d, k)

/-! ## The constructor -/

/-- The future of one container: its length, and an entry that was written with it. -/
def writeFuture (io : Medium (List T) D C Unit E) (disk : D) (coder : C) (x : List T) :
    Except E (Nat × Chunk T D C) :=
  match (BackedEntry.new disk coder).write io x () with
  | (.error e, _, _) => .error e
  | (.ok (), entry, _) => .ok (x.length, entry)

/-- The futures of the containers, from the `k`-th on. -/
def writeFutures (io : Nat → Medium (List T) D C Unit E) (disk : D) (coder : C) :
    Nat → List (List T) → List (Except E (Nat × Chunk T D C))
  | _, [] => []
  | k, x :: xs => writeFuture (io k) disk coder x :: writeFutures io disk coder (k + 1) xs

/-- `upper_size.unwrap_or(max(lower_size, 1))`. -/
def bufferWidth (hint : Nat × Option Nat) : Nat := hint.2.getD (max hint.1 1)

/-- The pairs `(prev_start, start)`. -/
def lenKeys : Nat → List Nat → Exec (List (Nat × Nat))
  | _, [] => pure []
  | start, len :: lens => do
      let prevStart := start
      let start ← usizeAdd start len
      let rest ← lenKeys start lens
      pure ((prevStart, start) :: rest)

namespace BackedArray

/-- What `a_from_containers` makes of the collected futures. -/
def aFromCollected (collected : Except E (List (Nat × Chunk T D C))) :
    Exec (Except E (BackedArray (Chunk T D C))) :=
  match collected with
  | .error e => pure (.error e)
  | .ok built => do
      let (lens, entries) := built.unzip
      let keys ← lenKeys 0 lens
      let (keyStarts, keyEnds) := keys.unzip
      pure (.ok { keyStarts, keyEnds, entries })

end BackedArray

/-- **`AFromContainers io hint containers disk coder r`** — `a_from_containers`, on an iterator that
reports `hint`, ends in `r` however its futures run. -/
def AFromContainers (io : Nat → Medium (List T) D C Unit E) (hint : Nat × Option Nat)
    (containers : List (List T)) (disk : D) (coder : C)
    (r : Exec (Except E (BackedArray (Chunk T D C)))) : Prop :=
  ∃ collected, Settles (bufferWidth hint) (writeFutures io disk coder 0 containers) collected ∧
    r = BackedArray.aFromCollected collected

/-- The bounds a size hint promises. -/
def ValidHint (hint : Nat × Option Nat) (n : Nat) : Prop :=
  hint.1 ≤ n ∧ ∀ upper, hint.2 = some upper → n ≤ upper

/-- The containers ahead of the first one whose write fails; none if no write fails. -/
def aheadOfError (io : Nat → Medium (List T) D C Unit E) (disk : D) (coder : C) :
    Nat → List (List T) → Option (List (List T))
  | _, [] => none
  | k, x :: xs =>
      match writeFuture (io k) disk coder x with
      | .error _ => some []
      | .ok _ => (aheadOfError io disk coder (k + 1) xs).map (x :: ·)

/-! ## The sequential fold -/

section Fold

variable {io : Nat → Medium (List T) D C Unit E} {disk : D} {coder : C}

theorem inTurn_writeDisk {d d' : D} {k : Nat} {r : Except E Unit}
    (h : (io k).writeDisk d () = (r, d', ())) : (inTurn io).writeDisk d k = (r, d', k) := by
  unfold inTurn
  simp only [h]

theorem inTurn_encode {c : C} {v : List T} {d d' : D} {k : Nat} {r : Except E Unit}
    (h : (io k).encode c v d () = (r, d', ())) : (inTurn io).encode c v d k = (r, d', k + 1) := by
  unfold inTurn
  simp only [h]

/-- A write fails on the counting disk as it does on its own. -/
theorem write_inTurn_error {x : List T} {k : Nat} {e : E} (h : writeFuture (io k) disk coder x = .error e) :
    ∃ entry s, (BackedEntry.new disk coder).write (inTurn io) x k = (.error e, entry, s) := by
  unfold writeFuture BackedEntry.write BackedEntry.encodeToDisk at h
  unfold BackedEntry.write BackedEntry.encodeToDisk
  rcases hopen : (io k).writeDisk disk () with ⟨e' | _, d, ⟨⟩⟩
  · simp only [BackedEntry.new, hopen] at h
    cases h
    simp [BackedEntry.new, inTurn_writeDisk hopen]
  · rcases henc : (io k).encode coder x d () with ⟨e' | _, d', ⟨⟩⟩
    · simp only [BackedEntry.new, hopen, henc] at h
      cases h
      simp [BackedEntry.new, inTurn_writeDisk hopen, inTurn_encode henc]
    · simp only [BackedEntry.new, hopen, henc] at h
      cases h

/-- And it succeeds as it does there. -/
theorem write_inTurn_ok {x : List T} {k len : Nat} {entry : Chunk T D C}
    (h : writeFuture (io k) disk coder x = .ok (len, entry)) :
    len = x.length ∧ (BackedEntry.new disk coder).write (inTurn io) x k = (.ok (), entry, k + 1) := by
  unfold writeFuture BackedEntry.write BackedEntry.encodeToDisk at h
  unfold BackedEntry.write BackedEntry.encodeToDisk
  rcases hopen : (io k).writeDisk disk () with ⟨e | _, d, ⟨⟩⟩
  · simp only [BackedEntry.new, hopen] at h
    cases h
  · rcases henc : (io k).encode coder x d () with ⟨e | _, d', ⟨⟩⟩
    · simp only [BackedEntry.new, hopen, henc] at h
      cases h
    · simp only [BackedEntry.new, hopen, henc] at h
      cases h
      simp [BackedEntry.new, inTurn_writeDisk hopen, inTurn_encode henc]

theorem lenKeys_length {start : Nat} {lens : List Nat} {keys : List (Nat × Nat)}
    (h : lenKeys start lens = .ok keys) : keys.length = lens.length := by
  induction lens generalizing start keys with
  | nil =>
      cases h
      rfl
  | cons len lens ih =>
      unfold lenKeys at h
      simp only at h
      obtain ⟨stop, -, h⟩ := exec_bind_inv h
      obtain ⟨rest, hrest, h⟩ := exec_bind_inv h
      cases h
      exact congrArg (· + 1) (ih hrest)

/-- The fold behind a write that succeeded. -/
theorem buildEntries_written {S : Type} {io : Medium (List T) D C S E} {start : Nat} {x : List T}
    {xs : List (List T)} {entry : Chunk T D C} {s s' : S}
    (h : (BackedEntry.new disk coder).write io x s = (.ok (), entry, s')) :
    (buildEntries io disk coder start (x :: xs) s).map Prod.fst =
      usizeAdd start x.length >>= fun stop =>
        ((buildEntries io disk coder stop xs s').map Prod.fst).map fun r =>
          r.map (((start, stop), entry) :: ·) := by
  rw [buildEntries, h]
  rcases usizeAdd start x.length with p | stop
  · rfl
  · simp only [exec_bind_ok]
    rcases buildEntries io disk coder stop xs s' with p | ⟨e | rest, t⟩
    · rfl
    · rfl
    · rfl

/-- A write that succeeds is ahead of the first one that fails. -/
theorem aheadOfError_ok {k : Nat} {x : List T} {xs : List (List T)} {r : Nat × Chunk T D C}
    (h : writeFuture (io k) disk coder x = .ok r) :
    aheadOfError io disk coder k (x :: xs) = (aheadOfError io disk coder (k + 1) xs).map (x :: ·) := by
  rw [aheadOfError, h]

/-- **Where no write fails**, the fold returns the entries beside the keys. -/
theorem buildEntries_of_ok (start : Nat) {k : Nat} {containers : List (List T)}
    {built : List (Nat × Chunk T D C)} (h : inOrder (writeFutures io disk coder k containers) = .ok built) :
    aheadOfError io disk coder k containers = none ∧
      (buildEntries (inTurn io) disk coder start containers k).map Prod.fst =
        (lenKeys start (built.map Prod.fst)).map fun keys => .ok (keys.zip (built.map Prod.snd)) := by
  induction containers generalizing start k built with
  | nil =>
      cases h
      exact ⟨rfl, rfl⟩
  | cons x xs ih =>
      unfold writeFutures at h
      rcases hx : writeFuture (io k) disk coder x with e | ⟨len, entry⟩
      · rw [hx] at h
        cases h
      · rw [hx] at h
        rcases hrest : inOrder (writeFutures io disk coder (k + 1) xs) with e | rest
        · simp only [inOrder, hrest] at h
          cases h
        · simp only [inOrder, hrest] at h
          cases h
          obtain ⟨rfl, hwrite⟩ := write_inTurn_ok hx
          refine ⟨?_, ?_⟩
          · rw [aheadOfError_ok hx, (ih start hrest).1]
            rfl
          · rw [buildEntries_written hwrite, List.map_cons, List.map_cons, lenKeys]
            rcases usizeAdd start x.length with p | stop
            · rfl
            · rw [exec_bind_ok, exec_bind_ok, (ih stop hrest).2]
              rcases lenKeys stop (rest.map Prod.fst) with p | keys
              · rfl
              · rfl

/-- **Where a write fails**, the fold ends in its error, if it gets there. -/
theorem buildEntries_of_error (start : Nat) {k : Nat} {containers : List (List T)} {e : E}
    (h : inOrder (writeFutures io disk coder k containers) = .error e) (hstart : start < usizeSize) :
    ∃ ahead, aheadOfError io disk coder k containers = some ahead ∧
      (buildEntries (inTurn io) disk coder start containers k).map Prod.fst =
        if start + (ahead.map List.length).sum < usizeSize then .ok (.error e)
        else .error .arithmeticOverflow := by
  induction containers generalizing start k with
  | nil => cases h
  | cons x xs ih =>
      unfold writeFutures at h
      rcases hx : writeFuture (io k) disk coder x with e' | ⟨len, entry⟩
      · rw [hx] at h
        cases h
        obtain ⟨entry, s, hwrite⟩ := write_inTurn_error hx
        refine ⟨[], ?_, ?_⟩
        · unfold aheadOfError
          rw [hx]
        · unfold buildEntries
          simp only [hwrite, List.map_nil, List.sum_nil, Nat.add_zero, if_pos hstart]
          rfl
      · rw [hx] at h
        obtain ⟨rfl, hwrite⟩ := write_inTurn_ok hx
        have hrest : inOrder (writeFutures io disk coder (k + 1) xs) = .error e := by
          rcases hrest : inOrder (writeFutures io disk coder (k + 1) xs) with e' | rest
          · simp only [inOrder, hrest] at h
            cases h
            rfl
          · simp only [inOrder, hrest] at h
            cases h
        by_cases hfits : start + x.length < usizeSize
        · obtain ⟨ahead, hahead, hfold⟩ := ih _ hrest hfits
          refine ⟨x :: ahead, ?_, ?_⟩
          · rw [aheadOfError_ok hx, hahead]
            rfl
          · rw [buildEntries_written hwrite, usizeAdd_ok hfits, exec_bind_ok, hfold, List.map_cons,
              List.sum_cons, ← Nat.add_assoc]
            split
            · rfl
            · rfl
        · -- the keys overflow before the write that would fail
          obtain ⟨ahead, hahead, -⟩ := ih 0 hrest (Nat.two_pow_pos 64)
          refine ⟨x :: ahead, ?_, ?_⟩
          · rw [aheadOfError_ok hx, hahead]
            rfl
          · have hover : usizeAdd start x.length = .error .arithmeticOverflow := if_neg hfits
            have hsum : ¬start + ((x :: ahead).map List.length).sum < usizeSize := by
              simp only [List.map_cons, List.sum_cons]
              omega
            rw [buildEntries_written hwrite, hover, if_neg hsum]
            rfl

end Fold

/-! ## The two constructors side by side -/

/-- What `from_containers` makes of what it has collected. -/
theorem fromContainers_map {S : Type} (io : Medium (List T) D C S E) (containers : List (List T)) (disk : D)
    (coder : C) (s : S) :
    (BackedArray.fromContainers io containers disk coder s).map Prod.fst =
      ((buildEntries io disk coder 0 containers s).map Prod.fst).map fun r =>
        r.map fun built =>
          { keyStarts := built.map fun p => p.1.1
            keyEnds := built.map fun p => p.1.2
            entries := built.map Prod.snd } := by
  unfold BackedArray.fromContainers
  rcases buildEntries io disk coder 0 containers s with p | ⟨e | built, s'⟩
  · rfl
  · rfl
  · simp only [exec_bind_ok, List.unzip_eq_map, List.map_map]
    rfl

/-- The keys and the entries, paired and taken apart again. -/
theorem aFromCollected_ok (built : List (Nat × Chunk T D C)) :
    (BackedArray.aFromCollected (.ok built) : Exec (Except E (BackedArray (Chunk T D C)))) =
      ((lenKeys 0 (built.map Prod.fst)).map fun keys => keys.zip (built.map Prod.snd)).map fun built =>
        .ok
          { keyStarts := built.map fun p => p.1.1
            keyEnds := built.map fun p => p.1.2
            entries := built.map Prod.snd } := by
  unfold BackedArray.aFromCollected
  simp only [List.unzip_eq_map]
  rcases hkeys : lenKeys 0 (built.map Prod.fst) with p | keys
  · rfl
  · have hlen : keys.length = (built.map Prod.snd).length := by
      rw [lenKeys_length hkeys, List.length_map, List.length_map]
    have hfst : (keys.zip (built.map Prod.snd)).map Prod.fst = keys := List.map_fst_zip (Nat.le_of_eq hlen)
    have hsnd : (keys.zip (built.map Prod.snd)).map Prod.snd = built.map Prod.snd :=
      List.map_snd_zip (Nat.le_of_eq hlen.symm)
    have hstarts : (keys.zip (built.map Prod.snd)).map (fun p => p.1.1) = keys.map Prod.fst := by
      rw [← congrArg (List.map Prod.fst) hfst, List.map_map]
      rfl
    have hends : (keys.zip (built.map Prod.snd)).map (fun p => p.1.2) = keys.map Prod.snd := by
      rw [← congrArg (List.map Prod.snd) hfst, List.map_map]
      rfl
    have hbuilt : ∀ bs : List ((Nat × Nat) × Chunk T D C), bs = keys.zip (built.map Prod.snd) →
        ({ keyStarts := keys.map Prod.fst, keyEnds := keys.map Prod.snd, entries := built.map Prod.snd } :
          BackedArray (Chunk T D C)) =
        { keyStarts := bs.map fun p => p.1.1
          keyEnds := bs.map fun p => p.1.2
          entries := bs.map Prod.snd } := by
      rintro bs rfl
      rw [hstarts, hends, hsnd]
    exact congrArg (fun arr => Except.ok (Except.ok arr)) (hbuilt _ rfl)

/-- **`a_from_containers` is `from_containers`** on an iterator with a valid hint exactly when the hint has
no upper bound of zero, and the keys of the containers ahead of a failing write do not overflow before
it. -/
theorem aFromContainers_same_iff (io : Nat → Medium (List T) D C Unit E) (hint : Nat × Option Nat)
    (containers : List (List T)) (disk : D) (coder : C) :
    AFromContainers io hint containers disk coder
        ((BackedArray.fromContainers (inTurn io) containers disk coder 0).map Prod.fst) ↔
      hint.2 ≠ some 0 ∧
        ∀ ahead, aheadOfError io disk coder 0 containers = some ahead →
          (ahead.map List.length).sum < usizeSize := by
  have hwidth : 0 < bufferWidth hint ↔ hint.2 ≠ some 0 := by
    obtain ⟨lower, _ | upper⟩ := hint
    · simp [bufferWidth]
    · simp [bufferWidth, Nat.pos_iff_ne_zero]
  have hends : AFromContainers io hint containers disk coder
        ((BackedArray.fromContainers (inTurn io) containers disk coder 0).map Prod.fst) ↔
      0 < bufferWidth hint ∧
        (BackedArray.fromContainers (inTurn io) containers disk coder 0).map Prod.fst =
          BackedArray.aFromCollected (inOrder (writeFutures io disk coder 0 containers)) := by
    unfold AFromContainers
    simp only [settles_iff]
    constructor
    · rintro ⟨collected, ⟨hpos, rfl⟩, hr⟩
      exact ⟨hpos, hr⟩
    · rintro ⟨hpos, hr⟩
      exact ⟨_, ⟨hpos, rfl⟩, hr⟩
  rw [hends, hwidth, fromContainers_map]
  refine and_congr_right fun _ => ?_
  rcases hfutures : inOrder (writeFutures io disk coder 0 containers) with e | built
  · obtain ⟨ahead, hahead, hfold⟩ := buildEntries_of_error 0 hfutures (Nat.two_pow_pos 64)
    rw [hfold, hahead, Nat.zero_add]
    constructor
    · intro hsame ahead' heq
      cases heq
      by_contra hover
      rw [if_neg hover] at hsame
      cases hsame
    · intro hfits
      rw [if_pos (hfits ahead rfl)]
      rfl
  · obtain ⟨hahead, hfold⟩ := buildEntries_of_ok 0 hfutures
    rw [hfold, hahead, aFromCollected_ok]
    constructor
    · intro _ ahead heq
      cases heq
    · intro _
      rcases lenKeys 0 (built.map Prod.fst) with p | keys
      · rfl
      · rfl

/-- Disks that store what is written to them, but for those that refuse. -/
def refusing (refused : List Nat) (k : Nat) : Medium (List Nat) (Option (List Nat)) Unit Unit Unit where
  writeDisk d _ := if k ∈ refused then (.error (), d, ()) else (.ok (), d, ())
  encode _ v _ _ := (.ok (), some v, ())
  readDisk d _ := (.ok (), d, ())
  decode _ d _ :=
    match d with
    | some v => (.ok v, d, ())
    | none => (.error (), d, ())

/-- The iterator of an empty vector: its hint is valid, `from_containers` returns the empty array, and
`a_from_containers` returns nothing. -/
theorem aFromContainers_of_empty :
    ValidHint (0, some 0) ([] : List (List Nat)).length ∧
      (BackedArray.fromContainers (inTurn (refusing [])) [] none () 0).map Prod.fst =
        .ok (.ok { keyStarts := [], keyEnds := [], entries := [] }) ∧
      ∀ r, ¬AFromContainers (refusing []) (0, some 0) [] none () r := by
  refine ⟨⟨Nat.le_refl 0, fun upper h => ?_⟩, rfl, ?_⟩
  · exact Nat.zero_le upper
  · rintro r ⟨collected, hsettles, -⟩
    have hpos := ((settles_iff _ _ _).mp hsettles).1
    exact absurd hpos (Nat.lt_irrefl 0)

example :
    (BackedArray.fromContainers (inTurn (refusing [2, 1])) [[1], [2, 3], [4]] none () 0).map Prod.fst =
      .ok (.error ()) := rfl

end BackedData.Array
