/-
# BackedData.Array.IterMutAligned — the mutable iterators hand out what a slice would

The mutable iterators walk two sequences at once: `keys`, from which they drop the ranges they have
passed, and `entries`, which is one ahead, since the first entry is opened with the iterator.  `Aligned`
is the invariant between them: while there are keys left, the first of them belongs to the entry that was
opened last.  Every counted handle has been `Placed` at a position the iterator has behind it.

The addition is a parameter, as it is for the other iterators: `usize`, or `unbounded`.
-/
import BackedData.Array.Iter
import BackedData.Array.IterMutDurable

namespace BackedData.Array

open Logic.Outcome
open Logic.Ranges
open Logic.Slices
open Logic.Stateful
open BackedData.Entry

set_option autoImplicit false

namespace Iterated

variable {T D C S E : Type}

section Calls

variable (io : Medium (List T) D C S E) (add : Nat → Nat → Exec Nat)

/-- `nth` over an addition. -/
def nthWith (access : Access) (it : BackedArrayIterMut) (n : Nat) :
    IteratedM T D C S E (Option (Except E Nat)) := do
  let pos ← .ofExec (add it.pos n)
  let keys := it.keys.dropWhile fun key => key.2 ≤ pos
  let stepCount := it.keys.length - keys.length
  match keys with
  | [] => do
      .modify fun self => { self with iter := some { it with pos, keys } }
      pure none
  | key :: _ => do
      let innerPos ← .ofExec (usizeSub pos key.1)
      let nextPos ← .ofExec (add pos 1)
      .modify fun self => { self with iter := some { it with pos := nextPos, keys } }
      if 0 < stepCount then do
        let entry := it.entries + (stepCount - 1)
        let self ← .get
        let chunk ← .ofExec (unwrap self.chunks[entry]?)
        .modify fun self =>
          { openHandle io self entry chunk with
            iter := some { it with pos := nextPos, keys, entries := entry + 1 } }
      takeElement access innerPos

/-- On a `usize` it is `nth`. -/
theorem nthWith_usizeAdd : nthWith io usizeAdd = nth io := rfl

/-- A call on the iterator, while it is there. -/
def call (access : Access) (c : Call) : IteratedM T D C S E (Option (Except E Nat)) := do
  let self ← .get
  let it ← .ofExec (unwrap self.iter)
  nthWith io add access it c.skip

/-- A run of calls. -/
def runCalls (access : Access) : List Call → IteratedM T D C S E (List (Option (Except E Nat)))
  | [] => pure []
  | c :: cs => do
      let r ← call io add access c
      let rs ← runCalls access cs
      pure (r :: rs)

end Calls

/-! ## Where the handles point

What the load of a chunk has to do with its piece of the sequence is left open: `R` relates the two, and
all that is used of it is that a chunk is as long as its piece. -/

section Walks

variable {X : Type} {R : Except E (List T) → List X → Prop} {io : Medium (List T) D C S E}
  {s t u : Iterated T D C S E} {pieces : List (List X)}

/-- A prefix has its members where the whole has them. -/
theorem getElem?_stays {α : Type} {xs ys : List α} (h : xs <+: ys) {i : Nat} {x : α}
    (hx : xs[i]? = some x) : ys[i]? = some x := by
  obtain ⟨zs, rfl⟩ := h
  rw [List.getElem?_append_left (List.getElem?_eq_some_iff.mp hx).1]
  exact hx

/-- **`Placed s pieces q h`** — the counted handle refers to position `q` of the concatenation, in a chunk
that is open. -/
def Placed (s : Iterated T D C S E) (pieces : List (List X)) (q : Nat) (h : CountedHandle) : Prop :=
  ∃ i flag piece, s.handles[h.handle]? = some { entry := i, handle := .ok flag } ∧
    Locates pieces q { entryIdx := i, insideEntryIdx := h.value } piece

/-- **`Opened R s pieces h`** — what opening an entry left: the chunk in memory, or the error of its
load. -/
inductive Opened (R : Except E (List T) → List X → Prop) (s : Iterated T D C S E)
    (pieces : List (List X)) : EntryHandle E → Prop where
  | loaded {i : Nat} {flag : Bool} {chunk : Chunk T D C} {val : List T} {piece : List X}
      (hpiece : pieces[i]? = some piece) (hR : R (.ok val) piece) (hchunk : s.chunks[i]? = some chunk)
      (hval : chunk.value = some val) : Opened R s pieces { entry := i, handle := .ok flag }
  | failed {i : Nat} {e : E} {piece : List X} (hpiece : pieces[i]? = some piece)
      (hR : R (.error e) piece) : Opened R s pieces { entry := i, handle := .error e }

/-- What a step leaves as it was: the handles at their entries, the loaded chunks, the counted handles. -/
structure Extends (s t : Iterated T D C S E) : Prop where
  loaded : ∀ (c i : Nat) (flag : Bool), s.handles[c]? = some { entry := i, handle := .ok flag } →
    ∃ flag', t.handles[c]? = some { entry := i, handle := .ok flag' }
  failed : ∀ (i : Nat) (e : E), { entry := i, handle := .error e } ∈ s.handles →
    { entry := i, handle := .error e } ∈ t.handles
  values : ∀ (i : Nat) (chunk : Chunk T D C) (val : List T), s.chunks[i]? = some chunk →
    chunk.value = some val →
      ∃ chunk' : Chunk T D C, t.chunks[i]? = some chunk' ∧ chunk'.value = some val
  counted : s.counted <+: t.counted

theorem Extends.refl (s : Iterated T D C S E) : Extends s s where
  loaded _ _ flag h := ⟨flag, h⟩
  failed _ _ h := h
  values _ chunk _ h hv := ⟨chunk, h, hv⟩
  counted := List.prefix_rfl

theorem Extends.trans (h : Extends s t) (h' : Extends t u) : Extends s u where
  loaded c i flag hc := by
    obtain ⟨flag', hc'⟩ := h.loaded c i flag hc
    exact h'.loaded c i flag' hc'
  failed i e he := h'.failed i e (h.failed i e he)
  values i chunk val hc hv := by
    obtain ⟨chunk', hc', hv'⟩ := h.values i chunk val hc hv
    exact h'.values i chunk' val hc' hv'
  counted := h.counted.trans h'.counted

/-- A counted handle keeps its place. -/
theorem Placed.extends {q : Nat} {k : CountedHandle} (hk : Placed s pieces q k) (h : Extends s t) :
    Placed t pieces q k := by
  obtain ⟨i, flag, piece, hhandle, hloc⟩ := hk
  obtain ⟨flag', hhandle'⟩ := h.loaded _ _ _ hhandle
  exact ⟨i, flag', piece, hhandle', hloc⟩

/-- An open handle stays open. -/
theorem Opened.extends {e : EntryHandle E} (he : Opened R s pieces e) (h : Extends s t) :
    Opened R t pieces e := by
  cases he with
  | loaded hpiece hR hchunk hval =>
      obtain ⟨chunk', hchunk', hval'⟩ := h.values _ _ _ hchunk hval
      exact .loaded hpiece hR hchunk' hval'
  | failed hpiece hR => exact .failed hpiece hR

/-! ## Opening an entry, taking an element -/

variable {arr : BackedArray (Chunk T D C)} {k : Nat}

/-- The entries that have been opened, in order. -/
def openEntries (s : Iterated T D C S E) : List Nat := s.handles.map EntryHandle.entry

/-- **`LoadsAs R io e piece`** — whatever its surroundings, a load of the entry comes out as `R` has it for
the piece. -/
def LoadsAs (R : Except E (List T) → List X → Prop) (io : Medium (List T) D C S E) (e : Chunk T D C)
    (piece : List X) : Prop :=
  ∀ s, R (e.load io s).1 piece

/-- **`Handles R arr pieces s k`** — the handles are those of different entries, in order, none behind entry
`k`; and a chunk that has not been opened is as the array had it. -/
structure Handles (R : Except E (List T) → List X → Prop) (arr : BackedArray (Chunk T D C))
    (pieces : List (List X)) (s : Iterated T D C S E) (k : Nat) : Prop where
  opened : ∀ h ∈ s.handles, Opened R s pieces h
  order : s.openEntries.Pairwise (· < ·)
  reached : ∀ i ∈ s.openEntries, i ≤ k
  unopened : ∀ i, i ∉ s.openEntries → s.chunks[i]? = arr.entries[i]?

/-- A change of the iterator, or a counted handle more. -/
theorem Handles.congr (h : Handles R arr pieces s k) (hhandles : t.handles = s.handles)
    (hchunks : t.chunks = s.chunks) (hcounted : s.counted <+: t.counted) :
    Handles R arr pieces t k ∧ t.openEntries = s.openEntries ∧ Extends s t := by
  have hentries : t.openEntries = s.openEntries := by
    unfold openEntries
    rw [hhandles]
  have hext : Extends s t := by
    refine ⟨fun c i flag hc => ⟨flag, ?_⟩, fun i e he => ?_, fun i chunk val hi hval => ?_, hcounted⟩
    · rw [hhandles]
      exact hc
    · rw [hhandles]
      exact he
    · exact ⟨chunk, hchunks.symm ▸ hi, hval⟩
  refine ⟨⟨?_, hentries.symm ▸ h.order, hentries.symm ▸ h.reached, ?_⟩, hentries, hext⟩
  · intro e he
    rw [hhandles] at he
    exact (h.opened e he).extends hext
  · rw [hentries, hchunks]
    exact h.unopened

/-- A handle is pushed for an entry beyond those that are open, and its chunk keeps the value it had. -/
theorem Handles.push (h : Handles R arr pieces s k) {i : Nat} (hbeyond : ∀ j ∈ s.openEntries, j < i)
    {chunk chunk' : Chunk T D C} (hchunk : s.chunks[i]? = some chunk)
    (hkeeps : ∀ val, chunk.value = some val → chunk'.value = some val) {e : EntryHandle E}
    (he : e.entry = i) (hhandles : t.handles = s.handles ++ [e])
    (hchunks : t.chunks = s.chunks.set i chunk') (hcounted : t.counted = s.counted)
    (hopen : t.chunks[i]? = some chunk' → Opened R t pieces e) :
    Handles R arr pieces t i ∧ t.openEntries = s.openEntries ++ [i] ∧ Extends s t := by
  have hentries : t.openEntries = s.openEntries ++ [i] := by
    unfold openEntries
    rw [hhandles, List.map_append, List.map_singleton, he]
  have hself : t.chunks[i]? = some chunk' := by
    rw [hchunks, List.getElem?_set_self (List.getElem?_eq_some_iff.mp hchunk).1]
  have hother : ∀ j, j ≠ i → t.chunks[j]? = s.chunks[j]? := by
    intro j hj
    rw [hchunks, List.getElem?_set_ne (Ne.symm hj)]
  have hext : Extends s t := by
    refine ⟨fun c j flag hc => ⟨flag, ?_⟩, fun j err herr => ?_, fun j c val hj hval => ?_, ?_⟩
    · rw [hhandles, List.getElem?_append_left (List.getElem?_eq_some_iff.mp hc).1]
      exact hc
    · rw [hhandles]
      exact List.mem_append_left _ herr
    · by_cases hji : j = i
      · subst hji
        obtain rfl : chunk = c := Option.some.inj (hchunk.symm.trans hj)
        exact ⟨chunk', hself, hkeeps val hval⟩
      · exact ⟨c, (hother j hji).trans hj, hval⟩
    · exact hcounted ▸ List.prefix_rfl
  refine ⟨⟨?_, ?_, ?_, ?_⟩, hentries, hext⟩
  · intro e' he'
    rw [hhandles] at he'
    rcases List.mem_append.mp he' with he' | he'
    · exact (h.opened e' he').extends hext
    · rw [List.mem_singleton.mp he']
      exact hopen hself
  · rw [hentries, List.pairwise_append]
    refine ⟨h.order, List.pairwise_singleton _ _, fun j hj b hb => ?_⟩
    rw [List.mem_singleton.mp hb]
    exact hbeyond j hj
  · intro j hj
    rw [hentries] at hj
    rcases List.mem_append.mp hj with hj | hj
    · exact Nat.le_of_lt (hbeyond j hj)
    · exact Nat.le_of_eq (List.mem_singleton.mp hj)
  · intro j hj
    rw [hentries, List.mem_append, List.mem_singleton, not_or] at hj
    rw [hother j hj.2]
    exact h.unopened j hj.1

/-- **Opening an entry** beyond those that are open. -/
theorem openHandle_opens (hwf : WellFormed (LoadsAs R io) arr pieces) {i : Nat}
    (h : Handles R arr pieces s k) (hbeyond : ∀ j ∈ s.openEntries, j < i) (hi : i < pieces.length) :
    ∃ chunk, s.chunks[i]? = some chunk ∧ (s.openHandle io i chunk).counted = s.counted ∧
      Handles R arr pieces (s.openHandle io i chunk) i ∧
        (s.openHandle io i chunk).openEntries = s.openEntries ++ [i] ∧
          Extends s (s.openHandle io i chunk) := by
  have hpiece : pieces[i]? = some pieces[i] := List.getElem?_eq_getElem hi
  obtain ⟨chunk, hentry, hloads⟩ := hwf.entry hpiece
  have hchunk : s.chunks[i]? = some chunk := by
    rw [h.unopened i fun hmem => Nat.lt_irrefl i (hbeyond i hmem)]
    exact hentry
  refine ⟨chunk, hchunk, ?_⟩
  have hR := hloads s.world
  rcases hload : chunk.load io s.world with ⟨r, chunk', w⟩
  rw [hload] at hR
  have hkeeps : ∀ val, chunk.value = some val → chunk'.value = some val := by
    intro val hval
    rw [BackedEntry.load_cached hval] at hload
    cases hload
    exact hval
  unfold openHandle BackedEntryMut.mutHandle
  rw [hload]
  cases r with
  | error err =>
      exact ⟨rfl, h.push hbeyond hchunk hkeeps (e := { entry := i, handle := .error err }) rfl rfl rfl rfl
        fun _ => .failed hpiece hR⟩
  | ok val =>
      refine ⟨rfl, h.push hbeyond hchunk hkeeps (e := { entry := i, handle := .ok false }) rfl rfl rfl rfl
        fun ht => ?_⟩
      exact .loaded hpiece hR ht (BackedEntry.load_caches hload)

/-- A call on a `BackedEntryMut` that leaves the value of its chunk. -/
theorem Handles.put (h : Handles R arr pieces s k) {c i : Nat} {flag : Bool}
    (hc : s.handles[c]? = some { entry := i, handle := .ok flag }) {m : BackedEntryMut (List T) D C}
    {chunk : Chunk T D C} {val : List T} {piece : List X} (hpiece : pieces[i]? = some piece)
    (hR : R (.ok val) piece) (hchunk : s.chunks[i]? = some chunk) (hval : chunk.value = some val)
    (hm : m.entry.value = some val) (w : S) :
    Handles R arr pieces (s.put c i m w) k ∧ (s.put c i m w).openEntries = s.openEntries ∧
      Extends s (s.put c i m w) := by
  obtain ⟨hlt, hget⟩ := List.getElem?_eq_some_iff.mp hc
  have hentries : (s.put c i m w).openEntries = s.openEntries := by
    show (s.handles.set c { entry := i, handle := .ok m.modified }).map EntryHandle.entry =
      s.handles.map EntryHandle.entry
    have hlt' : c < (s.handles.map EntryHandle.entry).length := by simpa using hlt
    have hself : (s.handles.map EntryHandle.entry)[c] = i := by
      rw [List.getElem_map, hget]
    rw [List.map_set, ← hself, List.set_getElem_self]
  have hself : (s.put c i m w).chunks[i]? = some m.entry :=
    List.getElem?_set_self (List.getElem?_eq_some_iff.mp hchunk).1
  have hother : ∀ j, j ≠ i → (s.put c i m w).chunks[j]? = s.chunks[j]? := by
    intro j hj
    exact List.getElem?_set_ne (Ne.symm hj)
  have hext : Extends s (s.put c i m w) := by
    refine ⟨fun c' j flag' hc' => ?_, fun j err herr => ?_, fun j c' v hj hv => ?_, List.prefix_rfl⟩
    · by_cases hcc : c = c'
      · subst hcc
        obtain ⟨rfl, -⟩ := EntryHandle.mk.inj (Option.some.inj (hc.symm.trans hc'))
        exact ⟨m.modified, List.getElem?_set_self hlt⟩
      · exact ⟨flag', (List.getElem?_set_ne hcc).trans hc'⟩
    · -- the handle that is put back was not an error
      obtain ⟨c', hc'⟩ := List.getElem?_of_mem herr
      have hcc : c ≠ c' := by
        intro heq
        subst heq
        cases hc.symm.trans hc'
      exact List.mem_of_getElem? ((List.getElem?_set_ne hcc).trans hc')
    · by_cases hji : j = i
      · subst hji
        obtain rfl : chunk = c' := Option.some.inj (hchunk.symm.trans hj)
        obtain rfl : val = v := Option.some.inj (hval.symm.trans hv)
        exact ⟨m.entry, hself, hm⟩
      · exact ⟨c', (hother j hji).trans hj, hv⟩
  refine ⟨⟨?_, ?_, ?_, ?_⟩, hentries, hext⟩
  · intro e he
    rcases List.mem_or_eq_of_mem_set he with he | rfl
    · exact (h.opened e he).extends hext
    · exact .loaded hpiece hR hself hm
  · rw [hentries]
    exact h.order
  · rw [hentries]
    exact h.reached
  · intro j hj
    rw [hentries] at hj
    have hji : j ≠ i := by
      intro heq
      subst heq
      exact hj (List.mem_map.mpr ⟨_, List.mem_of_getElem? hc, rfl⟩)
    rw [hother j hji]
    exact h.unopened j hj

/-- **`Given s pieces o r`** — the answer to a call that selected this position, or none: a handle placed
there, or the error that the handle of its chunk keeps. -/
inductive Given (s : Iterated T D C S E) (pieces : List (List X)) :
    Option Nat → Option (Except E Nat) → Prop where
  | past : Given s pieces none none
  | element {p n : Nat} {h : CountedHandle} (hn : s.counted[n]? = some (some h))
      (hplaced : Placed s pieces p h) : Given s pieces (some p) (some (.ok n))
  | failure {p : Nat} {e : E} {loc : ArrayLoc} {piece : List X} (hloc : Locates pieces p loc piece)
      (he : { entry := loc.entryIdx, handle := .error e } ∈ s.handles) :
      Given s pieces (some p) (some (.error e))

/-- What has been given stays given. -/
theorem Given.extends {o : Option Nat} {r : Option (Except E Nat)} (h : Given s pieces o r)
    (hext : Extends s t) : Given t pieces o r := by
  cases h with
  | past => exact .past
  | element hn hplaced => exact .element (getElem?_stays hext.counted hn) (hplaced.extends hext)
  | failure hloc he => exact .failure hloc (hext.failed _ _ he)

/-- **`Taken pieces s q r t`** — what taking the element at position `q` leaves: a counted handle more,
placed there, or the error of the load and nothing else. -/
inductive Taken (pieces : List (List X)) (s : Iterated T D C S E) (q : Nat) :
    Option (Except E Nat) → Iterated T D C S E → Prop where
  | element {t : Iterated T D C S E} {h : CountedHandle} (hcounted : t.counted = s.counted ++ [some h])
      (hplaced : Placed t pieces q h) : Taken pieces s q (some (.ok s.counted.length)) t
  | failure {t : Iterated T D C S E} {e : E} (hcounted : t.counted = s.counted)
      (hgiven : Given t pieces (some q) (some (.error e))) : Taken pieces s q (some (.error e)) t

/-- Either access finds an element that is there. -/
theorem access_get (access : Access) {val : List T} {j : Nat} {y : T} (h : val[j]? = some y) :
    access.get val j = .ok (some y) := by
  cases access with
  | slice =>
      show (index val j >>= fun v => pure (some v)) = .ok (some y)
      rw [index_ok h]
      rfl
  | generic =>
      show (pure val[j]? : Exec (Option T)) = .ok (some y)
      rw [h]
      rfl

/-- **Taking an element** of the chunk that was opened last. -/
theorem takeElement_takes (hR : ∀ val piece, R (.ok val) piece → val.length = piece.length)
    {piece : List X} (h : Handles R arr pieces s k)
    (hlast : s.openEntries.getLast? = some k) {j q : Nat}
    (hloc : Locates pieces q { entryIdx := k, insideEntryIdx := j } piece) (access : Access) :
    Meets (takeElement access j) s (sure True (fun r t => Taken pieces s q r t ∧
      Handles R arr pieces t k ∧ t.openEntries = s.openEntries ∧ Extends s t ∧ t.iter = s.iter)
      fun _ => True) := by
  have hpiece : pieces[k]? = some piece := hloc.chunk_eq
  have hj : j < piece.length := hloc.inside_lt
  unfold openEntries at hlast
  rw [List.getLast?_map] at hlast
  obtain ⟨last, hget, hentry⟩ := Option.map_eq_some_iff.mp hlast
  have hopen := h.opened last (List.mem_of_getLast? hget)
  have hc : s.handles[s.handles.length - 1]? = some last := by
    rw [← List.getLast?_eq_getElem?]
    exact hget
  unfold takeElement
  rw [meets_get_bind, hget, meets_ofExec_bind (unwrap_some last)]
  cases hopen with
  | failed hfail hout =>
      obtain rfl := hentry
      exact ⟨.failure rfl (.failure hloc (List.mem_of_getLast? hget)), h, rfl, Extends.refl s, rfl⟩
  | @loaded i flag chunk val piece' hloaded hout hchunk hval =>
      obtain rfl : i = k := hentry
      obtain rfl : piece = piece' := Option.some.inj (hpiece.symm.trans hloaded)
      obtain ⟨y, hy⟩ : ∃ y, val[j]? = some y := by
        rw [← hR val piece hout] at hj
        exact ⟨_, List.getElem?_eq_getElem hj⟩
      -- `deref_mut` raises the flag and leaves the value
      let m : BackedEntryMut (List T) D C := { entry := { chunk with value := some val }, modified := true }
      have hm : ({ entry := chunk, modified := flag } : BackedEntryMut (List T) D C).derefMut id =
          .ok m := by
        unfold BackedEntryMut.derefMut
        rw [hval]
        rfl
      obtain ⟨hput, hentries, hext⟩ := h.put hc (m := m) hpiece hout hchunk hval rfl s.world
      simp only
      rw [meets_ofExec_bind (index_ok hchunk), meets_ofExec_bind hm, meets_modify_bind,
        meets_ofExec_bind (show m.deref = .ok val from rfl), meets_ofExec_bind (access_get access hy)]
      simp only
      rw [meets_modify_bind]
      -- the element is given out
      generalize ht : ({ s.put (s.handles.length - 1) i m s.world with
        counted := s.counted ++ [some { handle := s.handles.length - 1, value := j }] } :
          Iterated T D C S E) = t
      obtain ⟨hgiven, hentries', hext'⟩ :
          Handles R arr pieces t i ∧ t.openEntries = s.openEntries ∧ Extends s t := by
        have hcongr := hput.congr (t := t) (by rw [← ht]) (by rw [← ht])
          (by rw [← ht]; exact List.prefix_append _ _)
        exact ⟨hcongr.1, hcongr.2.1.trans hentries, hext.trans hcongr.2.2⟩
      have hplaced : Placed t pieces q { handle := s.handles.length - 1, value := j } := by
        have hhandle : t.handles[s.handles.length - 1]? = some { entry := i, handle := .ok true } := by
          rw [← ht]
          exact List.getElem?_set_self (List.getElem?_eq_some_iff.mp hc).1
        exact ⟨i, true, piece, hhandle, hloc⟩
      subst ht
      exact ⟨.element rfl hplaced, hgiven, hentries', hext', rfl⟩

/-! ## The two walks -/

/-- **`Aligned R arr pieces s it k p qs`** — the iterator has passed `k` ranges and `p` elements (past the
end it may count on differently), and the counted handles are placed at `qs`, one behind the other and all
behind the iterator.  While there are ranges left, the first of them is that of the entry opened last, and
the slice iterator over the entries is one ahead of it. -/
structure Aligned (R : Except E (List T) → List X → Prop) (arr : BackedArray (Chunk T D C))
    (pieces : List (List X)) (s : Iterated T D C S E) (it : BackedArrayIterMut) (k p : Nat) (qs : List Nat) :
    Prop where
  iter : s.iter = some it
  len : it.len = arr.len
  key_le : k ≤ pieces.length
  keys : it.keys =
    rangesFrom ((pieces.map List.length).take k).sum ((pieces.map List.length).drop k)
  behind : ((pieces.map List.length).take k).sum ≤ it.pos
  pos : it.pos = p ∨ pieces.flatten.length ≤ it.pos ∧ pieces.flatten.length ≤ p
  current : k < pieces.length → it.entries = k + 1 ∧ s.openEntries.getLast? = some k
  handles : Handles R arr pieces s k
  counted : List.Forall₂ (fun h q => ∃ c, h = some c ∧ Placed s pieces q c) s.counted qs
  order : qs.Pairwise (· < ·)
  given : ∀ q ∈ qs, q < it.pos

/-- The iterator drops the ranges it has passed. -/
theorem Aligned.pass {it : BackedArrayIterMut} {p : Nat} {qs : List Nat}
    (h : Aligned R arr pieces s it k p qs) (n : Nat) :
    ∃ j, k + j ≤ pieces.length ∧
      (it.keys.dropWhile fun key => key.2 ≤ it.pos + n) =
        rangesFrom ((pieces.map List.length).take (k + j)).sum
          ((pieces.map List.length).drop (k + j)) ∧
      ((pieces.map List.length).take (k + j)).sum ≤ it.pos + n ∧
      ∀ piece, pieces[k + j]? = some piece → Locates pieces (it.pos + n)
        { entryIdx := k + j
          insideEntryIdx := it.pos + n - ((pieces.map List.length).take (k + j)).sum } piece := by
  have hbehind : ((pieces.map List.length).take k).sum ≤ it.pos + n :=
    Nat.le_trans h.behind (Nat.le_add_right _ _)
  obtain ⟨j, hj, hdrop, hle, hlt⟩ := rangesFrom_dropWhile ((pieces.map List.length).drop k) hbehind
  have hsum : ((pieces.map List.length).take k).sum + (((pieces.map List.length).drop k).take j).sum =
      ((pieces.map List.length).take (k + j)).sum := by
    rw [List.take_add, List.sum_append]
  rw [hsum] at hdrop hle hlt
  rw [List.drop_drop] at hdrop
  refine ⟨j, ?_, ?_, hle, fun piece hpiece => ?_⟩
  · have hkey := h.key_le
    simp only [List.length_drop, List.length_map] at hj
    omega
  · rw [h.keys]
    exact hdrop
  · have hinside := hlt piece.length (by
      rw [List.getElem?_drop, List.getElem?_map, hpiece]
      rfl)
    refine ⟨hpiece, ?_, Nat.add_sub_cancel' hle⟩
    show it.pos + n - _ < piece.length
    omega

/-- A placed handle for a placed position, in the order they were given out. -/
theorem counted_extends {qs : List Nat} (hext : Extends s t)
    (h : List.Forall₂ (fun h q => ∃ c, h = some c ∧ Placed s pieces q c) s.counted qs) :
    List.Forall₂ (fun h q => ∃ c, h = some c ∧ Placed t pieces q c) s.counted qs :=
  h.imp fun _ _ ⟨c, hc, hplaced⟩ => ⟨c, hc, hplaced.extends hext⟩

/-- What a call leaves: the walks aligned behind its position, and no entry opened but the one that
holds it. -/
structure Stepped (R : Except E (List T) → List X → Prop) (arr : BackedArray (Chunk T D C))
    (pieces : List (List X)) (s : Iterated T D C S E) (it : BackedArrayIterMut) (p n : Nat)
    (t : Iterated T D C S E) :
    Prop where
  aligned : ∃ it' k' qs', Aligned R arr pieces t it' k' (p + n + 1) qs' ∧
    it'.pos = if it.pos + n < pieces.flatten.length then it.pos + n + 1 else it.pos + n
  extends_ : Extends s t
  opened : ∀ i ∈ t.openEntries, i ∈ s.openEntries ∨
    p + n < pieces.flatten.length ∧ InRange arr i (p + n)

/-- **The end of a call**, with the entry of its position opened last. -/
theorem Aligned.take (hR : ∀ val piece, R (.ok val) piece → val.length = piece.length)
    {it : BackedArrayIterMut} {p n j : Nat} {qs : List Nat} (h : Aligned R arr pieces s it k p qs)
    (hwf : WellFormed (LoadsAs R io) arr pieces)
    {piece : List X} (it' : BackedArrayIterMut) (hloc : Locates pieces (it.pos + n)
      { entryIdx := j, insideEntryIdx := it.pos + n - ((pieces.map List.length).take j).sum } piece)
    (hhandles : Handles R arr pieces u j) (hext : Extends s u) (hcounted : u.counted = s.counted)
    (hiter : u.iter = some it') (hlen : it'.len = it.len) (hpos : it'.pos = it.pos + n + 1)
    (hkeys : it'.keys =
      rangesFrom ((pieces.map List.length).take j).sum ((pieces.map List.length).drop j))
    (hentries : it'.entries = j + 1) (hlast : u.openEntries.getLast? = some j)
    (hopened : ∀ i ∈ u.openEntries, i ∈ s.openEntries ∨ i = j) (access : Access) :
    Meets (takeElement access (it.pos + n - ((pieces.map List.length).take j).sum)) u
      (sure True (fun r t => Given t pieces (some (p + n)) r ∧ Stepped R arr pieces s it p n t)
        fun _ => True) := by
  have hin : it.pos + n < pieces.flatten.length := by
    obtain ⟨x, -, hx⟩ := hloc.element
    exact (List.getElem?_eq_some_iff.mp hx).1
  have hp : it.pos = p := by
    have := h.pos
    omega
  subst hp
  refine (takeElement_takes hR hhandles hlast hloc access).imp (fun r t ht => ?_) fun _ _ => trivial
  obtain ⟨htaken, hhandles', hentries', hext', hiter'⟩ := ht
  have hjlt : j < pieces.length := (List.getElem?_eq_some_iff.mp hloc.chunk_eq).1
  have hle : ((pieces.map List.length).take j).sum ≤ it.pos + n :=
    hloc.idx_eq ▸ Nat.le_add_right _ _
  have hqs := counted_extends (hext.trans hext') h.counted
  have hgiven : ∀ q ∈ qs, q < it'.pos := by
    intro q hq
    have := h.given q hq
    omega
  -- whatever has been given out by now
  have hstep : ∀ qs', List.Forall₂ (fun h q => ∃ c, h = some c ∧ Placed t pieces q c) t.counted qs' →
      qs'.Pairwise (· < ·) → (∀ q ∈ qs', q < it'.pos) → Stepped R arr pieces s it it.pos n t := by
    intro qs' hcounted' horder' hgiven'
    refine ⟨⟨it', j, qs', ⟨hiter'.trans hiter, hlen.trans h.len, Nat.le_of_lt hjlt, hkeys, ?_, ?_, ?_,
      hhandles', hcounted', horder', hgiven'⟩, ?_⟩, hext.trans hext', ?_⟩
    · rw [hpos]
      omega
    · exact Or.inl hpos
    · intro _
      rw [hentries']
      exact ⟨hentries, hlast⟩
    · rw [if_pos hin]
      exact hpos
    · intro i hi
      rw [hentries'] at hi
      rcases hopened i hi with hi | rfl
      · exact Or.inl hi
      · exact Or.inr ⟨hin, hloc.inRange hwf⟩
  cases htaken with
  | @element t c hnew hplaced =>
      have hn : t.counted[u.counted.length]? = some (some c) := by
        rw [hnew]
        exact List.getElem?_concat_length
      refine ⟨.element hn hplaced, hstep (qs ++ [it.pos + n]) ?_ ?_ ?_⟩
      · rw [hnew, hcounted]
        exact List.rel_append hqs (.cons ⟨_, rfl, hplaced⟩ .nil)
      · rw [List.pairwise_append]
        refine ⟨h.order, List.pairwise_singleton _ _, fun q hq q' hq' => ?_⟩
        rw [List.mem_singleton.mp hq']
        have := h.given q hq
        omega
      · intro q hq
        rcases List.mem_append.mp hq with hq | hq
        · exact hgiven q hq
        · rw [List.mem_singleton.mp hq]
          omega
  | failure hsame hgiven' =>
      refine ⟨hgiven', hstep qs ?_ h.order hgiven⟩
      rw [hsame, hcounted]
      exact hqs

/-- The range of a piece, and the ranges behind it. -/
theorem rangesFrom_piece {j : Nat} (hj : j < pieces.length) :
    rangesFrom ((pieces.map List.length).take j).sum ((pieces.map List.length).drop j) =
      (((pieces.map List.length).take j).sum,
        ((pieces.map List.length).take j).sum + pieces[j].length) ::
          rangesFrom (((pieces.map List.length).take j).sum + pieces[j].length)
            ((pieces.map List.length).drop (j + 1)) := by
  have hdrop : (pieces.map List.length).drop j =
      pieces[j].length :: (pieces.map List.length).drop (j + 1) := by
    rw [List.drop_eq_getElem_cons (by simpa using hj), List.getElem_map]
  rw [hdrop, rangesFrom_cons]

/-- **The end of a call** that has passed all ranges. -/
theorem Aligned.past {it : BackedArrayIterMut} {p n : Nat} {qs : List Nat}
    (h : Aligned R arr pieces s it k p qs) (hle : pieces.flatten.length ≤ it.pos + n) :
    Stepped R arr pieces s it p n { s with iter := some { it with pos := it.pos + n, keys := [] } } := by
  have hall : ((pieces.map List.length).take pieces.length).sum = pieces.flatten.length := by
    rw [List.take_of_length_le (Nat.le_of_eq (List.length_map _)), List.length_flatten]
  have hnone : (pieces.map List.length).drop pieces.length = [] :=
    List.drop_of_length_le (Nat.le_of_eq (List.length_map _))
  obtain ⟨hhandles, -, hext⟩ := h.handles.congr
    (t := { s with iter := some { it with pos := it.pos + n, keys := [] } }) rfl rfl List.prefix_rfl
  have hkeep : Handles R arr pieces { s with iter := some { it with pos := it.pos + n, keys := [] } }
      pieces.length :=
    ⟨hhandles.opened, hhandles.order, fun i hi => Nat.le_trans (hhandles.reached i hi) h.key_le,
      hhandles.unopened⟩
  refine ⟨⟨_, pieces.length, qs, ⟨rfl, h.len, Nat.le_refl _, ?_, ?_, ?_, ?_, hkeep, ?_, h.order, ?_⟩, ?_⟩,
    hext, fun i hi => Or.inl hi⟩
  · rw [hnone]
    rfl
  · rw [hall]
    exact hle
  · have hpos := h.pos
    exact Or.inr ⟨hle, by omega⟩
  · intro hlt
    exact absurd hlt (Nat.lt_irrefl _)
  · exact counted_extends (s := s) hext h.counted
  · intro q hq
    exact Nat.lt_of_lt_of_le (h.given q hq) (Nat.le_add_right _ _)
  · rw [if_neg (Nat.not_lt.mpr hle)]

/-- **One call** answers as the iterator of the slice does: past the end with `None`, and before it with
the handle of its element or the error of the load. -/
theorem nthWith_steps (hR : ∀ val piece, R (.ok val) piece → val.length = piece.length)
    {add : Nat → Nat → Exec Nat} (hwf : WellFormed (LoadsAs R io) arr pieces)
    {it : BackedArrayIterMut} {p n : Nat} {qs : List Nat} (h : Aligned R arr pieces s it k p qs)
    (hadd : add it.pos n = .ok (it.pos + n))
    (hadd' : it.pos + n < pieces.flatten.length → add (it.pos + n) 1 = .ok (it.pos + n + 1))
    (access : Access) :
    Meets (nthWith io add access it n) s (sure True (fun r t =>
      Given t pieces (if p + n < pieces.flatten.length then some (p + n) else none) r ∧
        Stepped R arr pieces s it p n t) fun _ => True) := by
  obtain ⟨j, hj, hdrop, hle, hlocates⟩ := h.pass n
  have hsum : (pieces.map List.length).sum = pieces.flatten.length := List.length_flatten.symm
  unfold nthWith
  rw [meets_ofExec_bind hadd]
  simp only [hdrop]
  rcases Nat.lt_or_ge (k + j) pieces.length with hin | hout
  · have hloc := hlocates _ (List.getElem?_eq_getElem hin)
    have hflat : it.pos + n < pieces.flatten.length := by
      obtain ⟨x, -, hx⟩ := hloc.element
      exact (List.getElem?_eq_some_iff.mp hx).1
    have hp : p + n < pieces.flatten.length := by
      have := h.pos
      omega
    have hcount : it.keys.length - (rangesFrom ((pieces.map List.length).take (k + j)).sum
        ((pieces.map List.length).drop (k + j))).length = j := by
      rw [h.keys, rangesFrom_length, rangesFrom_length, List.length_drop, List.length_drop,
        List.length_map]
      omega
    obtain ⟨hentries, hlast⟩ := h.current (by omega)
    rw [hcount, if_pos hp]
    have hkeys := rangesFrom_piece hin
    rw [hkeys]
    simp only
    rw [meets_ofExec_bind (usizeSub_ok hle), meets_ofExec_bind (hadd' hflat), meets_modify_bind]
    rcases Nat.eq_zero_or_pos j with rfl | hpos
    · -- the position is in the entry that is open
      simp only [Nat.lt_irrefl, if_false]
      obtain ⟨hhandles', -, hext'⟩ := h.handles.congr (t := { s with iter := some _ }) rfl rfl
        List.prefix_rfl
      exact Aligned.take hR h hwf { it with pos := it.pos + n + 1, keys := _ } hloc hhandles' hext'
        rfl rfl rfl rfl hkeys.symm hentries hlast (fun i hi => Or.inl hi) access
    · simp only [if_pos hpos]
      -- the slice iterator is one ahead of the range it has come to
      have hentry : it.entries + (j - 1) = k + j := by omega
      rw [hentry, meets_get_bind]
      obtain ⟨hhandles', hentries', hext'⟩ := h.handles.congr (t := { s with iter := some _ }) rfl rfl
        List.prefix_rfl
      obtain ⟨chunk, hchunk, hcounted, hopened, happended, hext⟩ := openHandle_opens hwf hhandles'
        (fun i hi => by have := h.handles.reached i hi; omega) hin
      rw [meets_ofExec_bind (show unwrap s.chunks[k + j]? = .ok chunk by rw [hchunk]; rfl),
        meets_modify_bind]
      obtain ⟨hhandles'', hentries'', hext''⟩ := hopened.congr
        (t := { openHandle io _ (k + j) chunk with iter := some _ }) rfl rfl List.prefix_rfl
      refine Aligned.take hR h hwf { it with pos := it.pos + n + 1, keys := _, entries := k + j + 1 } hloc
        hhandles'' (hext'.trans (hext.trans hext'')) hcounted rfl rfl rfl hkeys.symm rfl ?_
        (fun i hi => ?_) access
      · rw [hentries'', happended]
        exact List.getLast?_concat
      · rw [hentries'', happended, hentries'] at hi
        simpa using hi
  · -- all ranges have been passed
    have hend : k + j = pieces.length := Nat.le_antisymm hj hout
    have hall : (pieces.map List.length).take (k + j) = pieces.map List.length := by
      rw [hend]
      exact List.take_of_length_le (by simp)
    have hnone : (pieces.map List.length).drop (k + j) = [] := by
      rw [hend]
      exact List.drop_of_length_le (by simp)
    rw [hall, hsum] at hle
    have hpast : ¬ p + n < pieces.flatten.length := by
      have := h.pos
      omega
    rw [if_neg hpast]
    simp only [hnone, rangesFrom_nil]
    rw [meets_modify_bind]
    exact ⟨.past, h.past hle⟩

/-- **A new iterator** has opened the first entry, if there is one. -/
theorem iterMut_aligned (hwf : WellFormed (LoadsAs R io) arr pieces) (world : S) :
    ∃ it, Aligned R arr pieces (iterMut io arr world) it 0 0 [] ∧ it.pos = 0 ∧
      ∀ i ∈ (iterMut io arr world : Iterated T D C S E).openEntries, i = 0 := by
  let s₀ : Iterated T D C S E :=
    { chunks := arr.entries, handles := []
      iter := some { pos := 0, len := arr.len, keys := arr.keyStarts.zip arr.keyEnds, entries := 0 }
      counted := [], world }
  have hnew : Handles R arr pieces s₀ 0 := ⟨nofun, .nil, nofun, fun _ _ => rfl⟩
  have hkeys : arr.keyStarts.zip arr.keyEnds = rangesFrom 0 (pieces.map List.length) := by
    rw [hwf.keyStarts_eq, hwf.keyEnds_eq]
    rfl
  rcases Nat.eq_zero_or_pos pieces.length with hnone | hsome
  · have hempty : arr.entries[0]? = none := by
      apply List.getElem?_eq_none
      exact Nat.le_of_eq (hwf.entries_length.trans hnone)
    have hiter : iterMut io arr world = s₀ := by
      unfold iterMut
      rw [hempty]
    rw [hiter]
    exact ⟨_, ⟨rfl, rfl, Nat.zero_le _, hkeys, Nat.zero_le _, Or.inl rfl,
      fun h => absurd h (by omega), hnew, .nil, .nil, nofun⟩, rfl, nofun⟩
  · obtain ⟨chunk, hchunk, hcounted, hopened, happended, -⟩ := openHandle_opens hwf hnew nofun hsome
    have hiter : iterMut io arr world =
        { openHandle io s₀ 0 chunk with iter := s₀.iter.map fun it => { it with entries := 1 } } := by
      unfold iterMut
      rw [show arr.entries[0]? = some chunk from hchunk]
    rw [hiter]
    obtain ⟨hhandles, hentries, -⟩ := hopened.congr
      (t := { openHandle io s₀ 0 chunk with iter := s₀.iter.map fun it => { it with entries := 1 } })
      rfl rfl List.prefix_rfl
    refine ⟨_, ⟨rfl, rfl, Nat.zero_le _, hkeys, Nat.zero_le _, Or.inl rfl, fun _ => ⟨rfl, ?_⟩, hhandles,
      ?_, .nil, nofun⟩, rfl, ?_⟩
    · rw [hentries, happended]
      rfl
    · rw [show _ = ([] : List (Option CountedHandle)) from hcounted]
      exact .nil
    · intro i hi
      rw [hentries, happended] at hi
      simpa [openEntries, s₀] using hi

/-! ## Runs of calls -/

/-- **The run lemma**, from any position. -/
theorem runCalls_gives (hR : ∀ val piece, R (.ok val) piece → val.length = piece.length)
    (hwf : WellFormed (LoadsAs R io) arr pieces) (access : Access) (cs : List Call)
    {it : BackedArrayIterMut} {p : Nat} {qs : List Nat} (h : Aligned R arr pieces s it k p qs) :
    Meets (runCalls io unbounded access cs) s (sure True (fun answers t =>
      List.Forall₂ (Given t pieces) (positions pieces.flatten.length p cs) answers ∧
        (∃ it' k' p' qs', Aligned R arr pieces t it' k' p' qs') ∧ Extends s t ∧
          ∀ i ∈ t.openEntries, i ∈ s.openEntries ∨
            ∃ q, some q ∈ positions pieces.flatten.length p cs ∧ InRange arr i q) fun _ => True) := by
  induction cs generalizing s it k p qs with
  | nil => exact ⟨.nil, ⟨it, k, p, qs, h⟩, Extends.refl s, fun i hi => Or.inl hi⟩
  | cons c cs ih =>
      unfold runCalls
      have hcall : Meets (call io unbounded access c) s (sure True (fun r t =>
          Given t pieces
            (if p + c.skip < pieces.flatten.length then some (p + c.skip) else none) r ∧
              Stepped R arr pieces s it p c.skip t) fun _ => True) := by
        unfold call
        rw [meets_get_bind, h.iter, meets_ofExec_bind (unwrap_some it)]
        exact nthWith_steps hR hwf h rfl (fun _ => rfl) access
      apply hcall.seq
      intro r t ht
      obtain ⟨hr, ⟨it', k', qs', haligned, -⟩, hext, hopened⟩ := ht
      apply (ih haligned).seq
      intro rs u hu
      obtain ⟨hrs, haligned', hext', hopened'⟩ := hu
      rw [positions_cons]
      refine ⟨.cons (hr.extends hext') hrs, haligned', hext.trans hext', fun i hi => ?_⟩
      rcases hopened' i hi with hi | ⟨q, hq, hin⟩
      · rcases hopened i hi with hi | ⟨hlt, hin⟩
        · exact Or.inl hi
        · refine Or.inr ⟨p + c.skip, ?_, hin⟩
          rw [if_pos hlt]
          exact List.mem_cons_self
      · exact Or.inr ⟨q, List.mem_cons_of_mem _ hq, hin⟩

/-- The entry and the place inside it that a counted handle refers to. -/
def target (s : Iterated T D C S E) (h : CountedHandle) : Option ArrayLoc :=
  s.handles[h.handle]?.map fun e => { entryIdx := e.entry, insideEntryIdx := h.value }

/-- A handle that is placed has its target there. -/
theorem Placed.target {q : Nat} {h : CountedHandle} (hplaced : Placed s pieces q h) :
    ∃ loc piece, s.target h = some loc ∧ Locates pieces q loc piece := by
  obtain ⟨i, flag, piece, hhandle, hloc⟩ := hplaced
  refine ⟨_, piece, ?_, hloc⟩
  unfold Iterated.target
  rw [hhandle]
  rfl

/-- Handles at one place are one handle: the positions were given out in order. -/
theorem Aligned.distinct {it : BackedArrayIterMut} {p : Nat} {qs : List Nat}
    (hal : Aligned R arr pieces s it k p qs) {m n : Nat} {h h' : CountedHandle}
    (hm : s.counted[m]? = some (some h)) (hn : s.counted[n]? = some (some h'))
    (htarget : s.target h = s.target h') : m = n := by
  have hplaced : ∀ {m : Nat} {h : CountedHandle}, s.counted[m]? = some (some h) →
      ∃ q, qs[m]? = some q ∧ Placed s pieces q h := by
    intro m h hm
    obtain ⟨hlt, hget⟩ := List.getElem?_eq_some_iff.mp hm
    have hlt' : m < qs.length := hal.counted.length_eq ▸ hlt
    obtain ⟨c, hc, hplaced⟩ := (List.forall₂_iff_get.mp hal.counted).2 m hlt hlt'
    obtain rfl : h = c := Option.some.inj (hget.symm.trans (by simpa using hc))
    exact ⟨qs[m], List.getElem?_eq_getElem hlt', by simpa using hplaced⟩
  obtain ⟨q, hq, hplaced₁⟩ := hplaced hm
  obtain ⟨q', hq', hplaced₂⟩ := hplaced hn
  obtain ⟨loc, piece, hloc, hlocates⟩ := hplaced₁.target
  obtain ⟨loc', piece', hloc', hlocates'⟩ := hplaced₂.target
  obtain rfl : loc = loc' := Option.some.inj (hloc.symm.trans (htarget.trans hloc'))
  have hsame : q = q' := hlocates.idx_eq.symm.trans hlocates'.idx_eq
  subst hsame
  have hnodup : qs.Nodup := hal.order.imp fun h => Nat.ne_of_lt h
  exact (List.getElem?_inj (List.getElem?_eq_some_iff.mp hq).1 hnodup).mp (hq.trans hq'.symm)

end Walks

/-! ## What a run hands out -/

section Shown

variable {io : Medium (List T) D C S E} {arr : BackedArray (Chunk T D C)} {s : Iterated T D C S E}
  {pieces : List (List (Except E T))}

/-- **`Answered s pieces o r`** — the answer to a call that selected this position, or none: a counted
handle, alive, on exactly the element there, or the error in the place of it. -/
inductive Answered (s : Iterated T D C S E) (pieces : List (List (Except E T))) :
    Option Nat → Option (Except E Nat) → Prop where
  | past : Answered s pieces none none
  | element {p n : Nat} {h : CountedHandle} {loc : ArrayLoc} {piece : List (Except E T)} {x : T}
      (hn : s.counted[n]? = some (some h)) (htarget : s.target h = some loc)
      (hloc : Locates pieces p loc piece) (helement : s.element h = some x)
      (hp : pieces.flatten[p]? = some (.ok x)) : Answered s pieces (some p) (some (.ok n))
  | failure {p : Nat} {e : E} (hp : pieces.flatten[p]? = some (.error e)) :
      Answered s pieces (some p) (some (.error e))

/-- What is given is what there is to show. -/
theorem Given.answered (hopened : ∀ h ∈ s.handles, Opened Shows s pieces h) {o : Option Nat}
    {r : Option (Except E Nat)} (h : Given s pieces o r) : Answered s pieces o r := by
  cases h with
  | past => exact .past
  | @element p n h hn hplaced =>
      obtain ⟨loc, piece, htarget, hloc⟩ := hplaced.target
      obtain ⟨i, flag, piece, hhandle, hloc'⟩ := hplaced
      obtain ⟨x, hx, hflat⟩ := hloc'.element
      have hopen := hopened _ (List.mem_of_getElem? hhandle)
      cases hopen with
      | @loaded i flag chunk val piece' hpiece hshows hchunk hval =>
          obtain rfl : piece = piece' := Option.some.inj (hloc'.chunk_eq.symm.trans hpiece)
          obtain rfl : piece = val.map .ok := hshows
          obtain ⟨y, hy, rfl⟩ : ∃ y, val[h.value]? = some y ∧ .ok y = x := by
            rw [List.getElem?_map] at hx
            simpa using hx
          refine .element hn htarget hloc ?_ hflat
          unfold Iterated.element
          simp only [hhandle, hchunk, hval, Option.bind_eq_bind, Option.bind_some]
          exact hy
  | @failure p e loc piece hloc he =>
      obtain ⟨x, hx, hflat⟩ := hloc.element
      have hopen := hopened _ he
      generalize hhandle : ({ entry := loc.entryIdx, handle := .error e } : EntryHandle E) = handle at hopen
      cases hopen with
      | loaded hpiece hshows hchunk hval => cases hhandle
      | failed hpiece hshows =>
          cases hhandle
          obtain rfl := Option.some.inj (hloc.chunk_eq.symm.trans hpiece)
          rw [hshows x (List.mem_of_getElem? hx)] at hflat
          exact .failure hflat

/-- The loads of a chunk come to what there is to show. -/
theorem comesTo_loads {e : Chunk T D C} {piece : List (Except E T)} (h : ComesTo io e piece) :
    LoadsAs Shows io e piece := by
  obtain ⟨out, hsteady, hshows⟩ := h
  intro s
  have hout : (e.load io s).1 = out := hsteady [] s
  rw [hout]
  exact hshows

/-- Where it loads, there is as much to show as there are elements. -/
theorem shows_length (val : List T) (piece : List (Except E T)) (h : Shows (.ok val) piece) :
    val.length = piece.length := by
  rw [show piece = val.map .ok from h, List.length_map]

/-- **`HandsOut arr pieces cs answers s`** — the calls `cs` on a new iterator were answered, each that
selected a position with a handle placed there or with the error of its chunk, and each past the end with
`None`; no two handles are at one place; no entry has been opened twice, nor any but the first and those
that hold a selected position; and the others are as they were. -/
structure HandsOut (arr : BackedArray (Chunk T D C)) (pieces : List (List (Except E T)))
    (cs : List Call) (answers : List (Option (Except E Nat))) (s : Iterated T D C S E) : Prop where
  answered : List.Forall₂ (Answered s pieces) (positions arr.len 0 cs) answers
  distinct : ∀ (m n : Nat) (h h' : CountedHandle), s.counted[m]? = some (some h) →
    s.counted[n]? = some (some h') → s.target h = s.target h' → m = n
  once : s.openEntries.Nodup
  opened : ∀ i ∈ s.openEntries, i = 0 ∨ ∃ p, some p ∈ positions arr.len 0 cs ∧ InRange arr i p
  untouched : ∀ i, s.chunks[i]? ≠ arr.entries[i]? → i ∈ s.openEntries

end Shown

end Iterated

/-- **The mutable iterators hand out what the iterator of a slice would.**  On every well-formed array,
wherever it has empty chunks and whichever of its chunks fail to load, and for every run of `next` and
`nth(n)`, both iterators return from every call, and what they hand out is `HandsOut`. -/
theorem iterMut_handsOut {T D C S E : Type} (io : Medium (List T) D C S E)
    (arr : BackedArray (Chunk T D C)) (pieces : List (List (Except E T)))
    (hwf : WellFormed (ComesTo io) arr pieces) (access : Access) (cs : List Call) (world : S) :
    ∃ answers s, Iterated.runCalls io unbounded access cs (Iterated.iterMut io arr world) =
        .ok (.ok answers, s) ∧
      Iterated.HandsOut arr pieces cs answers s := by
  have hloads : WellFormed (Iterated.LoadsAs Shows io) arr pieces :=
    ⟨hwf.keys, hwf.entries.imp fun _ _ h => Iterated.comesTo_loads h⟩
  obtain ⟨it, haligned, -, hfirst⟩ := Iterated.iterMut_aligned hloads world
  have hrun := Iterated.runCalls_gives Iterated.shows_length hloads access cs haligned
  obtain ⟨answers, s, hs⟩ := hrun.returns trivial
  obtain ⟨hanswered, ⟨it', k, p, qs, hend⟩, -, hopened⟩ := hrun.ok hs
  rw [← hwf.len_eq] at hanswered hopened
  refine ⟨answers, s, hs, hanswered.imp fun _ _ h => h.answered hend.handles.opened,
    fun m n h h' hm hn ht => hend.distinct hm hn ht, ?_, ?_, ?_⟩
  · exact hend.handles.order.imp fun h => Nat.ne_of_lt h
  · intro i hi
    rcases hopened i hi with hi | hin
    · exact Or.inl (hfirst i hi)
    · exact Or.inr hin
  · intro i hi
    by_contra hnot
    exact hi (hend.handles.unopened i hnot)

/-- The calls skip an empty chunk, come to one that does not load, and run off the end. -/
theorem iterMut_handsOut_sample :
    ∃ answers s, Iterated.runCalls (quiet (List Nat)) unbounded .slice
        [.nth 1, .next, .nth 1, .next, .nth 7] (Iterated.iterMut (quiet (List Nat)) sampleArray ()) =
          .ok (.ok answers, s) ∧
      Iterated.HandsOut sampleArray samplePieces [.nth 1, .next, .nth 1, .next, .nth 7] answers s :=
  iterMut_handsOut (quiet (List Nat)) sampleArray samplePieces sampleArray_wellFormed .slice _ ()

example :
    (Iterated.runCalls (quiet (List Nat)) unbounded .slice [.nth 1, .next, .nth 1, .next, .nth 7]
        (Iterated.iterMut (quiet (List Nat)) sampleArray ())).map Prod.fst =
      .ok (.ok [some (.ok 0), some (.error ()), some (.ok 1), none, none]) := by
  decide

end BackedData.Array
