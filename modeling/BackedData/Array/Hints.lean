/-
# BackedData.Array.Hints — `size_hint` of the item iterators

Every item iterator reports `len - pos`.  They advance `pos` by three rules: `BackedArrayIter` and
`BackedArrayGenericIter` by `n` before they look for the element and by one behind it, so that a call at
the end leaves the position there; the mutable iterators likewise; and the iterators of futures by
`n + 1` always.  `sizeHint_exact_iff` is the condition under which the hint stays exact, for each.

Nothing is asked of the loads, which may fail and succeed as they like, but that a chunk that loads is
as long as its keys say.
-/
import BackedData.Array.FutIter
import BackedData.Array.IterMutAligned
import BackedData.Array.Residency
import BackedData.Logic.SizeHint

namespace BackedData.Array

open Logic.Outcome
open Logic.Ranges
open Logic.SizeHint
open Logic.Slices
open Logic.Stateful
open BackedData.Entry

set_option autoImplicit false

variable {Ent T D C S E : Type}

/-! ## The iterators, with their hints -/

/-- The body that every `size_hint` has. -/
def remainingHint (len pos : Nat) : Exec (Nat × Option Nat) := do
  let remaining ← usizeSub len pos
  pure (remaining, some remaining)

/-- `size_hint`. -/
def BackedArrayIter.sizeHint (backed : BackedArray Ent) (this : BackedArrayIter) :
    Exec (Nat × Option Nat) :=
  remainingHint backed.len this.pos

/-- `size_hint`. -/
def BackedArrayGenericIter.sizeHint (backed : BackedArray Ent) (this : BackedArrayGenericIter) :
    Exec (Nat × Option Nat) :=
  remainingHint backed.len this.pos

/-- `size_hint`, of either mutable iterator. -/
def BackedArrayIterMut.sizeHint (this : BackedArrayIterMut) : Exec (Nat × Option Nat) :=
  remainingHint this.len this.pos

/-- `size_hint`, of each iterator of futures. -/
def BackedArrayFutIter.sizeHint (backed : BackedArray Ent) (this : BackedArrayFutIter) :
    Exec (Nat × Option Nat) :=
  remainingHint backed.len this.pos

section Hinted

variable (io : Medium (List T) D C S E)

def BackedArrayIter.hinted : Hinted (Iteration T D C S) (Except E T) where
  nth n st := (BackedArrayIter.nth usizeAdd io n st).toOption
  sizeHint st := (BackedArrayIter.sizeHint st.1 st.2.1).toOption

def BackedArrayGenericIter.hinted : Hinted (Iteration T D C S) (Except E T) where
  nth n st := (BackedArrayGenericIter.nth usizeAdd io n st).toOption
  sizeHint st := (BackedArrayGenericIter.sizeHint st.1 st.2.1).toOption

/-- The mutable iterators; a call on one that has been dropped does not return. -/
def Iterated.hinted (access : Access) : Hinted (Iterated T D C S E) (Except E Nat) where
  nth n s :=
    match s.iter with
    | none => none
    | some it =>
        match Iterated.nth io access it n s with
        | .ok (.ok r, s) => some (r, s)
        | _ => none
  sizeHint s :=
    match s.iter with
    | none => none
    | some it => it.sizeHint.toOption

/-- An iterator of futures, by its `nth`. -/
def BackedArrayFutIter.hinted (backed : BackedArray Ent)
    (nth : Nat → BackedArrayFutIter → Exec (Option (ItemFuture T D C S E) × BackedArrayFutIter)) :
    Hinted BackedArrayFutIter (ItemFuture T D C S E) where
  nth n this := (nth n this).toOption
  sizeHint this := (this.sizeHint backed).toOption

end Hinted

/-- The hint, where the position is not past the length, and where it is. -/
theorem remainingHint_eq (len pos : Nat) : (remainingHint len pos).toOption =
    if pos ≤ len then some (len - pos, some (len - pos)) else none := by
  unfold remainingHint usizeSub
  by_cases h : pos ≤ len
  · rw [if_pos h, if_pos h]
    rfl
  · rw [if_neg h, if_neg h]
    rfl

/-! ## The iterators of futures -/

/-- A call on an iterator of futures that returned. -/
theorem futIter_nth_inv {aGet : AsyncLookup T D C S E} {backed : BackedArray Ent} {n : Nat}
    {this t : BackedArrayFutIter} {r : Option (ItemFuture T D C S E)}
    (h : BackedArrayFutIter.nthWith aGet backed n this = .ok (r, t)) :
    t.pos = this.pos + (n + 1) ∧ (backed.len ≤ this.pos + n → r = none) := by
  unfold BackedArrayFutIter.nthWith at h
  obtain ⟨curPos, hcur, h⟩ := exec_bind_inv h
  obtain ⟨step, hstep, h⟩ := exec_bind_inv h
  obtain ⟨pos, hpos, h⟩ := exec_bind_inv h
  obtain rfl := usizeAdd_inv hcur
  obtain rfl := usizeAdd_inv hstep
  obtain rfl := usizeAdd_inv hpos
  by_cases hlt : this.pos + n < backed.len
  · rw [if_pos hlt] at h
    cases h
    exact ⟨rfl, fun hge => absurd hlt (Nat.not_lt.mpr hge)⟩
  · rw [if_neg hlt] at h
    cases h
    exact ⟨rfl, fun _ => rfl⟩

/-- **The position of an iterator of futures** moves by `n + 1`, whatever there is to yield. -/
theorem futIter_counts {backed : BackedArray Ent} (hlen : backed.len < usizeSize)
    (aGet : AsyncLookup T D C S E) :
    Counts (BackedArrayFutIter.hinted backed (BackedArrayFutIter.nthWith aGet backed)) backed.len false
      BackedArrayFutIter.pos (fun this => this.pos ≤ backed.len) fun _ => True where
  forget _ _ := trivial
  item this n _ hlt := by
    have hstep : usizeAdd n 1 = .ok (n + 1) := usizeAdd_ok (by omega)
    refine ⟨itemFuture aGet (this.pos + n), { pos := this.pos + (n + 1) }, ?_, ?_, rfl⟩
    · show (BackedArrayFutIter.nthWith aGet backed n this).toOption = _
      unfold BackedArrayFutIter.nthWith
      rw [usizeAdd_ok (by omega), exec_bind_ok, hstep, exec_bind_ok, usizeAdd_ok (by omega), exec_bind_ok,
        if_pos hlt]
      rfl
    · show this.pos + (n + 1) ≤ backed.len
      omega
  stay _ _ h := by cases h
  onward this n r t _ h := by
    have hpos := (futIter_nth_inv (toOption_inv h)).1
    exact ⟨trivial, by omega⟩
  leave this n r t _ _ h := by
    obtain ⟨hpos, hnone⟩ := futIter_nth_inv (toOption_inv h)
    exact ⟨by omega, hnone⟩
  hint this _ := remainingHint_eq backed.len this.pos

/-! ## The iterators over the array -/

/-- **`Fitting io e chunk`** — whenever a load of the entry succeeds, however often it has been loaded
before, it gives as many elements as `chunk` has. -/
def Fitting (io : Medium (List T) D C S E) (e : Chunk T D C) (chunk : List T) : Prop :=
  ∀ (before : List S) (s : S) (val : List T),
    ((before.foldl (fun e s => (e.load io s).2.1) e).load io s).1 = .ok val → val.length = chunk.length

variable {io : Medium (List T) D C S E}

theorem Fitting.load {e e' : Chunk T D C} {chunk : List T} (h : Fitting io e chunk)
    {r : Except E (List T)} {s s' : S} (hload : e.load io s = (r, e', s')) :
    Fitting io e' chunk ∧ ∀ val, r = .ok val → val.length = chunk.length := by
  constructor
  · intro before t val hval
    apply h (s :: before) t val
    rw [List.foldl_cons, hload]
    exact hval
  · intro val hval
    apply h [] s val
    rw [List.foldl_nil, hload]
    exact hval

/-- A chunk that comes to something, for good, fits what is as long. -/
theorem ComesTo.fitting {e : Chunk T D C} {piece : List (Except E T)} (h : ComesTo io e piece)
    {chunk : List T} (hlen : chunk.length = piece.length) : Fitting io e chunk := by
  obtain ⟨out, hsteady, hshows⟩ := h
  intro before s val hval
  obtain rfl : out = .ok val := (hsteady before s).symm.trans hval
  rw [hlen, show piece = val.map .ok from hshows, List.length_map]

section Step

variable {arr : BackedArray (Chunk T D C)} {chunks : List (List T)} {it : BackedArrayIter} {n : Nat}
  {lookup : Lookup T D C S E}

/-- At a location inside an entry the lookup comes back with the element, or with the error of the
load. -/
theorem Looks.yields (hlook : Looks io lookup) {loc : ArrayLoc} {e : Chunk T D C} {chunk : List T}
    (he : arr.entries[loc.entryIdx]? = some e) (hfit : Fitting io e chunk)
    (hlt : loc.insideEntryIdx < chunk.length) (pos : Nat) (s : S) :
    ∃ (x : Except E T) (e' : Chunk T D C) (s' : S), lookup arr loc pos s =
        .ok (x.mapError .coder, arr.setEntry loc.entryIdx e', s') ∧ Fitting io e' chunk := by
  rcases hload : e.load io s with ⟨r, e', s'⟩
  obtain ⟨hfit', hlen⟩ := hfit.load hload
  cases r with
  | error err => exact ⟨.error err, e', s', hlook.failure he hload, hfit'⟩
  | ok val =>
      have hin : loc.insideEntryIdx < val.length := by
        rw [hlen val rfl]
        exact hlt
      exact ⟨.ok val[loc.insideEntryIdx], e', s',
        hlook.element he hload (List.getElem?_eq_getElem hin), hfit'⟩

/-- The location of an iterator that has not run past the length is not past its position. -/
theorem Reached.inside_le {widths : List Nat} {p : Nat} (hr : Reached widths it p) :
    it.loc.insideEntryIdx ≤ it.pos := by
  have hat := hr.place_eq
  unfold place at hat
  omega

/-- **A call before the end** yields an item, and moves the position by `n + 1`. -/
theorem nthWith_item (hlook : Looks io lookup) (hwf : WellFormed (Fitting io) arr chunks)
    (hlen : chunks.flatten.length < usizeSize) (hr : Reached (chunks.map List.length) it it.pos)
    (hlt : it.pos + n < chunks.flatten.length) (s : S) :
    ∃ x st, BackedArrayIter.nthWith usizeAdd lookup n (arr, it, s) = .ok (some x, st) ∧
      WellFormed (Fitting io) st.1 chunks ∧ Reached (chunks.map List.length) st.2.1 st.2.1.pos ∧
        st.2.1.pos = it.pos + n + 1 := by
  have hinside := hr.inside_le
  obtain ⟨done, it₁, hadv, hpos₁, hr₁, hrests⟩ := advance_spec usizeAdd hwf.keys hr (n := n)
    (usizeAdd_ok (by omega)) (usizeAdd_ok (by omega))
  rw [← hpos₁] at hr₁
  rcases hrests with ⟨hw, hwlt⟩ | hend
  · obtain ⟨chunk, hloc⟩ := hr₁.locates hw hwlt
    obtain ⟨e, he, hfit⟩ := hwf.entry hloc.chunk_eq
    obtain ⟨x, e', s', hlooked, hfit'⟩ := hlook.yields he hfit hloc.inside_lt it₁.pos s
    have hwf' := hwf.setEntry hloc.chunk_eq hfit'
    have hinside₁ := hr₁.inside_le
    obtain ⟨done', it₂, hadv', hpos₂, hr₂, -⟩ := advance_spec usizeAdd hwf'.keys hr₁ (n := 1)
      (usizeAdd_ok (by omega)) (usizeAdd_ok (by omega))
    rw [← hpos₂] at hr₂
    have hin : ¬arr.keyEnds.length ≤ it₁.loc.entryIdx := by
      rw [hwf.keys.ends_length]
      have := (List.getElem?_eq_some_iff.mp hw).1
      omega
    have hgoal : ∃ x, BackedArrayIter.nthWith usizeAdd lookup n (arr, it, s) =
        .ok (some x, arr.setEntry it₁.loc.entryIdx e', it₂, s') := by
      unfold BackedArrayIter.nthWith
      simp only [hadv, exec_bind_ok, if_neg hin, hlooked]
      cases x with
      | ok y => exact ⟨.ok y, by simp only [Except.mapError, hadv', exec_bind_ok, exec_pure]⟩
      | error err => exact ⟨.error err, by simp only [Except.mapError, hadv', exec_bind_ok, exec_pure]⟩
    obtain ⟨x, hx⟩ := hgoal
    exact ⟨x, _, hx, hwf', hr₂, by rw [hpos₂, hpos₁]⟩
  · have hpast := (hr₁.past hend).1
    rw [← List.length_flatten] at hpast
    omega

/-- **A call exactly at the end** yields nothing, and leaves the position there. -/
theorem nthWith_stay (hwf : WellFormed (Fitting io) arr chunks)
    (hlen : chunks.flatten.length < usizeSize) (hr : Reached (chunks.map List.length) it it.pos)
    (hend : it.pos + n = chunks.flatten.length) (s : S) :
    ∃ it', BackedArrayIter.nthWith usizeAdd lookup n (arr, it, s) = .ok (none, arr, it', s) ∧
      Reached (chunks.map List.length) it' it'.pos ∧ it'.pos = chunks.flatten.length := by
  have hinside := hr.inside_le
  obtain ⟨done, it₁, hadv, hpos₁, hr₁, hrests⟩ := advance_spec usizeAdd hwf.keys hr (n := n)
    (usizeAdd_ok (by omega)) (usizeAdd_ok (by omega))
  rw [← hpos₁] at hr₁
  rcases hrests with ⟨hw, hwlt⟩ | hpast
  · obtain ⟨chunk, hloc⟩ := hr₁.locates hw hwlt
    obtain ⟨x, -, hx⟩ := hloc.element
    have := (List.getElem?_eq_some_iff.mp hx).1
    omega
  · refine ⟨it₁, ?_, hr₁, hpos₁.trans hend⟩
    unfold BackedArrayIter.nthWith
    simp only [hadv, exec_bind_ok, exec_pure]

/-- `advance` adds to the position. -/
theorem advance_pos {done : Option Unit} {it' : BackedArrayIter}
    (h : BackedArrayIter.advance usizeAdd arr it n = .ok (done, it')) : it'.pos = it.pos + n := by
  unfold BackedArrayIter.advance at h
  obtain ⟨pos, hpos, h⟩ := exec_bind_inv h
  obtain ⟨inside, -, h⟩ := exec_bind_inv h
  obtain ⟨⟨done', loc⟩, -, h⟩ := exec_bind_inv h
  cases h
  exact usizeAdd_inv hpos

/-- A call that returned has moved the position by `n` or more. -/
theorem nthWith_onward {s s' : S} {it' : BackedArrayIter} {arr' : BackedArray (Chunk T D C)}
    {r : Option (Except E T)}
    (h : BackedArrayIter.nthWith usizeAdd lookup n (arr, it, s) = .ok (r, arr', it', s')) :
    it.pos + n ≤ it'.pos := by
  unfold BackedArrayIter.nthWith at h
  obtain ⟨⟨done, it₁⟩, hadv, h⟩ := exec_bind_inv h
  have hpos := advance_pos hadv
  rcases done with _ | _
  · cases h
    exact Nat.le_of_eq hpos.symm
  · simp only at h
    split at h
    · cases h
      exact Nat.le_of_eq hpos.symm
    · obtain ⟨⟨res, arr₁, s₁⟩, -, h⟩ := exec_bind_inv h
      -- an item or an error of the load moves the position once more
      have hmoved : ∀ {done' : Option Unit} {it₂ : BackedArrayIter},
          BackedArrayIter.advance usizeAdd arr₁ it₁ 1 = .ok (done', it₂) → it.pos + n ≤ it₂.pos := by
        intro done' it₂ hadv'
        have := advance_pos hadv'
        omega
      rcases res with (_ | err) | val
      · cases h
        exact Nat.le_of_eq hpos.symm
      · obtain ⟨⟨done', it₂⟩, hadv', h⟩ := exec_bind_inv h
        cases h
        exact hmoved hadv'
      · obtain ⟨⟨done', it₂⟩, hadv', h⟩ := exec_bind_inv h
        cases h
        exact hmoved hadv'

end Step

/-- A read keeps the length. -/
theorem LoadsOne.len {arr arr' : BackedArray (Chunk T D C)} (h : LoadsOne io arr arr') :
    arr'.len = arr.len := by
  cases h with
  | none => rfl
  | load he hload => rfl

/-- **The position of an iterator over the array**, whichever lookup it uses. -/
theorem iter_counts {lookup : Lookup T D C S E} (hlook : Looks io lookup)
    (hone : ∀ {arr arr' : BackedArray (Chunk T D C)} {loc pos s s'} {r : Except (BackedArrayError E) T},
      lookup arr loc pos s = .ok (r, arr', s') → LoadsOne io arr arr')
    {chunks : List (List T)} (hlen : chunks.flatten.length < usizeSize)
    {hinted : Hinted (Iteration T D C S) (Except E T)}
    (hnth : ∀ n st, hinted.nth n st = (BackedArrayIter.nthWith usizeAdd lookup n st).toOption)
    (hhint : ∀ st, hinted.sizeHint st = (remainingHint st.1.len st.2.1.pos).toOption) :
    Counts hinted chunks.flatten.length true (fun st => st.2.1.pos)
      (fun st => WellFormed (Fitting io) st.1 chunks ∧
        Reached (chunks.map List.length) st.2.1 st.2.1.pos)
      fun st => st.1.len = chunks.flatten.length where
  forget st h := h.1.len_eq
  item := by
    rintro ⟨arr, it, s⟩ n ⟨hwf, hr⟩ hlt
    obtain ⟨x, st, hcall, hwf', hr', hpos⟩ := nthWith_item hlook hwf hlen hr hlt s
    exact ⟨x, st, by rw [hnth, hcall]; rfl, ⟨hwf', hr'⟩, hpos⟩
  stay := by
    rintro ⟨arr, it, s⟩ n - ⟨hwf, hr⟩ hend
    have hstay : ∃ it', BackedArrayIter.nthWith usizeAdd lookup n (arr, it, s) = .ok (none, arr, it', s) ∧
        Reached (chunks.map List.length) it' it'.pos ∧ it'.pos = chunks.flatten.length :=
      nthWith_stay hwf hlen hr hend s
    obtain ⟨it', hcall, hr', hpos⟩ := hstay
    exact ⟨(arr, it', s), by rw [hnth, hcall]; rfl, ⟨hwf, hr'⟩, hpos⟩
  onward := by
    rintro ⟨arr, it, s⟩ n r ⟨arr', it', s'⟩ hst h
    rw [hnth] at h
    have hcall := toOption_inv h
    exact ⟨(nthWith_loadsOne hone hcall).len.trans hst, nthWith_onward hcall⟩
  leave st n r t h := by cases h
  hint st hst := by
    rw [hhint, remainingHint_eq, hst]

/-! ## The mutable iterators -/

namespace Iterated

variable {arr : BackedArray (Chunk T D C)} {chunks : List (List T)} {s : Iterated T D C S E}

/-- What is asked of the load of a chunk: if it succeeds, it gives as many elements. -/
def FitsLength (out : Except E (List T)) (chunk : List T) : Prop :=
  ∀ val, out = .ok val → val.length = chunk.length

/-- The position of the iterator. -/
def position (s : Iterated T D C S E) : Nat :=
  match s.iter with
  | some it => it.pos
  | none => 0

/-- Taking an element leaves the iterator. -/
theorem takeElement_iter (access : Access) (innerPos : Nat) :
    Meets (takeElement access innerPos) s (onSuccess fun _ t => t.iter = s.iter) := by
  unfold takeElement
  rw [meets_get_bind]
  apply (ofExec_onSuccess _).seq
  rintro last _ ⟨-, rfl⟩
  rcases last with ⟨entry, err | flag⟩
  · exact rfl
  · apply (ofExec_onSuccess _).seq
    rintro chunk _ ⟨-, rfl⟩
    apply (ofExec_onSuccess _).seq
    rintro m _ ⟨-, rfl⟩
    rw [meets_modify_bind]
    apply (ofExec_onSuccess _).seq
    rintro val _ ⟨-, rfl⟩
    apply (ofExec_onSuccess _).seq
    rintro x _ ⟨-, rfl⟩
    rcases x with _ | x
    · exact rfl
    · exact rfl

/-- A call that returned has moved the position by `n` or more. -/
theorem nth_onward (access : Access) (it : BackedArrayIterMut) (n : Nat) :
    Meets (nth io access it n) s (onSuccess fun _ t =>
      ∃ it', t.iter = some it' ∧ it'.len = it.len ∧ it.pos + n ≤ it'.pos) := by
  unfold nth
  apply (ofExec_onSuccess _).seq
  rintro pos _ ⟨hpos, rfl⟩
  obtain rfl := usizeAdd_inv hpos
  rcases hkeys : it.keys.dropWhile fun key => key.2 ≤ it.pos + n with _ | ⟨key, keys⟩
  · simp only [hkeys]
    exact ⟨_, rfl, rfl, Nat.le_refl _⟩
  · simp only [hkeys]
    apply (ofExec_onSuccess _).seq
    rintro innerPos _ ⟨-, rfl⟩
    apply (ofExec_onSuccess _).seq
    rintro nextPos _ ⟨hnext, rfl⟩
    obtain rfl := usizeAdd_inv hnext
    rw [meets_modify_bind]
    have htake : ∀ (u : Iterated T D C S E) (it' : BackedArrayIterMut), u.iter = some it' →
        it'.len = it.len → it'.pos = it.pos + n + 1 →
        Meets (takeElement access innerPos) u (onSuccess fun _ t =>
          ∃ it', t.iter = some it' ∧ it'.len = it.len ∧ it.pos + n ≤ it'.pos) := by
      intro u it' hiter hlen hpos
      refine (takeElement_iter access innerPos).imp (fun _ t ht => ?_) fun _ he => he
      exact ⟨it', ht.trans hiter, hlen, by omega⟩
    by_cases hstep : 0 < it.keys.length - (key :: keys).length
    · simp only [if_pos hstep]
      rw [meets_get_bind]
      apply (ofExec_onSuccess _).seq
      rintro chunk _ ⟨-, rfl⟩
      rw [meets_modify_bind]
      exact htake _ _ rfl rfl rfl
    · simp only [if_neg hstep]
      exact htake _ _ rfl rfl rfl

/-- What a call before or at the end leaves. -/
theorem nth_aligned (hwf : WellFormed (Fitting io) arr chunks) (hlen : chunks.flatten.length < usizeSize)
    {it : BackedArrayIterMut} {k : Nat} {qs : List Nat} {n : Nat}
    (h : Aligned FitsLength arr chunks s it k it.pos qs) (hle : it.pos + n ≤ chunks.flatten.length)
    (access : Access) :
    ∃ r t it' k' qs', nth io access it n s = .ok (.ok r, t) ∧
      Aligned FitsLength arr chunks t it' k' it'.pos qs' ∧
        (it.pos + n < chunks.flatten.length → r.isSome ∧ it'.pos = it.pos + n + 1) ∧
          (it.pos + n = chunks.flatten.length → r = none ∧ it'.pos = chunks.flatten.length) := by
  have hloads : WellFormed (LoadsAs FitsLength io) arr chunks :=
    ⟨hwf.keys, hwf.entries.imp fun _ _ hfit world val hval => hfit [] world val hval⟩
  have hcall := nthWith_steps (fun val chunk hfit => hfit val rfl) hloads h
    (usizeAdd_ok (b := n) (by omega)) (fun hlt => usizeAdd_ok (by omega)) access
  rw [nthWith_usizeAdd] at hcall
  obtain ⟨r, t, hrun⟩ := hcall.returns trivial
  obtain ⟨hgiven, ⟨it', k', qs', haligned, hpos⟩, -, -⟩ := hcall.ok hrun
  refine ⟨r, t, it', k', qs', hrun, { haligned with pos := Or.inl rfl }, fun hlt => ?_, fun hend => ?_⟩
  · rw [if_pos hlt] at hgiven hpos
    refine ⟨?_, hpos⟩
    cases hgiven with
    | element hn hplaced => rfl
    | failure hloc he => rfl
  · rw [if_neg (by omega)] at hgiven hpos
    refine ⟨?_, hpos.trans hend⟩
    cases hgiven with
    | past => rfl

/-- A call of an iterator that is there, seen from the hints. -/
theorem hinted_nth {access : Access} {n : Nat} {r : Option (Except E Nat)} {t : Iterated T D C S E} :
    (Iterated.hinted io access).nth n s = some (r, t) ↔
      ∃ it, s.iter = some it ∧ nth io access it n s = .ok (.ok r, t) := by
  unfold Iterated.hinted
  simp only
  rcases hiter : s.iter with _ | it
  · simp
  · rcases hcall : nth io access it n s with p | ⟨err | x, u⟩
    · simp [hcall]
    · simp [hcall]
    · simp [hcall]

/-- **The position of the mutable iterators.** -/
theorem iterMut_counts (access : Access) (hwf : WellFormed (Fitting io) arr chunks)
    (hlen : chunks.flatten.length < usizeSize) :
    Counts (Iterated.hinted io access) chunks.flatten.length true position
      (fun s => ∃ it k qs, Aligned FitsLength arr chunks s it k it.pos qs)
      fun s => ∃ it, s.iter = some it ∧ it.len = chunks.flatten.length where
  forget := by
    rintro s ⟨it, k, qs, h⟩
    exact ⟨it, h.iter, h.len.trans hwf.len_eq⟩
  item := by
    rintro s n ⟨it, k, qs, h⟩ hlt
    have hpos : position s = it.pos := by
      unfold position
      rw [h.iter]
    rw [hpos] at hlt ⊢
    obtain ⟨r, t, it', k', qs', hrun, haligned, hin, -⟩ := nth_aligned hwf hlen h (Nat.le_of_lt hlt) access
    obtain ⟨hsome, hpos'⟩ := hin hlt
    obtain ⟨x, rfl⟩ := Option.isSome_iff_exists.mp hsome
    refine ⟨x, t, hinted_nth.mpr ⟨it, h.iter, hrun⟩, ⟨it', k', qs', haligned⟩, ?_⟩
    unfold position
    rw [haligned.iter]
    exact hpos'
  stay := by
    rintro s n - ⟨it, k, qs, h⟩ hend
    have hpos : position s = it.pos := by
      unfold position
      rw [h.iter]
    rw [hpos] at hend
    obtain ⟨r, t, it', k', qs', hrun, haligned, -, hout⟩ := nth_aligned hwf hlen h (Nat.le_of_eq hend) access
    obtain ⟨rfl, hpos'⟩ := hout hend
    refine ⟨t, hinted_nth.mpr ⟨it, h.iter, hrun⟩, ⟨it', k', qs', haligned⟩, ?_⟩
    unfold position
    rw [haligned.iter]
    exact hpos'
  onward := by
    rintro s n r t ⟨it, hiter, hlen'⟩ h
    obtain ⟨it₁, hiter₁, hrun⟩ := hinted_nth.mp h
    obtain rfl : it = it₁ := Option.some.inj (hiter.symm.trans hiter₁)
    obtain ⟨it', hiter', hlen'', hle⟩ := (nth_onward access it n).ok hrun
    refine ⟨⟨it', hiter', hlen''.trans hlen'⟩, ?_⟩
    unfold position
    rw [hiter, hiter']
    exact hle
  leave s n r t h := by cases h
  hint := by
    rintro s ⟨it, hiter, hlen'⟩
    unfold Iterated.hinted position
    simp only [hiter]
    rw [BackedArrayIterMut.sizeHint, remainingHint_eq, hlen']

end Iterated

/-! ## The exact condition -/

/-- **`HintsAfter it s cs`** — all calls of the run return, and then the hint returns, and is exact. -/
def HintsAfter {σ α : Type} (it : Hinted σ α) (s : σ) (cs : List Call) : Prop :=
  ∃ t, it.after cs s = some t ∧ it.Exact t

/-- The hints of the iterators of futures. -/
theorem futIter_hints {backed : BackedArray Ent} (hlen : backed.len < usizeSize)
    (aGet : AsyncLookup T D C S E) (cs : List Call) :
    HintsAfter (BackedArrayFutIter.hinted backed (BackedArrayFutIter.nthWith aGet backed)) .new cs ↔
      Within false backed.len cs :=
  (futIter_counts hlen aGet).exact_iff cs (s := .new) (Nat.zero_le _) (Nat.zero_le _)

/-- **When the size hint is exact.**  On a well-formed array, for every run of `next` and `nth(n)` on a new
iterator: none of its additions and subtractions overflows, and `size_hint` is then the number of items
that are left, if and only if every call of the run found an item, or (not for the iterators of futures)
was made exactly at the end. -/
theorem sizeHint_exact_iff (io : Medium (List T) D C S E) (arr : BackedArray (Chunk T D C))
    (chunks : List (List T)) (hwf : WellFormed (Fitting io) arr chunks)
    (hkeys : ∀ key ∈ arr.keyEnds, key < usizeSize) (cs : List Call) (s : S) :
    (HintsAfter (BackedArrayIter.hinted io) (arr, .new, s) cs ↔ Within true arr.len cs) ∧
    (HintsAfter (BackedArrayGenericIter.hinted io) (arr, .new, s) cs ↔ Within true arr.len cs) ∧
    (∀ access, HintsAfter (Iterated.hinted io access) (Iterated.iterMut io arr s) cs ↔
      Within true arr.len cs) ∧
    (HintsAfter (BackedArrayFutIter.hinted arr (BackedArrayFutIter.nth io arr)) .new cs ↔
      Within false arr.len cs) ∧
    (HintsAfter (BackedArrayFutIter.hinted arr (BackedArrayFutIterSend.nth io arr)) .new cs ↔
      Within false arr.len cs) ∧
    (HintsAfter (BackedArrayFutIter.hinted arr (BackedArrayFutIterGeneric.nth io arr)) .new cs ↔
      Within false arr.len cs) ∧
    (HintsAfter (BackedArrayFutIter.hinted arr (BackedArrayFutIterGenericSend.nth io arr)) .new cs ↔
      Within false arr.len cs) := by
  have hlen : arr.len < usizeSize := by
    unfold BackedArray.len
    rcases hlast : arr.keyEnds.getLast? with _ | key
    · exact Nat.two_pow_pos 64
    · exact hkeys key (List.mem_of_getLast? hlast)
  have hflat : chunks.flatten.length < usizeSize := hwf.len_eq ▸ hlen
  refine ⟨?_, ?_, fun access => ?_, futIter_hints hlen _ cs, futIter_hints hlen _ cs,
    futIter_hints hlen _ cs, futIter_hints hlen _ cs⟩
  · rw [hwf.len_eq]
    exact (iter_counts (getLoc_looks io) getLoc_loadsOne hflat (fun _ _ => rfl) fun _ => rfl).exact_iff cs
      (s := (arr, .new, s)) ⟨hwf, reached_new _⟩ (Nat.zero_le _)
  · rw [hwf.len_eq]
    exact (iter_counts (genericGetLoc_looks io) genericGetLoc_loadsOne hflat (fun _ _ => rfl)
      fun _ => rfl).exact_iff cs (s := (arr, .new, s)) ⟨hwf, reached_new _⟩ (Nat.zero_le _)
  · rw [hwf.len_eq]
    have hloads : WellFormed (Iterated.LoadsAs Iterated.FitsLength io) arr chunks :=
      ⟨hwf.keys, hwf.entries.imp fun _ _ hfit world val hval => hfit [] world val hval⟩
    obtain ⟨it, haligned, hpos, -⟩ := Iterated.iterMut_aligned hloads s
    have hnew : Iterated.position (Iterated.iterMut io arr s) = 0 := by
      unfold Iterated.position
      rw [haligned.iter]
      exact hpos
    have hexact := (Iterated.iterMut_counts access hwf hflat).exact_iff cs
      (s := Iterated.iterMut io arr s) ⟨it, 0, [], { haligned with pos := Or.inl rfl }⟩
      (hnew ▸ Nat.zero_le _)
    rw [hnew] at hexact
    exact hexact

/-- The runs that come to the end of the sample, and stop there or one before it. -/
theorem sizeHint_exact_sample :
    Within true sampleArray.len [.nth 1, .next, .nth 1, .next] ∧
      HintsAfter (BackedArrayIter.hinted (quiet (List Nat))) (sampleArray, .new, ())
        [.nth 1, .next, .nth 1, .next] ∧
      ¬HintsAfter (BackedArrayFutIter.hinted sampleArray (BackedArrayFutIter.nth (quiet (List Nat)) sampleArray))
        .new [.nth 1, .next, .nth 1, .next] := by
  have hwf : WellFormed (Fitting (quiet (List Nat))) sampleArray [[], [10, 11], [], [0, 0], [12]] :=
    ⟨consecutive_iff.mpr ⟨rfl, rfl⟩,
      .cons ((quiet_comesTo []).fitting rfl) (.cons ((quiet_comesTo [10, 11]).fitting rfl)
        (.cons ((quiet_comesTo []).fitting rfl) (.cons ((quiet_fails 2).fitting rfl)
          (.cons ((quiet_comesTo [12]).fitting rfl) .nil))))⟩
  obtain ⟨hiter, -, -, hfut, -⟩ := sizeHint_exact_iff (quiet (List Nat)) sampleArray _ hwf (by decide)
    [.nth 1, .next, .nth 1, .next] ()
  exact ⟨by decide, hiter.mpr (by decide), fun h => absurd (hfut.mp h) (by decide)⟩

/-- A run whose hint does not return is not exact. -/
theorem not_hintsAfter {σ α : Type} {it : Hinted σ α} {s : σ} {cs : List Call}
    (h : (it.after cs s).bind it.sizeHint = none) : ¬HintsAfter it s cs := by
  rintro ⟨t, ht, r, hr, -⟩
  rw [ht, Option.bind_some, hr] at h
  cases h

/-- On an empty array `nth(1)` returns `None`, and `size_hint` overflows; on the sample the mutable
iterators overflow behind `nth(7)`, and the iterators of futures behind a `next` at the end. -/
theorem sizeHint_overflows :
    (BackedArrayIter.nth usizeAdd (quiet (List Nat)) 1 (.new, .new, ()) =
        .ok (none, .new, { pos := 1, loc := { entryIdx := 0, insideEntryIdx := 1 } }, ()) ∧
      BackedArrayIter.sizeHint (.new : BackedArray (Chunk Nat (Option (List Nat)) Unit))
        { pos := 1, loc := { entryIdx := 0, insideEntryIdx := 1 } } = .error .arithmeticOverflow ∧
      ¬HintsAfter (BackedArrayIter.hinted (quiet (List Nat))) (.new, .new, ()) [.nth 1]) ∧
    ¬HintsAfter (Iterated.hinted (quiet (List Nat)) .slice)
      (Iterated.iterMut (quiet (List Nat)) sampleArray ()) [.nth 7] ∧
    ¬HintsAfter (BackedArrayFutIter.hinted sampleArray (BackedArrayFutIter.nth (quiet (List Nat)) sampleArray))
      .new [.nth 4, .next] := by
  have hnth : BackedArrayIter.nth usizeAdd (quiet (List Nat)) 1 (.new, .new, ()) =
      .ok (none, .new, { pos := 1, loc := { entryIdx := 0, insideEntryIdx := 1 } }, ()) := by
    unfold BackedArrayIter.nth BackedArrayIter.nthWith BackedArrayIter.advance
    simp only [BackedArrayIter.new, usizeAdd_ok (show 0 + 1 < usizeSize by decide), exec_bind_ok]
    rw [advanceLoop_past rfl]
    rfl
  have hcall : (BackedArrayIter.hinted (quiet (List Nat))).nth 1 (.new, .new, ()) =
      some (none, .new, { pos := 1, loc := { entryIdx := 0, insideEntryIdx := 1 } }, ()) := by
    show (BackedArrayIter.nth usizeAdd (quiet (List Nat)) 1 (.new, .new, ())).toOption = _
    rw [hnth]
    rfl
  refine ⟨⟨hnth, rfl, not_hintsAfter ?_⟩, not_hintsAfter (by decide), not_hintsAfter (by decide)⟩
  simp only [Hinted.after, Call.skip, hcall]
  rfl

end BackedData.Array
