/-
# BackedData.Array.IterMutDurable — what is on the disks when the iterator and its handles are gone

A chunk is `InSync` as long as its disk decodes to its memory, or one of the handles opened on it has its
flag up; a handle without holders has its flag down.  Flushes and drops keep this whatever their order is,
and handing out an element raises the flag.  An edit goes through the reference of a counted handle and
leaves the flag as it is: `Tracked` says when that does no harm, and `iterMut_durable` that a run all of
whose edits are tracked ends with every chunk on its disk.
-/
import BackedData.Array.IterMut
import BackedData.Entry.Spec
import BackedData.Logic.Trace

namespace BackedData.Array

open Logic.Outcome
open Logic.Stateful
open Logic.Trace
open BackedData.Entry

set_option autoImplicit false

namespace Iterated

variable {T D C S E : Type} {io : Medium (List T) D C S E} {stored : C → D → Option (List T)}
variable {s t : Iterated T D C S E} {access : Access} {c : Nat}

/-! ## Chunks in sync -/

/-- The flag of handle `c`, opened on this entry, is up. -/
def Raised (s : Iterated T D C S E) (c entry : Nat) : Prop :=
  s.handles[c]? = some { entry, handle := .ok true }

/-- The disk of an entry decodes to its memory. -/
def OnDisk (stored : C → D → Option (List T)) (chunk : Chunk T D C) : Prop :=
  ∀ v, chunk.value = some v → chunk.storedValue stored = some v

/-- Every chunk is on its disk, or marked. -/
def Marked (stored : C → D → Option (List T)) (s : Iterated T D C S E) : Prop :=
  ∀ i chunk, s.chunks[i]? = some chunk → OnDisk stored chunk ∨ ∃ c, s.Raised c i

/-- **The invariant.**  Every chunk is on its disk or marked, and a mark has a holder. -/
structure InSync (stored : C → D → Option (List T)) (s : Iterated T D C S E) : Prop where
  marked : Marked stored s
  held : ∀ c entry, s.strongCount c = 0 → ¬s.Raised c entry

/-- Between two states flags have only been lowered, and no holder has come or gone. -/
structure Quieter (s t : Iterated T D C S E) : Prop where
  iter : t.iter = s.iter
  counted : t.counted = s.counted
  length : t.handles.length = s.handles.length
  raised : ∀ c entry, t.Raised c entry → s.Raised c entry

theorem Quieter.refl (s : Iterated T D C S E) : Quieter s s := ⟨rfl, rfl, rfl, fun _ _ h => h⟩

theorem Quieter.trans {u : Iterated T D C S E} (h₁ : Quieter s t) (h₂ : Quieter t u) : Quieter s u :=
  ⟨h₂.iter.trans h₁.iter, h₂.counted.trans h₁.counted, h₂.length.trans h₁.length,
    fun c entry h => h₁.raised c entry (h₂.raised c entry h)⟩

theorem Quieter.strongCount (h : Quieter s t) (c : Nat) : t.strongCount c = s.strongCount c := by
  unfold Iterated.strongCount
  rw [h.iter, h.counted]

/-- Lowering flags keeps the invariant, if the chunks stay marked. -/
theorem InSync.quieter (h : InSync stored s) (hm : Marked stored t) (hq : Quieter s t) :
    InSync stored t := by
  refine ⟨hm, fun c entry hc hr => h.held c entry ?_ (hq.raised c entry hr)⟩
  rw [← hq.strongCount c]
  exact hc

/-- **A call on a `BackedEntryMut`** leaves its chunk on its disk, or marked. -/
theorem marked_put (h : Marked stored s) {entry : Nat} {flag : Bool}
    (hc : s.handles[c]? = some { entry, handle := .ok flag }) {m : BackedEntryMut (List T) D C}
    (hm : OnDisk stored m.entry ∨ m.modified = true) (world : S) :
    Marked stored (s.put c entry m world) := by
  have hlt : c < s.handles.length := (List.getElem?_eq_some_iff.mp hc).1
  intro i chunk hi
  by_cases hie : entry = i
  · subst hie
    have hchunk : chunk = m.entry := by
      have hset : (s.chunks.set entry m.entry)[entry]? = some chunk := hi
      rw [List.getElem?_set_self'] at hset
      obtain ⟨_, -, heq⟩ := Option.map_eq_some_iff.mp hset
      exact heq.symm
    rcases hm with hm | hm
    · exact Or.inl (hchunk ▸ hm)
    · refine Or.inr ⟨c, ?_⟩
      show (s.handles.set c _)[c]? = _
      rw [List.getElem?_set_self hlt, hm]
  · have hold : s.chunks[i]? = some chunk := by
      have hset : (s.chunks.set entry m.entry)[i]? = some chunk := hi
      rwa [List.getElem?_set_ne hie] at hset
    rcases h i chunk hold with hd | ⟨c', hr⟩
    · exact Or.inl hd
    · refine Or.inr ⟨c', ?_⟩
      have hne : c ≠ c' := by
        intro heq
        subst heq
        have hsame := Option.some.inj (hc.symm.trans hr)
        exact hie (congrArg EntryHandle.entry hsame)
      show (s.handles.set c _)[c']? = _
      rw [List.getElem?_set_ne hne]
      exact hr

/-- Such a call that lowers the flag, or leaves it down. -/
theorem quieter_put {entry : Nat} {flag : Bool}
    (hc : s.handles[c]? = some { entry, handle := .ok flag }) {m : BackedEntryMut (List T) D C}
    (hm : m.modified = false) (world : S) :
    Quieter s (s.put c entry m world) ∧ ∀ e, ¬(s.put c entry m world).Raised c e := by
  have hlt : c < s.handles.length := (List.getElem?_eq_some_iff.mp hc).1
  have hself : (s.put c entry m world).handles[c]? = some { entry, handle := .ok false } := by
    show (s.handles.set c _)[c]? = _
    rw [List.getElem?_set_self hlt, hm]
  have hdown : ∀ e, ¬(s.put c entry m world).Raised c e := by
    intro e hr
    have heq : some ({ entry, handle := .ok false } : EntryHandle E) =
        some { entry := e, handle := .ok true } := hself.symm.trans hr
    cases heq
  refine ⟨⟨rfl, rfl, List.length_set, fun c' e hr => ?_⟩, hdown⟩
  by_cases hcc : c = c'
  · subst hcc
    exact absurd hr (hdown e)
  · have hset : (s.handles.set c _)[c']? = _ := hr
    rwa [List.getElem?_set_ne hcc] at hset

/-! ## Flushes and drops -/

/-- A flush that succeeds lowers the flag, and leaves the chunk on its disk if the flag was up. -/
theorem flush_onDisk (hio : Lawful io stored) {m m' : BackedEntryMut (List T) D C} {w w' : S}
    (hm : m.modified = true) (h : m.flush io w = (.ok (), m', w')) :
    m'.modified = false ∧ OnDisk stored m'.entry := by
  rcases hv : m.entry.value with _ | v
  · -- nothing is loaded, and nothing is written
    have hupdate : m.entry.update io w = (.ok (), m.entry, w) := by
      unfold BackedEntry.update
      rw [hv]
    unfold BackedEntryMut.flush at h
    rw [if_pos hm, hupdate] at h
    cases h
    refine ⟨rfl, fun v hval => ?_⟩
    rw [hv] at hval
    cases hval
  · obtain ⟨hflag, hval, hst⟩ := hio.flush_ok hm hv h
    refine ⟨hflag, fun x hx => ?_⟩
    rw [hval] at hx
    cases hx
    exact hst

/-- Putting back what was taken out changes nothing. -/
theorem put_same {entry : Nat} {flag : Bool} {chunk : Chunk T D C}
    (hc : s.handles[c]? = some { entry, handle := .ok flag }) (hchunk : s.chunks[entry]? = some chunk) :
    s.put c entry { entry := chunk, modified := flag } s.world = s := by
  obtain ⟨hlt, hget⟩ := List.getElem?_eq_some_iff.mp hc
  obtain ⟨hlt', hget'⟩ := List.getElem?_eq_some_iff.mp hchunk
  unfold put
  rw [← hget, ← hget', List.set_getElem_self, List.set_getElem_self]

/-- **`Lowers stored ok f`** — calls that keep the chunks marked, raise no flag, and leave a handle whose
number of holders is `ok` with its flag down. -/
def Lowers (stored : C → D → Option (List T)) (ok : Nat → Prop)
    (f : Nat → IteratedM T D C S E Unit) : Prop :=
  ∀ s c, Marked stored s → Meets (f c) s (onSuccess fun _ t =>
    Marked stored t ∧ Quieter s t ∧ (ok (s.strongCount c) → ∀ entry, ¬t.Raised c entry))

/-- A handle whose flag is down is left alone. -/
theorem lowers_self {p : Prop} (h : Marked stored s) (hdown : ∀ entry, ¬s.Raised c entry) :
    Marked stored s ∧ Quieter s s ∧ (p → ∀ entry, ¬s.Raised c entry) :=
  ⟨h, Quieter.refl s, fun _ => hdown⟩

/-- **Flushing** a handle lowers its flag. -/
theorem lowers_flushHandle (hio : Lawful io stored) :
    Lowers stored (fun _ => True) (flushHandle io : Nat → IteratedM T D C S E Unit) := by
  intro s c h
  unfold Meets flushHandle
  rcases hc : s.handles[c]? with _ | ⟨entry, err | flag⟩
  · exact lowers_self h fun e hr => by cases hc.symm.trans hr
  · exact lowers_self h fun e hr => by cases hc.symm.trans hr
  · simp only
    rcases hchunk : s.chunks[entry]? with _ | chunk
    · exact id
    · simp only
      rcases hf : ({ entry := chunk, modified := flag } : BackedEntryMut (List T) D C).flush io s.world
        with ⟨e | _, m, w⟩
      · exact ⟨id, trivial⟩
      · cases flag with
        | true =>
            obtain ⟨hflag, hdisk⟩ := flush_onDisk hio rfl hf
            have hq := quieter_put hc hflag w
            exact ⟨marked_put h hc (Or.inl hdisk) w, hq.1, fun _ => hq.2⟩
        | false =>
            rw [BackedEntryMut.flush_idle io rfl] at hf
            cases hf
            show Marked stored (s.put c entry { entry := chunk, modified := false } s.world) ∧ _
            rw [put_same hc hchunk]
            exact lowers_self h fun e hr => by cases hc.symm.trans hr

/-- The drop of a `BackedEntryMut` is a flush. -/
theorem lowers_dropEntry (hio : Lawful io stored) :
    Lowers stored (fun _ => True) (dropEntry io : Nat → IteratedM T D C S E Unit) := by
  intro s c h
  unfold Meets dropEntry
  rcases hc : s.handles[c]? with _ | ⟨entry, err | flag⟩
  · exact lowers_self h fun e hr => by cases hc.symm.trans hr
  · exact lowers_self h fun e hr => by cases hc.symm.trans hr
  · simp only
    rcases hchunk : s.chunks[entry]? with _ | chunk
    · exact id
    · simp only [BackedEntryMut.drop_eq]
      rcases hf : ({ entry := chunk, modified := flag } : BackedEntryMut (List T) D C).flush io s.world
        with ⟨e | _, m, w⟩
      · exact id
      · cases flag with
        | true =>
            obtain ⟨-, hdisk⟩ := flush_onDisk hio rfl hf
            have hm := marked_put h hc (m := ⟨m.entry, false⟩) (Or.inl hdisk) w
            have hq := quieter_put hc (m := ⟨m.entry, false⟩) rfl w
            exact ⟨hm, hq.1, fun _ => hq.2⟩
        | false =>
            rw [BackedEntryMut.flush_idle io rfl] at hf
            cases hf
            show Marked stored (s.put c entry { entry := chunk, modified := false } s.world) ∧ _
            rw [put_same hc hchunk]
            exact lowers_self h fun e hr => by cases hc.symm.trans hr

/-- `Drop` of an `Arc` that has one holder left. -/
theorem lowers_flushUnique (hio : Lawful io stored) :
    Lowers stored (· = 1) (flushUnique io : Nat → IteratedM T D C S E Unit) := by
  intro s c h
  unfold flushUnique
  rw [meets_get_bind]
  by_cases hone : s.strongCount c = 1
  · rw [if_pos hone]
    refine Meets.unwrapped ((lowers_flushHandle hio s c h).imp (fun _ t ht => ?_) fun _ hf => hf)
    exact ⟨ht.1, ht.2.1, fun _ => ht.2.2 trivial⟩
  · rw [if_neg hone]
    exact ⟨h, Quieter.refl s, fun hc => absurd hc hone⟩

/-- The release of an `Arc` that has no holder any more. -/
theorem lowers_release (hio : Lawful io stored) :
    Lowers stored (· = 0) (release io : Nat → IteratedM T D C S E Unit) := by
  intro s c h
  unfold release
  rw [meets_get_bind]
  by_cases hnone : s.strongCount c = 0
  · rw [if_pos hnone]
    refine (lowers_dropEntry hio s c h).imp (fun _ t ht => ?_) fun _ hf => hf
    exact ⟨ht.1, ht.2.1, fun _ => ht.2.2 trivial⟩
  · rw [if_neg hnone]
    exact ⟨h, Quieter.refl s, fun hc => absurd hc hnone⟩

/-- One such call after another. -/
theorem Lowers.forEach {ok : Nat → Prop} {f : Nat → IteratedM T D C S E Unit}
    (hf : Lowers stored ok f) (h : Marked stored s) (cs : List Nat) :
    Meets (Method.forEach f cs) s (onSuccess fun _ t =>
      Marked stored t ∧ Quieter s t ∧
        ∀ c ∈ cs, ok (s.strongCount c) → ∀ entry, ¬t.Raised c entry) := by
  induction cs generalizing s with
  | nil => exact ⟨h, Quieter.refl s, nofun⟩
  | cons c cs ih =>
      apply (hf s c h).seq
      intro _ t ht
      obtain ⟨hm, hq, hdown⟩ := ht
      refine (ih hm).imp (fun _ u hu => ?_) fun _ he => he
      obtain ⟨hmu, hqu, hdownu⟩ := hu
      refine ⟨hmu, hq.trans hqu, fun c' hc' hok entry hr => ?_⟩
      rcases List.mem_cons.mp hc' with rfl | hc'
      · exact hdown hok entry (hqu.raised _ _ hr)
      · exact hdownu c' hc' (by rw [hq.strongCount]; exact hok) entry hr

/-! ## What each act keeps -/

theorem flush_inSync (hio : Lawful io stored) (h : InSync stored s) :
    Meets (flush io) s (onSuccess fun _ t => InSync stored t) := by
  unfold flush
  rw [meets_get_bind]
  exact ((lowers_flushHandle hio).forEach h.marked _).imp
    (fun _ _ ht => h.quieter ht.1 ht.2.1) fun _ he => he

theorem flushCounted_inSync (hio : Lawful io stored) (h : InSync stored s) (k : CountedHandle) :
    Meets (flushCounted io k) s (onSuccess fun _ t => InSync stored t) :=
  (lowers_flushHandle hio s k.handle h.marked).imp (fun _ _ ht => h.quieter ht.1 ht.2.1) fun _ he => he

/-- Without a counted handle that is dropped, the others hold what they held. -/
theorem strongCount_drop {k : Nat} {h : CountedHandle} (hk : s.counted[k]? = some (some h)) (c : Nat) :
    ({ s with counted := s.counted.set k none } : Iterated T D C S E).strongCount c +
      (if h.handle = c then 1 else 0) = s.strongCount c := by
  obtain ⟨hlt, hget⟩ := List.getElem?_eq_some_iff.mp hk
  have hset := List.countP_set (p := holds c) (a := none) hlt
  have hnone : holds c none = false := rfl
  rw [hget, hnone] at hset
  unfold strongCount
  simp only [hset]
  by_cases hc : h.handle = c
  · have hholds : holds c (some h) = true := by
      unfold holds
      simpa using hc
    have hmem : some h ∈ s.counted := hget ▸ List.getElem_mem hlt
    have hpos : 0 < s.counted.countP (holds c) := List.countP_pos_iff.mpr ⟨_, hmem, hholds⟩
    rw [if_pos hc, hholds]
    simp only [if_true, Bool.false_eq_true, if_false]
    omega
  · have hother : holds c (some h) = false := by
      unfold holds
      simpa using hc
    rw [if_neg hc, hother]
    simp only [Bool.false_eq_true, if_false]
    omega

/-- **Dropping a counted handle**: its last holder has lowered the flag before it goes. -/
theorem dropCounted_inSync (hio : Lawful io stored) (h : InSync stored s) {k : Nat}
    {counted : CountedHandle} (hk : s.counted[k]? = some (some counted)) :
    Meets (dropCounted io k counted) s (onSuccess fun _ t => InSync stored t) := by
  unfold dropCounted
  apply (lowers_flushUnique hio s counted.handle h.marked).seq
  intro _ t ht
  obtain ⟨hm, hq, hdown⟩ := ht
  have hcount := fun c => strongCount_drop (s := t) (hq.counted ▸ hk) c
  generalize hu : ({ t with counted := t.counted.set k none } : Iterated T D C S E) = u at hcount
  have hmu : Marked stored u := by
    subst hu
    exact hm
  have hraised : ∀ c entry, u.Raised c entry → t.Raised c entry := by
    subst hu
    exact fun c entry hr => hr
  have hsync : InSync stored u := by
    refine ⟨hmu, fun c entry hc hr => ?_⟩
    have hsum := hcount c
    rw [hc, hq.strongCount] at hsum
    by_cases hthis : counted.handle = c
    · subst hthis
      rw [if_pos rfl] at hsum
      exact hdown hsum.symm entry (hraised _ _ hr)
    · rw [if_neg hthis] at hsum
      exact h.held c entry hsum.symm (hq.raised _ _ (hraised _ _ hr))
  show Meets (release io counted.handle) ({ t with counted := t.counted.set k none }) _
  rw [hu]
  exact (lowers_release hio u counted.handle hmu).imp (fun _ _ hv => hsync.quieter hv.1 hv.2.1)
    fun _ he => he

/-- **Dropping the iterator**: whatever it alone held has been flushed before. -/
theorem dropIter_inSync (hio : Lawful io stored) (h : InSync stored s) (hiter : s.iter.isSome) :
    Meets (dropIter io) s (onSuccess fun _ t => InSync stored t) := by
  unfold dropIter
  rw [meets_get_bind]
  apply ((lowers_flushUnique hio).forEach h.marked _).seq
  intro _ t ht
  obtain ⟨hm, hq, hdown⟩ := ht
  rw [meets_modify_bind]
  generalize hu : ({ t with iter := none } : Iterated T D C S E) = u
  have hmu : Marked stored u := by
    subst hu
    exact hm
  have hraised : ∀ c entry, u.Raised c entry → t.Raised c entry := by
    subst hu
    exact fun c entry hr => hr
  have hcount : ∀ c, u.strongCount c + 1 = s.strongCount c := by
    intro c
    subst hu
    rw [← hq.strongCount c]
    unfold strongCount
    rw [hq.iter, if_pos hiter]
    simp only [Option.isSome_none, Bool.false_eq_true, if_false]
    omega
  have hsync : InSync stored u := by
    refine ⟨hmu, fun c entry hc hr => ?_⟩
    have hone : s.strongCount c = 1 := by
      rw [← hcount c, hc]
    have hlt : c < s.handles.length := by
      have hget := hq.raised c entry (hraised c entry hr)
      exact (List.getElem?_eq_some_iff.mp hget).1
    exact hdown c (List.mem_range.mpr hlt) hone entry (hraised c entry hr)
  exact ((lowers_release hio).forEach hmu _).imp (fun _ _ hv => hsync.quieter hv.1 hv.2.1)
    fun _ he => he

/-- While the iterator is there, every handle has a holder. -/
theorem inSync_of_iter (hm : Marked stored s) (hiter : s.iter.isSome) : InSync stored s := by
  refine ⟨hm, fun c entry hc => ?_⟩
  unfold strongCount at hc
  rw [if_pos hiter] at hc
  omega

/-- Opening a handle caches what the disk holds, or nothing. -/
theorem openHandle_marked (hio : Lawful io stored) (h : Marked stored s) {entry : Nat}
    {chunk : Chunk T D C} (hchunk : s.chunks[entry]? = some chunk) :
    Marked stored (s.openHandle io entry chunk) := by
  -- a chunk that is as good as the old one, and a handle more
  have hopened : ∀ (chunk' : Chunk T D C) (x : EntryHandle E) (w : S),
      (OnDisk stored chunk → OnDisk stored chunk') →
      Marked stored ({ s with
        chunks := s.chunks.set entry chunk', handles := s.handles ++ [x], world := w }) := by
    intro chunk' x w hdisk i found hi
    have hkeep : ∀ c e, s.Raised c e → (s.handles ++ [x])[c]? = some { entry := e, handle := .ok true } := by
      intro c e hr
      have hlt : c < s.handles.length := (List.getElem?_eq_some_iff.mp hr).1
      rw [List.getElem?_append_left hlt]
      exact hr
    have hset : (s.chunks.set entry chunk')[i]? = some found := hi
    by_cases hie : entry = i
    · subst hie
      rw [List.getElem?_set_self'] at hset
      obtain ⟨_, -, rfl⟩ := Option.map_eq_some_iff.mp hset
      rcases h entry chunk hchunk with hd | ⟨c, hr⟩
      · exact Or.inl (hdisk hd)
      · exact Or.inr ⟨c, hkeep c entry hr⟩
    · rw [List.getElem?_set_ne hie] at hset
      rcases h i found hset with hd | ⟨c, hr⟩
      · exact Or.inl hd
      · exact Or.inr ⟨c, hkeep c i hr⟩
  unfold openHandle BackedEntryMut.mutHandle
  rcases hl : chunk.load io s.world with ⟨e | v, chunk', w⟩
  · apply hopened chunk' _ w
    intro _ x hx
    rw [(hio.load_error hl).2.1] at hx
    cases hx
  · apply hopened chunk' _ w
    intro hd x hx
    obtain ⟨hval, hst, hfrom⟩ := hio.load_ok hl
    rw [hval] at hx
    cases hx
    rw [hst]
    rcases hfrom with hc | ⟨-, hs⟩
    · exact hd v hc
    · exact hs

/-- **Handing out an element** raises the flag of its chunk. -/
theorem takeElement_marked (h : Marked stored s) (access : Access) (innerPos : Nat) :
    Meets (takeElement access innerPos) s
      (onSuccess fun _ t => Marked stored t ∧ t.iter = s.iter) := by
  unfold takeElement
  rw [meets_get_bind]
  apply (ofExec_onSuccess _).seq
  intro last _ ht
  obtain ⟨hlast, rfl⟩ := ht
  have hget : s.handles[s.handles.length - 1]? = some last := by
    rw [← List.getLast?_eq_getElem?]
    exact unwrap_inv hlast
  obtain ⟨entry, handle⟩ := last
  cases handle with
  | error e => exact ⟨h, rfl⟩
  | ok modified =>
      apply (ofExec_onSuccess _).seq
      intro chunk _ hchunk
      obtain ⟨-, rfl⟩ := hchunk
      apply (ofExec_onSuccess _).seq
      intro m _ hm
      obtain ⟨hm, rfl⟩ := hm
      have hflag : m.modified = true := by
        unfold BackedEntryMut.derefMut at hm
        rcases hv : unwrap chunk.value with p | v
        · rw [hv] at hm
          cases hm
        · rw [hv, exec_bind_ok, exec_pure] at hm
          cases hm
          rfl
      have hput := marked_put h hget (Or.inr hflag) s.world
      rw [meets_modify_bind]
      apply (ofExec_onSuccess _).seq
      intro v _ hv
      obtain ⟨-, rfl⟩ := hv
      apply (ofExec_onSuccess _).seq
      intro x _ hx
      obtain ⟨-, rfl⟩ := hx
      cases x with
      | none => exact ⟨hput, rfl⟩
      | some x => exact ⟨hput, rfl⟩

/-- **`nth`** opens a handle where it comes to a new chunk, and hands out an element. -/
theorem nth_inSync (hio : Lawful io stored) (h : Marked stored s) (access : Access)
    (it : BackedArrayIterMut) (n : Nat) :
    Meets (nth io access it n) s (onSuccess fun _ t => InSync stored t) := by
  unfold nth
  apply (ofExec_onSuccess _).seq
  intro pos t ht
  obtain ⟨-, rfl⟩ := ht
  rcases hkeys : it.keys.dropWhile fun key => key.2 ≤ pos with _ | ⟨key, keys⟩
  · simp only [hkeys]
    simp only [meets_bind, meets_modify, meets_pure]
    exact inSync_of_iter h rfl
  · simp only [hkeys]
    apply (ofExec_onSuccess _).seq
    intro innerPos t ht
    obtain ⟨-, rfl⟩ := ht
    apply (ofExec_onSuccess _).seq
    intro nextPos t ht
    obtain ⟨-, rfl⟩ := ht
    have htake : ∀ u : Iterated T D C S E, Marked stored u → u.iter.isSome →
        Meets (takeElement access innerPos) u (onSuccess fun _ t => InSync stored t) := by
      intro u hu hiter
      refine (takeElement_marked hu access innerPos).imp (fun _ v hv => ?_) fun _ he => he
      exact inSync_of_iter hv.1 (by rw [hv.2, hiter])
    rw [meets_modify_bind]
    by_cases hstep : 0 < it.keys.length - (key :: keys).length
    · simp only [if_pos hstep]
      rw [meets_get_bind]
      apply (ofExec_onSuccess _).seq
      intro chunk t ht
      obtain ⟨hchunk, rfl⟩ := ht
      have hopen := openHandle_marked hio
        (s := { s with iter := some { it with pos := nextPos, keys := key :: keys } }) h
        (unwrap_inv hchunk)
      exact htake _ hopen rfl
    · simp only [if_neg hstep]
      exact htake _ h rfl

/-! ## Edits -/

/-- Is the flag of this handle up? -/
def flagUp (s : Iterated T D C S E) (c : Nat) : Bool :=
  match s.handles[c]? with
  | some { handle := .ok true, .. } => true
  | _ => false

/-- The element that a counted handle refers to. -/
def element (s : Iterated T D C S E) (h : CountedHandle) : Option T := do
  let e ← s.handles[h.handle]?
  let chunk ← s.chunks[e.entry]?
  let val ← chunk.value
  val[h.value]?

/-- **`Tracked`** — an edit is made while the flag of its chunk is up, or changes nothing. -/
def Tracked (s : Iterated T D C S E) (act : Act T) (_ : Iterated T D C S E) : Prop :=
  match act with
  | .edit k x => ∀ h ∈ s.alive k, s.flagUp h.handle = true ∨ s.element h = some x
  | _ => True

instance decidableTracked [DecidableEq T] (s : Iterated T D C S E) (act : Act T)
    (t : Iterated T D C S E) : Decidable (Tracked s act t) :=
  match act with
  | .edit k x => inferInstanceAs
      (Decidable (∀ h ∈ s.alive k, s.flagUp h.handle = true ∨ s.element h = some x))
  | .nth _ | .flush | .flushCounted _ | .dropCounted _ | .dropIter => inferInstanceAs (Decidable True)

/-- **A tracked edit** keeps the chunk marked, or as it is. -/
theorem edit_inSync (h : InSync stored s) {counted : CountedHandle} {x : T}
    (htracked : s.flagUp counted.handle = true ∨ s.element counted = some x) :
    InSync stored (s.edit counted x) := by
  unfold edit
  rcases hc : s.handles[counted.handle]? with _ | ⟨entry, handle⟩
  · exact h
  · refine ⟨fun i chunk hi => ?_, h.held⟩
    have hmodify : (s.chunks.modify entry fun chunk =>
        { chunk with value := chunk.value.map fun val => val.set counted.value x })[i]? = some chunk := hi
    rw [List.getElem?_modify] at hmodify
    obtain ⟨old, hold, heq⟩ := Option.map_eq_some_iff.mp hmodify
    by_cases hie : entry = i
    · subst hie
      rcases htracked with hup | hsame
      · -- the mark that is there covers the edit
        refine Or.inr ⟨counted.handle, ?_⟩
        unfold flagUp at hup
        rw [hc] at hup
        show s.handles[counted.handle]? = _
        rw [hc]
        split at hup
        · rename_i heq'
          cases heq'
          rfl
        · cases hup
      · -- the element is written as it was
        have hchunk : chunk = old := by
          rw [if_pos rfl] at heq
          rw [← heq]
          unfold element at hsame
          simp only [hc, hold, Option.bind_eq_bind, Option.bind_some] at hsame
          rcases hv : old.value with _ | val
          · rw [hv] at hsame
            cases hsame
          · rw [hv, Option.bind_some] at hsame
            obtain ⟨hlt, hget⟩ := List.getElem?_eq_some_iff.mp hsame
            obtain ⟨value, disk, coder⟩ := old
            cases hv
            rw [← hget]
            simp
        rw [hchunk]
        exact h.marked entry old hold
    · rw [if_neg hie] at heq
      rw [← heq]
      exact h.marked i old hold

/-! ## Runs -/

theorem alive_iff {k : Nat} {h : CountedHandle} :
    s.alive k = some h ↔ s.counted[k]? = some (some h) := by
  unfold alive
  rcases s.counted[k]? with _ | _ | x <;> simp

/-- **The step lemma.** -/
theorem next_inSync (hio : Lawful io stored) {act : Act T} (h : InSync stored s)
    (hnext : next io access s act = some t) (htracked : Tracked s act t) : InSync stored t := by
  have hrun : ∃ m, s.method io access act = some m ∧ m s = .ok (.ok (), t) := by
    unfold next at hnext
    rcases hm : s.method io access act with _ | m
    · rw [hm] at hnext
      cases hnext
    · refine ⟨m, rfl, ?_⟩
      rw [hm] at hnext
      simp only at hnext
      split at hnext
      · rename_i heq
        cases hnext
        exact heq
      · cases hnext
  obtain ⟨m, hm, hrun⟩ := hrun
  cases act with
  | nth n =>
      obtain ⟨it, -, rfl⟩ := Option.map_eq_some_iff.mp hm
      have hnth : Meets (nth io access it n >>= fun _ => pure ()) s
          (onSuccess fun _ t => InSync stored t) :=
        (nth_inSync hio h.marked access it n).seq fun _ _ ht => ht
      exact hnth.ok hrun
  | edit k x =>
      obtain ⟨counted, hk, rfl⟩ := Option.map_eq_some_iff.mp hm
      cases hrun
      exact edit_inSync h (htracked counted hk)
  | flush =>
      obtain ⟨it, -, rfl⟩ := Option.map_eq_some_iff.mp hm
      exact (flush_inSync hio h).ok hrun
  | flushCounted k =>
      obtain ⟨counted, -, rfl⟩ := Option.map_eq_some_iff.mp hm
      exact (flushCounted_inSync hio h counted).ok hrun
  | dropCounted k =>
      obtain ⟨counted, hk, rfl⟩ := Option.map_eq_some_iff.mp hm
      exact (dropCounted_inSync hio h (alive_iff.mp hk)).ok hrun
  | dropIter =>
      obtain ⟨it, hit, rfl⟩ := Option.map_eq_some_iff.mp hm
      exact (dropIter_inSync hio h (by rw [hit]; rfl)).ok hrun

/-- A new iterator on chunks that agree with their disks. -/
theorem iterMut_inSync (hio : Lawful io stored) (arr : BackedArray (Chunk T D C)) (world : S)
    (hdisk : ∀ chunk ∈ arr.entries, OnDisk stored chunk) :
    InSync stored (iterMut io arr world : Iterated T D C S E) := by
  unfold iterMut
  simp only
  rcases hfirst : arr.entries[0]? with _ | chunk
  · exact inSync_of_iter (fun i chunk hi => Or.inl (hdisk chunk (List.mem_of_getElem? hi))) rfl
  · refine inSync_of_iter ?_ rfl
    exact openHandle_marked hio
      (fun i chunk hi => Or.inl (hdisk chunk (List.mem_of_getElem? hi))) hfirst

end Iterated

/-- **What is on the disks in the end.**  On chunks that agree with their disks, any run over one mutable
iterator, slice or generic, in which no write fails: any calls of `nth`, edits, flushes and drops in any
order.  If every edit was made while the flag of its chunk was up (or changed nothing), then once the
iterator and all counted handles have been dropped, the disk of every chunk decodes to its memory. -/
theorem iterMut_durable {T D C S E : Type} {io : Medium (List T) D C S E}
    {stored : C → D → Option (List T)} (hio : Lawful io stored) (access : Access)
    (arr : BackedArray (Chunk T D C)) (world : S)
    (hdisk : ∀ chunk ∈ arr.entries, Iterated.OnDisk stored chunk)
    (tr : List (Iterated.Act T × Iterated T D C S E))
    (htr : IsTrace (Steps (Iterated.next io access)) (Iterated.iterMut io arr world) tr)
    (hedits : StepsMeet Iterated.Tracked (Iterated.iterMut io arr world) tr)
    (hiter : (last (Iterated.iterMut io arr world) tr).iter = none)
    (hcounted : ∀ h ∈ (last (Iterated.iterMut io arr world) tr).counted, h = none) :
    ∀ chunk ∈ (last (Iterated.iterMut io arr world) tr).chunks, Iterated.OnDisk stored chunk := by
  have hrun := invariant_under (P := Iterated.InSync stored)
    (fun s act t h hstep hcond => Iterated.next_inSync hio h hstep hcond)
    (Iterated.iterMut_inSync hio arr world hdisk) htr hedits
  have hsync := hrun.last
  -- nobody holds a handle any more, so no flag is up
  have hnobody : ∀ c, (last (Iterated.iterMut io arr world) tr).strongCount c = 0 := by
    intro c
    have hcount : (last (Iterated.iterMut io arr world) tr).counted.countP (Iterated.holds c) = 0 := by
      rw [List.countP_eq_zero]
      intro h hh
      rw [hcounted h hh]
      exact Bool.false_ne_true
    unfold Iterated.strongCount
    rw [hiter, hcount]
    rfl
  intro chunk hchunk
  obtain ⟨i, hi⟩ := List.getElem?_of_mem hchunk
  rcases hsync.marked i chunk hi with hd | ⟨c, hr⟩
  · exact hd
  · exact absurd hr (hsync.held c i (hnobody c))

/-! ### Runs over one chunk -/

open Iterated (Act next iterMut)

/-- One chunk of two elements, on its disk and not loaded. -/
def twoElements : BackedArray (Chunk Nat (Option (List Nat)) Unit) where
  keyStarts := [0]
  keyEnds := [2]
  entries := [{ value := none, disk := some [1, 2], coder := () }]

/-- A run on it, with a disk that fails nowhere. -/
def twoElementsRun (acts : List (Act Nat)) :
    List (Act Nat × Iterated Nat (Option (List Nat)) Unit (List Bool) Unit) :=
  follow (next (scripted (List Nat)) .slice) (iterMut (scripted (List Nat)) twoElements []) acts

/-- The state it ends in. -/
def twoElementsEnd (acts : List (Act Nat)) :
    Iterated Nat (Option (List Nat)) Unit (List Bool) Unit :=
  last (iterMut (scripted (List Nat)) twoElements []) (twoElementsRun acts)

/-- An element is edited after a flush. -/
def lateEdit : List (Act Nat) := [.nth 0, .flush, .edit 0 9, .dropCounted 0, .dropIter]

/-- The edit is in memory, and never gets to the disk. -/
theorem lateEdit_lost :
    (twoElementsRun lateEdit).map Prod.fst = lateEdit ∧
      (twoElementsEnd lateEdit).iter = none ∧ (twoElementsEnd lateEdit).counted = [none] ∧
      (twoElementsEnd lateEdit).chunks =
        [{ value := some [9, 2], disk := some [1, 2], coder := () }] := by
  decide

/-- An element is edited, and flushed; then the next one is taken, and both are edited. -/
def freshEdit : List (Act Nat) :=
  [.nth 0, .edit 0 9, .flushCounted 0, .nth 0, .edit 1 8, .edit 0 7, .dropIter, .dropCounted 0,
    .dropCounted 1]

theorem iterMut_durable_freshEdit :
    (twoElementsEnd freshEdit).chunks = [{ value := some [7, 8], disk := some [7, 8], coder := () }] ∧
      ∀ chunk ∈ (twoElementsEnd freshEdit).chunks, Iterated.OnDisk (fun _ d => d) chunk :=
  ⟨by decide, iterMut_durable (scripted_lawful (List Nat)) .slice twoElements []
    (by
      intro chunk hchunk v hv
      rw [List.mem_singleton.mp hchunk] at hv
      cases hv)
    (twoElementsRun freshEdit) (isTrace_follow _ _ _) (by decide) (by decide) (by decide)⟩

end BackedData.Array
