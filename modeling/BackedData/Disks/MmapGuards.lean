/-
# BackedData.Disks.MmapGuards — who may look at the mapping

The guards that `read_disk` and `write_disk` hand out live on their own: each shares an `Arc` with the
`Mmap`, and is dropped at any time, also while another call has the mapping taken out of the mutex.  A
call is therefore three steps (take the mapping out, `read_handle` or `write_handle`, put back what that
returned) and between any two of them guards may go, and the holder of a guard for writing may write.

An `Arc` is a number; a guard carries the number of the `Arc` it shares, and `Arc::try_unwrap` succeeds
when no guard carries the number of the mapping in hand.

`guards_exclusive`: in every state of every run a guard for writing is the only guard, what is held is
`Invalid` only when there is none, and a call that is refused puts back what it took out.
-/
import BackedData.Disks.MmapSpec
import BackedData.Logic.Trace

namespace BackedData.Disks

open Logic.Stateful
open Logic.Trace

set_option autoImplicit false

/-! ## Guards and calls -/

/-- `ReadMmapGuard` or `WriteMmapGuard`. -/
inductive GuardKind where
  | read
  | write
  deriving DecidableEq, Repr

/-- A guard, and the `Arc` it shares. -/
structure Guard where
  kind : GuardKind
  arc : Nat
  deriving DecidableEq, Repr

/-- Where a call stands: none is under way; the mapping has been taken out; or it is about to be put
back, with this answer. -/
inductive Phase where
  | idle
  | taken (kind : GuardKind) (cur : SwitchingMmap)
  | returning (mmap : SwitchingMmap) (answer : Except IoError Guard)
  deriving DecidableEq

/-- `Mmap`, with its mutex, its file and the guards that callers have.  `arc` is the `Arc` of the mapping
in hand, and the numbers from `nextArc` on have not been used. -/
structure GuardedMmap where
  held : SwitchingMmap
  poisoned : Bool
  phase : Phase
  arc : Nat
  nextArc : Nat
  guards : List Guard
  os : Os
  deriving DecidableEq

/-- Take the mutex for `read_disk` or `write_disk`, go on with the call, put back and return; drop a
guard; or write through one, which leaves the writer and the file in any state. -/
inductive GuardEvent where
  | lock (kind : GuardKind)
  | handle
  | putBack
  | drop (i : Nat)
  | edit (i : Nat) (writer : MmapWriter) (os : Os)
  deriving DecidableEq

/-- What a step shows: the answer of a call, a panic, or nothing. -/
inductive GuardAnswer where
  | silent
  | returned (answer : Except IoError Guard)
  | panicked
  deriving DecidableEq

/-- The mapping, beside this number of guards. -/
def SwitchingMmap.counted : SwitchingMmap → Nat → SwitchingMmap
  | .invalid, _ => .invalid
  | .readMmap mmap _, n => .readMmap mmap n
  | .writeMmap mmap _, n => .writeMmap mmap n

/-- The call of the kind. -/
def GuardKind.handle : GuardKind → SwitchingMmap → MmapM Unit
  | .read => SwitchingMmap.readHandle
  | .write => SwitchingMmap.writeHandle

/-- Does the call go on with the `Arc` it took out?  It does when it hands out another guard for reading,
or when the `Arc` is shared; else it makes a new one. -/
def GuardKind.keepsArc : GuardKind → SwitchingMmap → Bool
  | _, .invalid => false
  | .read, .readMmap _ _ => true
  | .write, .readMmap _ n => n ≠ 0
  | _, .writeMmap _ n => n ≠ 0

namespace GuardedMmap

/-- A new `Mmap`. -/
def new (mmap : ReadMmap) (os : Os) : GuardedMmap :=
  { held := .readMmap mmap 0
    poisoned := false
    phase := .idle
    arc := 0
    nextArc := 1
    guards := []
    os }

/-- The guards that share the `Arc` in hand. -/
def sharing (s : GuardedMmap) : Nat := (s.guards.filter fun g => g.arc = s.arc).length

/-- Another writer in the place of the one in hand, and what the file has become. -/
def edited (s : GuardedMmap) (writer : MmapWriter) (os : Os) : Option GuardedMmap :=
  match s.phase with
  | .idle =>
      match s.held with
      | .writeMmap _ n => some { s with held := .writeMmap writer n, os }
      | _ => none
  | .taken kind (.writeMmap _ n) => some { s with phase := .taken kind (.writeMmap writer n), os }
  | .returning (.writeMmap _ n) answer =>
      some { s with phase := .returning (.writeMmap writer n) answer, os }
  | _ => none

/-- One step. -/
def next (s : GuardedMmap) : GuardEvent → Option (GuardAnswer × GuardedMmap)
  | .lock kind =>
      match s.phase with
      | .idle =>
          -- `self.mmap.lock().unwrap()`
          if s.poisoned then some (.panicked, s)
          else some (.silent, { s with held := .invalid, phase := .taken kind s.held })
      | _ => none
  | .handle =>
      match s.phase with
      | .taken kind cur =>
          let cur := cur.counted s.sharing
          let arc := if kind.keepsArc cur then s.arc else s.nextArc
          match kind.handle cur (.invalid, s.os) with
          | .error _ => some (.panicked, { s with poisoned := true, phase := .idle })
          | .ok (.ok (), (mmap, os)) =>
              some (.silent, { s with
                phase := .returning mmap (.ok { kind, arc })
                arc
                nextArc := s.nextArc + 1
                os })
          | .ok (.error e, (mmap, os)) =>
              some (.silent, { s with
                phase := .returning mmap (.error e)
                arc
                nextArc := s.nextArc + 1
                os })
      | _ => none
  | .putBack =>
      match s.phase with
      | .returning mmap answer =>
          some (.returned answer, { s with
            held := mmap
            phase := .idle
            guards := s.guards ++ answer.toOption.toList })
      | _ => none
  | .drop i =>
      match s.guards[i]? with
      | some _ => some (.silent, { s with guards := s.guards.eraseIdx i })
      | none => none
  | .edit i writer os =>
      match s.guards[i]? with
      | some ⟨.write, arc⟩ =>
          if arc = s.arc then
            match s.edited writer os with
            | some t => some (.silent, t)
            | none => none
          else none
      | _ => none

/-- The mapping in hand, wherever it is. -/
def inHand (s : GuardedMmap) : SwitchingMmap :=
  match s.phase with
  | .idle => s.held
  | .taken _ cur => cur
  | .returning mmap _ => mmap

/-- The guards there are, with the one about to be returned. -/
def live (s : GuardedMmap) : List Guard :=
  match s.phase with
  | .returning _ answer => s.guards ++ answer.toOption.toList
  | _ => s.guards

end GuardedMmap

/-! ## One call -/

/-- A guard of this kind can share the mapping. -/
def SwitchingMmap.fits : SwitchingMmap → GuardKind → Bool
  | .readMmap _ _, .read => true
  | .writeMmap _ _, .write => true
  | _, _ => false

section Handles

theorem hold_fits {held : SwitchingMmap} {kind : GuardKind} (h : held.fits kind = true) (m : Mmap) :
    Meets (SwitchingMmap.hold held) m (onSuccess fun _ t => t.1.fits kind = true) := h

/-- `read_handle` ends with a mapping for reading. -/
theorem readHandle_fits (cur : SwitchingMmap) (m : Mmap) :
    Meets cur.readHandle m (onSuccess fun _ t => t.1.fits .read = true) := by
  unfold SwitchingMmap.readHandle
  cases cur with
  | invalid => exact meets_last fun mmap t => hold_fits rfl t
  | readMmap mmap n => exact hold_fits rfl m
  | writeMmap writer n =>
      by_cases hn : n = 0
      · simp only [if_pos hn]
        by_cases hw : 0 < writer.writtenLen
        · simp only [if_pos hw]
          refine meets_last fun r t => ?_
          rcases r with ⟨e | map, writer⟩
          · exact meets_last fun _ t => ⟨id, trivial⟩
          · exact meets_last fun _ t => meets_last fun _ t => hold_fits rfl t
        · simp only [if_neg hw]
          exact meets_last fun _ t => hold_fits rfl t
      · simp only [if_neg hn]
        exact meets_last fun _ t => ⟨id, trivial⟩

/-- `write_handle` ends with a mapping for writing. -/
theorem writeHandle_fits (cur : SwitchingMmap) (m : Mmap) :
    Meets cur.writeHandle m (onSuccess fun _ t => t.1.fits .write = true) := by
  unfold SwitchingMmap.writeHandle
  cases cur with
  | invalid => exact meets_last fun writer t => hold_fits rfl t
  | readMmap mmap n =>
      by_cases hn : n = 0
      · simp only [if_pos hn]
        cases mmap with
        | nonEmpty mmap => exact meets_last fun _ t => hold_fits rfl t
        | empty => exact meets_last fun _ t => hold_fits rfl t
      · simp only [if_neg hn]
        exact meets_last fun _ t => ⟨id, trivial⟩
  | writeMmap writer n =>
      by_cases hn : n = 0
      · simp only [if_pos hn]
        exact hold_fits rfl m
      · simp only [if_neg hn]
        exact meets_last fun _ t => ⟨id, trivial⟩

theorem handle_fits (kind : GuardKind) (cur : SwitchingMmap) (m : Mmap) :
    Meets (kind.handle cur) m (onSuccess fun _ t => t.1.fits kind = true) := by
  cases kind with
  | read => exact readHandle_fits cur m
  | write => exact writeHandle_fits cur m

/-- The error of a call for which the mapping is shared already. -/
def SwitchingMmap.refusal : SwitchingMmap → GuardKind → Option IoError
  | .writeMmap _ _, _ => some .writeHandleOpen
  | .readMmap _ _, .write => some .readHandleOpen
  | _, _ => none

/-- **A call that is refused** leaves everything, and goes on with the same `Arc`. -/
theorem handle_refuses {kind : GuardKind} {cur : SwitchingMmap} {n : Nat} {e : IoError} (hn : n ≠ 0)
    (h : cur.refusal kind = some e) (m : Mmap) :
    kind.handle (cur.counted n) m = .ok (.error e, (cur.counted n, m.2)) ∧
      kind.keepsArc (cur.counted n) = true := by
  cases cur with
  | invalid => cases h
  | readMmap mmap k =>
      cases kind with
      | read => cases h
      | write =>
          obtain rfl : IoError.readHandleOpen = e := Option.some.inj h
          refine ⟨?_, decide_eq_true hn⟩
          simp only [GuardKind.handle, SwitchingMmap.counted, SwitchingMmap.writeHandle, if_neg hn]
          rfl
  | writeMmap writer k =>
      obtain rfl : IoError.writeHandleOpen = e := Option.some.inj h
      cases kind with
      | read =>
          refine ⟨?_, decide_eq_true hn⟩
          simp only [GuardKind.handle, SwitchingMmap.counted, SwitchingMmap.readHandle, if_neg hn]
          rfl
      | write =>
          refine ⟨?_, decide_eq_true hn⟩
          simp only [GuardKind.handle, SwitchingMmap.counted, SwitchingMmap.writeHandle, if_neg hn]
          rfl

/-- Another guard for reading. -/
theorem handle_shares (mmap : ReadMmap) (k n : Nat) (m : Mmap) :
    GuardKind.read.handle (SwitchingMmap.counted (.readMmap mmap k) n) m =
      .ok (.ok (), (.readMmap mmap (n + 1), m.2)) := rfl

@[simp] theorem fits_counted (cur : SwitchingMmap) (n : Nat) (kind : GuardKind) :
    (cur.counted n).fits kind = cur.fits kind := by
  cases cur <;> cases kind <;> rfl

end Handles

/-! ## Runs -/

/-- **`Exclusive s`** — every guard shares the mapping in hand, which is of its kind; a mapping for
writing has one guard at most; and while a call is under way the mutex holds nothing. -/
structure Exclusive (s : GuardedMmap) : Prop where
  shares : ∀ g ∈ s.live, g.arc = s.arc ∧ s.inHand.fits g.kind = true
  unique : s.inHand.fits .write = true → s.live.length ≤ 1
  hidden : s.phase ≠ .idle → s.held = .invalid

/-- A guard stands against a call: a guard for writing against any, and any guard against `write_disk`. -/
def Blocked (guards : List Guard) (kind : GuardKind) : Prop :=
  ∃ g ∈ guards, kind = .write ∨ g.kind = .write

/-- **`CallKeeps`** — what a call does with the mapping: it is taken out as it is; if a guard stands
against the call, it returns an error and everything stays; and what is put back is what the call
returned with. -/
def CallKeeps (s : GuardedMmap) (l : GuardEvent × GuardAnswer) (t : GuardedMmap) : Prop :=
  match l.1 with
  | .lock _ => t.inHand = s.inHand ∧ t.os = s.os ∧ t.guards = s.guards
  | .handle =>
      ∀ kind cur, s.phase = .taken kind cur → Blocked s.guards kind →
        ∃ e, t.phase = .returning (cur.counted s.sharing) (.error e) ∧ t.os = s.os ∧
          t.arc = s.arc ∧ t.guards = s.guards
  | .putBack => ∃ mmap answer, s.phase = .returning mmap answer ∧ t.held = mmap ∧ t.os = s.os ∧
      l.2 = .returned answer
  | _ => True

section Steps

variable {s t : GuardedMmap} {l : GuardEvent × GuardAnswer}

/-- All guards share the `Arc` that a call has in hand. -/
theorem Exclusive.sharing_eq (h : Exclusive s) {kind : GuardKind} {cur : SwitchingMmap}
    (hp : s.phase = .taken kind cur) : s.sharing = s.guards.length := by
  have hlive : s.live = s.guards := by rw [GuardedMmap.live, hp]
  unfold GuardedMmap.sharing
  rw [List.filter_eq_self.mpr]
  intro g hg
  exact decide_eq_true (h.shares g (hlive.symm ▸ hg)).1

/-- With guards and a mapping in hand: the call is refused, or it hands out one more for reading. -/
theorem Exclusive.taken_cases (h : Exclusive s) {kind : GuardKind} {cur : SwitchingMmap}
    (hp : s.phase = .taken kind cur) :
    s.guards = [] ∧ ¬Blocked s.guards kind ∨
      s.sharing ≠ 0 ∧ (∃ e, cur.refusal kind = some e) ∧ Blocked s.guards kind ∨
      ∃ mmap k, cur = .readMmap mmap k ∧ kind = .read ∧ ¬Blocked s.guards kind := by
  have hlive : s.live = s.guards := by rw [GuardedMmap.live, hp]
  have hhand : s.inHand = cur := by rw [GuardedMmap.inHand, hp]
  have hshares := h.shares
  rw [hlive, hhand] at hshares
  cases hg : s.guards with
  | nil =>
      left
      exact ⟨rfl, by rintro ⟨g, hmem, -⟩; cases hmem⟩
  | cons g rest =>
      right
      have hcount : s.sharing ≠ 0 := by
        rw [h.sharing_eq hp, hg]
        exact Nat.succ_ne_zero _
      have hfits := (hshares g (hg ▸ List.mem_cons_self)).2
      cases cur with
      | invalid => cases hfits
      | writeMmap writer k =>
          have hwrite : g.kind = .write := by
            cases hk : g.kind with
            | read => rw [hk] at hfits; cases hfits
            | write => rfl
          exact Or.inl ⟨hcount, ⟨_, rfl⟩, g, List.mem_cons_self, Or.inr hwrite⟩
      | readMmap mmap k =>
          cases kind with
          | write => exact Or.inl ⟨hcount, ⟨_, rfl⟩, g, List.mem_cons_self, Or.inl rfl⟩
          | read =>
              refine Or.inr ⟨mmap, k, rfl, rfl, ?_⟩
              rintro ⟨g', hmem, hk | hk⟩
              · cases hk
              · have hbad := (hshares g' (hg ▸ hmem)).2
                rw [hk] at hbad
                cases hbad

/-- Alone, or with the mapping it fits, a guard is in order. -/
theorem exclusive_returning {mmap : SwitchingMmap} {answer : Except IoError Guard}
    (hp : s.phase = .returning mmap answer) (hheld : s.held = .invalid) (hguards : s.guards = [])
    (hanswer : ∀ g, answer = .ok g → g.arc = s.arc ∧ mmap.fits g.kind = true) : Exclusive s := by
  have hlive : s.live = answer.toOption.toList := by
    rw [GuardedMmap.live, hp, hguards]
    rfl
  have hhand : s.inHand = mmap := by rw [GuardedMmap.inHand, hp]
  refine ⟨fun g hg => ?_, fun _ => ?_, fun _ => hheld⟩
  · rw [hlive] at hg
    rw [hhand]
    cases answer with
    | error e => cases hg
    | ok g' =>
        obtain rfl : g = g' := List.mem_singleton.mp hg
        exact hanswer g rfl
  · rw [hlive]
    cases answer with
    | error e => exact Nat.zero_le _
    | ok g' => exact Nat.le_refl _

section Call

variable {kind : GuardKind} {cur : SwitchingMmap} {answer : GuardAnswer}

/-- With no guard: whatever the call does, it comes out with at most its own. -/
theorem Exclusive.handle_alone (h : Exclusive s) (hp : s.phase = .taken kind cur)
    (hnone : s.guards = []) (hs : s.next .handle = some (answer, t)) : Exclusive t := by
  have hheld : s.held = .invalid := h.hidden (by rw [hp]; nofun)
  have hfits := handle_fits kind (cur.counted s.sharing) (.invalid, s.os)
  unfold Meets at hfits
  simp only [GuardedMmap.next, hp] at hs
  rcases hr : kind.handle (cur.counted s.sharing) (.invalid, s.os) with p | ⟨e | _, mmap, os⟩
  · simp only [hr, Option.some.injEq, Prod.mk.injEq] at hs
    obtain ⟨-, rfl⟩ := hs
    have hlive : ({ s with poisoned := true, phase := .idle } : GuardedMmap).live = [] := hnone
    refine ⟨fun g hg => ?_, fun _ => ?_, fun _ => hheld⟩
    · rw [hlive] at hg
      cases hg
    · rw [hlive]
      exact Nat.zero_le _
  · simp only [hr, Option.some.injEq, Prod.mk.injEq] at hs
    obtain ⟨-, rfl⟩ := hs
    exact exclusive_returning rfl hheld hnone nofun
  · rw [hr] at hfits
    simp only [hr, Option.some.injEq, Prod.mk.injEq] at hs
    obtain ⟨-, rfl⟩ := hs
    refine exclusive_returning rfl hheld hnone ?_
    rintro g ⟨⟩
    exact ⟨rfl, hfits⟩

/-- A call that is refused. -/
theorem Exclusive.handle_refused (h : Exclusive s) (hp : s.phase = .taken kind cur)
    (hn : s.sharing ≠ 0) {e : IoError} (he : cur.refusal kind = some e)
    (hs : s.next .handle = some (answer, t)) :
    Exclusive t ∧ t.phase = .returning (cur.counted s.sharing) (.error e) ∧ t.os = s.os ∧
      t.arc = s.arc ∧ t.guards = s.guards := by
  have hhand : s.inHand = cur := by rw [GuardedMmap.inHand, hp]
  have hlive : s.live = s.guards := by rw [GuardedMmap.live, hp]
  obtain ⟨hrun, harc⟩ := handle_refuses hn he (.invalid, s.os)
  simp only [GuardedMmap.next, hp, hrun, harc, if_true, Option.some.injEq, Prod.mk.injEq] at hs
  obtain ⟨-, rfl⟩ := hs
  refine ⟨⟨fun g hg => ?_, fun hw => ?_, fun _ => h.hidden (by rw [hp]; nofun)⟩, rfl, rfl, rfl, rfl⟩
  · have hg' : g ∈ s.guards := by simpa [GuardedMmap.live, Except.toOption] using hg
    obtain ⟨harc', hfits⟩ := h.shares g (hlive.symm ▸ hg')
    refine ⟨harc', ?_⟩
    show (cur.counted s.sharing).fits g.kind = true
    rw [fits_counted, ← hhand]
    exact hfits
  · have hw' : (cur.counted s.sharing).fits .write = true := hw
    rw [fits_counted, ← hhand] at hw'
    simpa [GuardedMmap.live, Except.toOption, hp] using h.unique hw'

/-- One more guard for reading, on the same mapping. -/
theorem Exclusive.handle_shared (h : Exclusive s) {mmap : ReadMmap} {k : Nat}
    (hp : s.phase = .taken .read (.readMmap mmap k)) (hs : s.next .handle = some (answer, t)) :
    Exclusive t := by
  have hhand : s.inHand = .readMmap mmap k := by rw [GuardedMmap.inHand, hp]
  have hlive : s.live = s.guards := by rw [GuardedMmap.live, hp]
  simp only [GuardedMmap.next, hp, handle_shares, Option.some.injEq, Prod.mk.injEq] at hs
  obtain ⟨-, rfl⟩ := hs
  refine ⟨fun g hg => ?_, nofun, fun _ => h.hidden (by rw [hp]; nofun)⟩
  have hg' : g ∈ s.guards ++ [⟨.read, s.arc⟩] := hg
  rcases List.mem_append.mp hg' with hold | hnew
  · obtain ⟨harc, hfits⟩ := h.shares g (hlive.symm ▸ hold)
    rw [hhand] at hfits
    refine ⟨harc, ?_⟩
    cases hk : g.kind with
    | read => rfl
    | write => rw [hk] at hfits; cases hfits
  · obtain rfl := List.mem_singleton.mp hnew
    exact ⟨rfl, rfl⟩

/-- **The step lemma of a call.** -/
theorem Exclusive.handle (h : Exclusive s) (hs : s.next .handle = some (answer, t)) :
    Exclusive t ∧ CallKeeps s (.handle, answer) t := by
  cases hp : s.phase with
  | idle => simp [GuardedMmap.next, hp] at hs
  | returning mmap r => simp [GuardedMmap.next, hp] at hs
  | taken kind cur =>
      have hfree : ¬Blocked s.guards kind → CallKeeps s (.handle, answer) t := by
        intro hfree kind' cur' hp' hb
        obtain ⟨rfl, rfl⟩ := Phase.taken.inj (hp.symm.trans hp')
        exact absurd hb hfree
      rcases h.taken_cases hp with ⟨hnone, hno⟩ | ⟨hn, ⟨e, he⟩, hblocked⟩ | ⟨mmap, k, rfl, rfl, hno⟩
      · exact ⟨h.handle_alone hp hnone hs, hfree hno⟩
      · obtain ⟨ht, hkept⟩ := h.handle_refused hp hn he hs
        refine ⟨ht, fun kind' cur' hp' _ => ?_⟩
        obtain ⟨rfl, rfl⟩ := Phase.taken.inj (hp.symm.trans hp')
        exact ⟨e, hkept⟩
      · exact ⟨h.handle_shared hp hs, hfree hno⟩

end Call

/-- A step that leaves the mapping in hand of its kind, on the same `Arc`, and adds no guard. -/
theorem Exclusive.keep (h : Exclusive s) (harc : t.arc = s.arc)
    (hhand : ∀ kind, t.inHand.fits kind = s.inHand.fits kind) (hlive : List.Sublist t.live s.live)
    (hhidden : t.phase ≠ .idle → t.held = .invalid) : Exclusive t := by
  refine ⟨fun g hg => ?_, fun hw => ?_, hhidden⟩
  · rw [harc, hhand]
    exact h.shares g (hlive.subset hg)
  · rw [hhand] at hw
    exact Nat.le_trans hlive.length_le (h.unique hw)

/-- Writing through a guard changes the writer in hand, and the file. -/
theorem edited_inv {writer : MmapWriter} {os : Os} (hs : s.edited writer os = some t) :
    t.arc = s.arc ∧ (∀ kind, t.inHand.fits kind = s.inHand.fits kind) ∧ t.live = s.live ∧
      (t.phase ≠ .idle → s.phase ≠ .idle ∧ t.held = s.held) := by
  have hfits : ∀ (v w : MmapWriter) (m n : Nat) (kind : GuardKind),
      (SwitchingMmap.writeMmap v m).fits kind = (SwitchingMmap.writeMmap w n).fits kind := by
    intro v w m n kind
    cases kind <;> rfl
  unfold GuardedMmap.edited at hs
  cases hp : s.phase with
  | idle =>
      simp only [hp] at hs
      split at hs
      next w n hheld =>
        cases hs
        refine ⟨rfl, fun kind => ?_, ?_, fun hidle => absurd rfl hidle⟩
        · simp only [GuardedMmap.inHand, hp, hheld]
          exact hfits writer w n n kind
        · simp only [GuardedMmap.live, hp]
      next => cases hs
  | taken kind cur =>
      cases cur with
      | writeMmap w n =>
          simp only [hp, Option.some.injEq] at hs
          subst hs
          refine ⟨rfl, fun kind' => ?_, ?_, fun _ => ⟨nofun, rfl⟩⟩
          · simp only [GuardedMmap.inHand, hp]
            exact hfits writer w n n kind'
          · simp only [GuardedMmap.live, hp]
      | invalid | readMmap => simp [hp] at hs
  | returning mmap r =>
      cases mmap with
      | writeMmap w n =>
          simp only [hp, Option.some.injEq] at hs
          subst hs
          refine ⟨rfl, fun kind' => ?_, ?_, fun _ => ⟨nofun, rfl⟩⟩
          · simp only [GuardedMmap.inHand, hp]
            exact hfits writer w n n kind'
          · simp only [GuardedMmap.live, hp]
      | invalid | readMmap => simp [hp] at hs

/-- **The step lemma.** -/
theorem Exclusive.step (h : Exclusive s) (hs : Reacts GuardedMmap.next s l t) :
    Exclusive t ∧ CallKeeps s l t := by
  obtain ⟨ev, answer⟩ := l
  cases ev with
  | handle => exact h.handle hs
  | lock kind =>
      unfold Reacts GuardedMmap.next at hs
      cases hp : s.phase with
      | taken kind' cur => simp [hp] at hs
      | returning mmap r => simp [hp] at hs
      | idle =>
          have hhand : s.inHand = s.held := by rw [GuardedMmap.inHand, hp]
          have hlive : s.live = s.guards := by rw [GuardedMmap.live, hp]
          by_cases hpoison : s.poisoned = true
          · simp only [hp, if_pos hpoison, Option.some.injEq, Prod.mk.injEq] at hs
            obtain ⟨-, rfl⟩ := hs
            exact ⟨h, rfl, rfl, rfl⟩
          · simp only [hp, if_neg hpoison, Option.some.injEq, Prod.mk.injEq] at hs
            obtain ⟨-, rfl⟩ := hs
            refine ⟨h.keep rfl (fun kind' => by rw [hhand]; rfl) (by rw [hlive]; exact .refl _)
              fun _ => rfl, hhand.symm, rfl, rfl⟩
  | putBack =>
      unfold Reacts GuardedMmap.next at hs
      cases hp : s.phase with
      | idle => simp [hp] at hs
      | taken kind cur => simp [hp] at hs
      | returning mmap r =>
          have hhand : s.inHand = mmap := by rw [GuardedMmap.inHand, hp]
          have hlive : s.live = s.guards ++ r.toOption.toList := by rw [GuardedMmap.live, hp]
          simp only [hp, Option.some.injEq, Prod.mk.injEq] at hs
          obtain ⟨rfl, rfl⟩ := hs
          exact ⟨h.keep rfl (fun kind => by rw [hhand]; rfl) (by rw [hlive]; exact .refl _)
            fun hidle => absurd rfl hidle, mmap, r, hp, rfl, rfl, rfl⟩
  | drop i =>
      unfold Reacts GuardedMmap.next at hs
      rcases hi : s.guards[i]? with _ | g
      · simp [hi] at hs
      · simp only [hi, Option.some.injEq, Prod.mk.injEq] at hs
        obtain ⟨-, rfl⟩ := hs
        refine ⟨h.keep rfl (fun _ => rfl) ?_ h.hidden, trivial⟩
        unfold GuardedMmap.live
        cases s.phase with
        | returning mmap r => exact (List.eraseIdx_sublist _ _).append (.refl _)
        | idle | taken => exact List.eraseIdx_sublist _ _
  | edit i writer os =>
      have hedit : s.edited writer os = some t := by
        simp only [Reacts, GuardedMmap.next] at hs
        split at hs
        next =>
          split at hs
          next =>
            split at hs
            next he =>
              cases hs
              exact he
            next => cases hs
          next => cases hs
        next => cases hs
      obtain ⟨harc, hhand, hlive, hphase⟩ := edited_inv hedit
      refine ⟨h.keep harc hhand (hlive ▸ .refl _) fun hidle => ?_, trivial⟩
      obtain ⟨hbusy, hheld⟩ := hphase hidle
      rw [hheld]
      exact h.hidden hbusy

end Steps

/-- **`GuardsExclusive`** — a guard for writing is the only guard; and with `Invalid` in hand, held by the
mutex or about to be put back, there is none. -/
def GuardsExclusive (s : GuardedMmap) : Prop :=
  (∀ g ∈ s.live, g.kind = .write → s.live = [g]) ∧ (s.inHand = .invalid → s.live = [])

theorem Exclusive.guards {s : GuardedMmap} (h : Exclusive s) : GuardsExclusive s := by
  constructor
  · intro g hg hk
    have hfits := (h.shares g hg).2
    rw [hk] at hfits
    obtain ⟨g', hg'⟩ := List.length_eq_one_iff.mp
      (Nat.le_antisymm (h.unique hfits) (List.length_pos_of_mem hg))
    rw [hg'] at hg ⊢
    rw [List.mem_singleton.mp hg]
  · intro hhand
    refine List.eq_nil_iff_forall_not_mem.mpr fun g hg => ?_
    have hfits := (h.shares g hg).2
    rw [hhand] at hfits
    cases hfits

/-- **Guards exclude each other.**  Over every interleaving of calls, of guards that are dropped and of
writes through them, and every answer of the system: in every state a guard for writing is the only
guard, and with `Invalid` in hand there is none; and every call that a guard stands against returns an
error and puts the mapping back as it was. -/
theorem guards_exclusive (mmap : ReadMmap) (os : Os)
    {tr : List ((GuardEvent × GuardAnswer) × GuardedMmap)}
    (htr : IsTrace (Reacts GuardedMmap.next) (.new mmap os) tr) :
    StatesMeet GuardsExclusive (.new mmap os) tr ∧ StepsMeet CallKeeps (.new mmap os) tr := by
  have hnew : Exclusive (.new mmap os) := ⟨nofun, nofun, fun hidle => absurd rfl hidle⟩
  have hstates := invariant (P := Exclusive) (fun _ _ _ h hs => (h.step hs).1) hnew htr
  refine ⟨⟨hstates.1.guards, fun x hx => (hstates.2 x hx).guards⟩, ?_⟩
  exact stepsMeet_of_invariant (I := Exclusive) (fun _ _ _ h hs => (h.step hs).1)
    (fun _ _ _ h hs => (h.step hs).2) hnew htr

/-- A guard for writing is taken; `read_disk` is called, and the guard writes while that call has the
mapping; then the guard goes, and `read_disk` is called again. -/
def contended : List ((GuardEvent × GuardAnswer) × GuardedMmap) :=
  react GuardedMmap.next (.new .empty { file := [], faults := [], holes := [] })
    [.lock .write, .handle, .putBack,
      .lock .read, .edit 0 { mmap := 1, writtenLen := 1, reservedLen := 1, sparseFile := true }
        { file := [7], faults := [], holes := [] }, .handle, .putBack,
      .drop 0, .lock .read, .handle, .putBack]

theorem guards_exclusive_contended :
    StatesMeet GuardsExclusive (.new .empty { file := [], faults := [], holes := [] }) contended ∧
      StepsMeet CallKeeps (.new .empty { file := [], faults := [], holes := [] }) contended :=
  guards_exclusive .empty { file := [], faults := [], holes := [] } (isTrace_react _ _ _)

example : contended.map (·.1.2) =
    [.silent, .silent, .returned (.ok ⟨.write, 1⟩), .silent, .silent, .silent,
      .returned (.error .writeHandleOpen), .silent, .silent, .silent,
      .returned (.ok ⟨.read, 3⟩)] := by decide

end BackedData.Disks
