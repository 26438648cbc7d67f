/-
# BackedData.Logic.SizeHint — iterators that count their position, and the hint they take from it

An iterator over a sequence of known length that counts the elements it has passed can report how many
are left as the difference, as long as the count does not run past the length.  `Counts` says how the
count moves: by `n + 1` where a call finds an item; where a call is made exactly at the end the position
either `stays` there, or moves on as if there had been an item.  `exact_iff` is what follows: the hint
behind a run of calls is exact if and only if every call of the run was `Within` what was left.

A call, or a hint, that does not return is `none`.
-/
import BackedData.Logic.Slices

namespace Logic.SizeHint

open Logic.Slices

set_option autoImplicit false

universe u v

/-- An iterator: `nth`, and `size_hint` with its lower and its upper bound. -/
structure Hinted (σ : Type u) (α : Type v) where
  nth : Nat → σ → Option (Option α × σ)
  sizeHint : σ → Option (Nat × Option Nat)

variable {σ : Type u} {α : Type v}

namespace Hinted

variable (it : Hinted σ α)

/-- The state behind a run of calls. -/
def after : List Call → σ → Option σ
  | [], s => some s
  | c :: cs, s =>
      match it.nth c.skip s with
      | none => none
      | some (_, s) => after cs s

/-- How many items `k` further calls of `next` yield; behind a call that does not return there are none. -/
def yielded : Nat → σ → Nat
  | 0, _ => 0
  | k + 1, s =>
      match it.nth 0 s with
      | none => 0
      | some (none, s) => yielded k s
      | some (some _, s) => yielded k s + 1

/-- **`Exact it s`** — the hint returns, its bounds agree, and they are the number of items that further
calls of `next` yield. -/
def Exact (s : σ) : Prop :=
  ∃ r, it.sizeHint s = some (r, some r) ∧ ∀ k, it.yielded k s = min k r

end Hinted

/-- **`Within stays left cs`** — every call finds an item, or is made exactly at the end, where the
position stays. -/
def Within (stays : Bool) : Nat → List Call → Prop
  | _, [] => True
  | left, c :: cs =>
      (c.skip < left ∨ stays = true ∧ c.skip = left) ∧ Within stays (left - (c.skip + 1)) cs

instance decidableWithin (stays : Bool) : ∀ (left : Nat) (cs : List Call), Decidable (Within stays left cs)
  | _, [] => isTrue trivial
  | left, c :: cs =>
      have := decidableWithin stays (left - (c.skip + 1)) cs
      inferInstanceAs (Decidable ((c.skip < left ∨ stays = true ∧ c.skip = left) ∧ _))

/-- **`Counts it len stays pos I J`** — how the position moves.  `I` holds while it has not run past the
length, and `J` of every state a call leaves. -/
structure Counts (it : Hinted σ α) (len : Nat) (stays : Bool) (pos : σ → Nat) (I J : σ → Prop) :
    Prop where
  forget : ∀ s, I s → J s
  item : ∀ s n, I s → pos s + n < len →
    ∃ x t, it.nth n s = some (some x, t) ∧ I t ∧ pos t = pos s + n + 1
  stay : ∀ s n, stays = true → I s → pos s + n = len →
    ∃ t, it.nth n s = some (none, t) ∧ I t ∧ pos t = len
  onward : ∀ s n r t, J s → it.nth n s = some (r, t) → J t ∧ pos s + n ≤ pos t
  leave : ∀ s n r t, stays = false → J s → it.nth n s = some (r, t) →
    pos s + n < pos t ∧ (len ≤ pos s + n → r = none)
  hint : ∀ s, J s → it.sizeHint s =
    if pos s ≤ len then some (len - pos s, some (len - pos s)) else none

section Counts

variable {it : Hinted σ α} {len : Nat} {stays : Bool} {pos : σ → Nat} {I J : σ → Prop}
  (h : Counts it len stays pos I J)

include h

/-- Where the position does not stay, there is nothing behind the end. -/
theorem Counts.yielded_past (hstays : stays = false) (k : Nat) {s : σ} (hs : J s) (hp : len ≤ pos s) :
    it.yielded k s = 0 := by
  induction k generalizing s with
  | zero => rfl
  | succ k ih =>
      unfold Hinted.yielded
      rcases hn : it.nth 0 s with _ | ⟨r, t⟩
      · rfl
      · obtain ⟨ht, hle⟩ := h.onward s 0 r t hs hn
        have hnone := (h.leave s 0 r t hstays hs hn).2 hp
        subst hnone
        exact ih ht (by omega)

/-- **What is left is what is yielded.** -/
theorem Counts.yielded_eq (k : Nat) {s : σ} (hs : I s) (hp : pos s ≤ len) :
    it.yielded k s = min k (len - pos s) := by
  induction k generalizing s with
  | zero => simp [Hinted.yielded]
  | succ k ih =>
      rcases Nat.lt_or_eq_of_le hp with hlt | heq
      · obtain ⟨x, t, hn, ht, hpos⟩ := h.item s 0 hs hlt
        have := ih ht (by omega)
        unfold Hinted.yielded
        rw [hn]
        show it.yielded k t + 1 = _
        omega
      · have hgoal : it.yielded (k + 1) s = 0 := by
          cases hstays : stays with
          | false => exact h.yielded_past hstays (k + 1) (h.forget s hs) (Nat.le_of_eq heq.symm)
          | true =>
              obtain ⟨t, hn, ht, hpos⟩ := h.stay s 0 hstays hs heq
              have := ih ht (Nat.le_of_eq hpos)
              unfold Hinted.yielded
              rw [hn]
              show it.yielded k t = 0
              omega
        rw [hgoal]
        omega

/-- The hint of a state whose position is past the length does not return. -/
theorem Counts.hint_past {s : σ} (hs : J s) (hp : len < pos s) : it.sizeHint s = none := by
  rw [h.hint s hs, if_neg (Nat.not_le.mpr hp)]

/-- Once past the length, the position stays past it. -/
theorem Counts.after_past (cs : List Call) {s t : σ} (hs : J s) (hp : len < pos s)
    (ht : it.after cs s = some t) : J t ∧ len < pos t := by
  induction cs generalizing s with
  | nil =>
      obtain rfl : s = t := Option.some.inj ht
      exact ⟨hs, hp⟩
  | cons c cs ih =>
      unfold Hinted.after at ht
      rcases hn : it.nth c.skip s with _ | ⟨r, u⟩
      · rw [hn] at ht
        cases ht
      · rw [hn] at ht
        obtain ⟨hu, hle⟩ := h.onward s c.skip r u hs hn
        exact ih hu (by omega) ht

/-- **The exact condition.** -/
theorem Counts.exact_iff (cs : List Call) {s : σ} (hs : I s) (hp : pos s ≤ len) :
    (∃ t, it.after cs s = some t ∧ it.Exact t) ↔ Within stays (len - pos s) cs := by
  induction cs generalizing s with
  | nil =>
      refine ⟨fun _ => trivial, fun _ => ⟨s, rfl, len - pos s, ?_, fun k => h.yielded_eq k hs hp⟩⟩
      rw [h.hint s (h.forget s hs), if_pos hp]
  | cons c cs ih =>
      unfold Hinted.after Within
      rcases Nat.lt_or_ge (pos s + c.skip) len with hlt | hge
      · obtain ⟨x, t, hn, ht, hpos⟩ := h.item s c.skip hs hlt
        have hleft : len - pos s - (c.skip + 1) = len - pos t := by omega
        have hin : c.skip < len - pos s := by omega
        rw [hn, hleft]
        show (∃ u, it.after cs t = some u ∧ it.Exact u) ↔ _
        rw [ih ht (by omega)]
        exact ⟨fun hw => ⟨Or.inl hin, hw⟩, fun hw => hw.2⟩
      · by_cases hend : stays = true ∧ pos s + c.skip = len
        · obtain ⟨t, hn, ht, hpos⟩ := h.stay s c.skip hend.1 hs hend.2
          have hleft : len - pos s - (c.skip + 1) = len - pos t := by omega
          have hin : c.skip = len - pos s := by omega
          rw [hn, hleft]
          show (∃ u, it.after cs t = some u ∧ it.Exact u) ↔ _
          rw [ih ht (Nat.le_of_eq hpos)]
          exact ⟨fun hw => ⟨Or.inr ⟨hend.1, hin⟩, hw⟩, fun hw => hw.2⟩
        · -- the call runs past the length, and the position never comes back
          constructor
          · rintro ⟨t, ht, r, hhint, -⟩
            exfalso
            rcases hn : it.nth c.skip s with _ | ⟨x, u⟩
            · rw [hn] at ht
              cases ht
            · rw [hn] at ht
              obtain ⟨hu, hle⟩ := h.onward s c.skip x u (h.forget s hs) hn
              have hpast : len < pos u := by
                cases hstays : stays with
                | false =>
                    have := (h.leave s c.skip x u hstays (h.forget s hs) hn).1
                    omega
                | true =>
                    have : pos s + c.skip ≠ len := fun heq => hend ⟨hstays, heq⟩
                    omega
              obtain ⟨ht', hpast'⟩ := h.after_past cs hu hpast ht
              rw [h.hint_past ht' hpast'] at hhint
              cases hhint
          · rintro ⟨hin | ⟨hstays, heq⟩, -⟩
            · omega
            · exact absurd ⟨hstays, by omega⟩ hend

end Counts

end Logic.SizeHint
