import Mathlib.Order.Interval.Finset.Nat
import Mathlib.Data.Finset.Card

/-!
# Busy intervals in the order of their requests

Intervals of busy cycles are added one after the other.  A request comes at a time `clock` that
does not decrease, and its interval begins then or at some end of an earlier one, so there is no
gap behind `clock`.

* `Frontier.card_union`: what an interval adds to the busy cycles is its part behind the frontier.
* `EveryStep.iff_of_inv`: two properties of every step of a run that agree under an invariant.
-/

namespace SoftHier

open Finset

/-- The busy cycles lie between `since` and `top`, and all cycles from `clock` up to `top` are
busy. -/
structure Frontier (busy : Finset Nat) (since clock top : Nat) : Prop where
  within : busy ⊆ Ico since top
  solid : Ico clock top ⊆ busy

namespace Frontier

variable {busy : Finset Nat} {since clock top t ready stop : Nat}

theorem empty : Frontier ∅ since clock 0 where
  within := Finset.empty_subset _
  solid := (Ico_eq_empty (by omega)).subset

theorem card_le (frontier : Frontier busy since clock top) : busy.card ≤ top - since := by
  have le := card_le_card frontier.within
  rwa [Nat.card_Ico] at le

/-- Only the part behind the frontier is new. -/
theorem sdiff (frontier : Frontier busy since clock top) (late : clock ≤ ready) :
    Ico ready stop \ busy = Ico (max ready top) stop := by
  ext x
  rw [mem_sdiff, mem_Ico, mem_Ico, max_le_iff]
  constructor
  · rintro ⟨⟨low, high⟩, new⟩
    refine ⟨⟨low, ?_⟩, high⟩
    by_contra before
    exact new (frontier.solid (mem_Ico.mpr ⟨late.trans low, Nat.lt_of_not_le before⟩))
  · rintro ⟨⟨low, behind⟩, high⟩
    refine ⟨⟨low, high⟩, fun old => ?_⟩
    exact absurd (mem_Ico.mp (frontier.within old)).2 (Nat.not_lt.mpr behind)

theorem card_union (frontier : Frontier busy since clock top) (late : clock ≤ ready) :
    (busy ∪ Ico ready stop).card = busy.card + (stop - max ready top) := by
  rw [union_comm, ← sdiff_union_self_eq_union, card_union_of_disjoint sdiff_disjoint,
    frontier.sdiff late, Nat.card_Ico, Nat.add_comm]

/-- An interval that begins at the new `clock` or at most at the frontier. -/
theorem union (frontier : Frontier busy since clock top) (begun : since ≤ t) (late : clock ≤ t)
    (after : t ≤ ready) (reach : ready ≤ max t top) :
    Frontier (busy ∪ Ico ready stop) since t (max top stop) where
  within := by
    intro x busy'
    rcases mem_union.mp busy' with old | new
    · have inside := mem_Ico.mp (frontier.within old)
      exact mem_Ico.mpr ⟨inside.1, lt_max_of_lt_left inside.2⟩
    · have inside := mem_Ico.mp new
      exact mem_Ico.mpr ⟨(begun.trans after).trans inside.1, lt_max_of_lt_right inside.2⟩
  solid := by
    intro x inside
    obtain ⟨low, high⟩ := mem_Ico.mp inside
    rcases Nat.lt_or_ge x top with before | behind
    · exact mem_union_left _ (frontier.solid (mem_Ico.mpr ⟨late.trans low, before⟩))
    · have new : x < stop := (lt_max_iff.mp high).resolve_left (Nat.not_lt.mpr behind)
      exact mem_union_right _ (mem_Ico.mpr ⟨reach.trans (max_le low behind), new⟩)

end Frontier

/-! ## Every step of a run -/

section

variable {σ ι : Type*} (next : σ → ι → σ)

/-- `P` holds of every state that the run from `s` reaches and the input it takes there. -/
def EveryStep (P : σ → ι → Prop) : σ → List ι → Prop
  | _, [] => True
  | s, i :: rest => P s i ∧ EveryStep P (next s i) rest

variable {next} {P Q H : σ → ι → Prop}

/-- Properties `P` and `Q` that agree wherever the invariant holds, which steps with `Q` keep. -/
theorem EveryStep.iff_of_inv (inv : σ → Prop) (agree : ∀ s i, inv s → H s i → (P s i ↔ Q s i))
    (keep : ∀ s i, inv s → H s i → Q s i → inv (next s i)) {s : σ} {run : List ι} (start : inv s)
    (given : EveryStep next H s run) : EveryStep next P s run ↔ EveryStep next Q s run := by
  induction run generalizing s with
  | nil => exact Iff.rfl
  | cons i rest ih =>
    obtain ⟨here, later⟩ := given
    unfold EveryStep
    rw [agree s i start here]
    constructor
    · rintro ⟨conforms, correct⟩
      exact ⟨conforms, (ih (keep s i start here conforms) later).mp correct⟩
    · rintro ⟨conforms, rest⟩
      exact ⟨conforms, (ih (keep s i start here conforms) later).mpr rest⟩

theorem EveryStep.and (first : EveryStep next P s run) (second : EveryStep next Q s run) :
    EveryStep next (fun s i => P s i ∧ Q s i) s run := by
  induction run generalizing s with
  | nil => trivial
  | cons i rest ih => exact ⟨⟨first.1, second.1⟩, ih first.2 second.2⟩

end

end SoftHier
