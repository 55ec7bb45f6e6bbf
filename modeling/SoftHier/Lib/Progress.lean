import Mathlib.Data.Nat.Find
import Mathlib.Order.WellFounded
import Mathlib.Order.RelClasses

/-!
# Progress of infinite runs

A run is given by predicates on its positions.  A rank that never grows, and that shrinks whenever
the run acts, leads to the goal if the run acts again and again.

* `until_goal`: up to the goal, an invariant is kept and the rank does not grow.
* `eventually_of_rank`: the first position of the goal.
-/

namespace SoftHier

variable {α : Type*} [Preorder α] {inv goal act : Nat → Prop} {rank : Nat → α}

/-- As long as the goal is not reached, the invariant is kept and the rank does not grow. -/
theorem until_goal
    (keep : ∀ n, inv n → ¬ goal n → goal (n + 1) ∨ inv (n + 1) ∧ rank (n + 1) ≤ rank n)
    {n m : Nat} (le : n ≤ m) (start : inv n) (before : ∀ k, n ≤ k → k ≤ m → ¬ goal k) :
    inv m ∧ rank m ≤ rank n := by
  induction m, le using Nat.le_induction with
  | base => exact ⟨start, le_refl _⟩
  | succ m le ih =>
    obtain ⟨here, bound⟩ := ih fun k low high => before k low (Nat.le_succ_of_le high)
    obtain reached | ⟨next, less⟩ := keep m here (before m le (Nat.le_succ m))
    · exact absurd reached (before (m + 1) (Nat.le_succ_of_le le) (Nat.le_refl _))
    · exact ⟨next, le_trans less bound⟩

/-- The run reaches the goal, and the invariant holds until then. -/
theorem eventually_of_rank [WellFoundedLT α] (inv goal act : Nat → Prop) (rank : Nat → α)
    (fair : ∀ n, inv n → ¬ goal n → ∃ m ≥ n, act m)
    (keep : ∀ n, inv n → ¬ goal n → goal (n + 1) ∨ inv (n + 1) ∧ rank (n + 1) ≤ rank n)
    (less : ∀ n, inv n → ¬ goal n → act n → goal (n + 1) ∨ rank (n + 1) < rank n) :
    ∀ n, inv n → ∃ m ≥ n, goal m ∧ ∀ k, n ≤ k → k < m → inv k ∧ ¬ goal k := by
  have reach : ∀ r : α, ∀ n, inv n → rank n = r → ∃ m ≥ n, goal m := by
    intro r
    induction r using WellFoundedLT.induction with
    | ind r ih =>
      rintro n start rfl
      by_contra never
      have before : ∀ k, n ≤ k → ¬ goal k := fun k le reached => never ⟨k, le, reached⟩
      obtain ⟨m, le, acts⟩ := fair n start (before n (Nat.le_refl n))
      obtain ⟨here, bound⟩ := until_goal keep le start fun k low _ => before k low
      have miss := before (m + 1) (Nat.le_succ_of_le le)
      obtain reached | shrinks := less m here (before m le) acts
      · exact miss reached
      · obtain reached | ⟨next, -⟩ := keep m here (before m le)
        · exact miss reached
        · obtain ⟨k, low, reached⟩ := ih _ (lt_of_lt_of_le shrinks bound) (m + 1) next rfl
          exact before k (by omega) reached
  intro n start
  classical
  have reachable := reach _ n start rfl
  obtain ⟨low, reached⟩ := Nat.find_spec reachable
  refine ⟨Nat.find reachable, low, reached, fun k from' upto => ?_⟩
  have before : ∀ j, n ≤ j → j ≤ k → ¬ goal j := fun j low high reached =>
    Nat.find_min reachable (by omega) ⟨low, reached⟩
  exact ⟨(until_goal keep from' start before).1, before k from' (Nat.le_refl k)⟩

end SoftHier
