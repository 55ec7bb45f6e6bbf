import Mathlib.Data.List.Basic

/-!
# Lists of separated segments

A list in which runs of marked elements are separated by elements that are not marked.  If the
separators are known, then the list determines the runs.

* `run_inj`: the run at the start of a list.
* `segments_inj`: all runs.
-/

namespace SoftHier

section

variable {α : Type*} {marked : α → Bool}

/-- The list does not start with a marked element. -/
def Separated (marked : α → Bool) (l : List α) : Prop := l.takeWhile marked = []

theorem separated_append {sep : List α} {a : α} {l m : List α} (first : sep = a :: l)
    (plain : marked a = false) : Separated marked (sep ++ m) := by
  unfold Separated
  rw [first, List.cons_append, List.takeWhile_cons, plain, if_neg Bool.false_ne_true]

/-- The run at the start of a list ends where the list goes on without a mark. -/
theorem run_inj {run run' rest rest' : List α} (all : ∀ a ∈ run, marked a = true)
    (all' : ∀ a ∈ run', marked a = true) (next : Separated marked rest)
    (next' : Separated marked rest') (same : run ++ rest = run' ++ rest') :
    run = run' ∧ rest = rest' := by
  have taken := congrArg (List.takeWhile marked) same
  rw [List.takeWhile_append_of_pos all, List.takeWhile_append_of_pos all', next, next',
    List.append_nil, List.append_nil] at taken
  exact ⟨taken, (List.append_inj same (congrArg List.length taken)).2⟩

/-- Two lists with the same separators have the same runs. -/
theorem segments_inj (marked : α → Bool) {sep run run' : Nat → List α}
    (start : ∀ n, ∃ a l, sep n = a :: l ∧ marked a = false)
    (all : ∀ n, ∀ a ∈ run n, marked a = true) (all' : ∀ n, ∀ a ∈ run' n, marked a = true) {N : Nat}
    {rest rest' : List α} (next : Separated marked rest) (next' : Separated marked rest')
    (same : (List.range N).flatMap (fun n => sep n ++ run n) ++ rest =
      (List.range N).flatMap (fun n => sep n ++ run' n) ++ rest') :
    (∀ n < N, run n = run' n) ∧ rest = rest' := by
  induction N generalizing rest rest' with
  | zero => exact ⟨fun n less => absurd less (Nat.not_lt_zero n), same⟩
  | succ N ih =>
    simp only [List.range_succ, List.flatMap_append, List.flatMap_singleton,
      List.append_assoc] at same
    obtain ⟨a, l, first, plain⟩ := start N
    obtain ⟨before, last⟩ := ih (separated_append first plain) (separated_append first plain) same
    obtain ⟨run_eq, rest_eq⟩ :=
      run_inj (all N) (all' N) next next' (List.append_cancel_left last)
    refine ⟨fun n less => ?_, rest_eq⟩
    rcases Nat.lt_succ_iff_lt_or_eq.mp less with less | rfl
    · exact before n less
    · exact run_eq

end

end SoftHier
