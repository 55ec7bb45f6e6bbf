import Mathlib.Algebra.BigOperators.Group.Finset.Basic

/-!
# Loops over independent cells

A loop whose steps each change one cell of a state, read by a function, and nested loops.

* `foldl_kept`, `foldl_once`: a cell that no step changes, and one that a single step changes.
* `flatMap_range_mul`: two nested loops.
* `foldl_add`: a loop that adds up.
* `block_lt`, `block_inj`: a number as a block and a place in it.
* `foldlM_range`: a loop with steps that can fail, its invariant and the condition of each step.
* `foldlM_total`: a loop whose steps keep an invariant and do not fail.
-/

namespace SoftHier

section

variable {ι σ α : Type*} {l : List ι} {step : σ → ι → σ} (read : σ → α)

theorem foldl_kept (kept : ∀ s ∈ l, ∀ z, read (step z s) = read z) (z : σ) :
    read (l.foldl step z) = read z := by
  induction l generalizing z with
  | nil => rfl
  | cons s l ih =>
    rw [List.foldl_cons, ih fun t mem => kept t (List.mem_cons_of_mem s mem)]
    exact kept s List.mem_cons_self z

/-- The step of `t` is the only one that changes the cell. -/
theorem foldl_once (g : α → α) {t : ι} (nodup : l.Nodup) (mem : t ∈ l)
    (kept : ∀ s ∈ l, s ≠ t → ∀ z, read (step z s) = read z)
    (here : ∀ z, read (step z t) = g (read z)) (z : σ) : read (l.foldl step z) = g (read z) := by
  induction l generalizing z with
  | nil => cases mem
  | cons s l ih =>
    obtain ⟨notMem, nodup'⟩ := List.nodup_cons.mp nodup
    rw [List.foldl_cons]
    rcases List.mem_cons.mp mem with rfl | later
    · have rest : ∀ s ∈ l, ∀ z, read (step z s) = read z := fun s mem' =>
        kept s (List.mem_cons_of_mem t mem') fun same => notMem (same ▸ mem')
      rw [foldl_kept read rest, here]
    · have other : s ≠ t := fun same => notMem (same ▸ later)
      rw [ih nodup' later fun s' mem' => kept s' (List.mem_cons_of_mem s mem'),
        kept s List.mem_cons_self other]

end

/-- A loop over the numbers below a product is two nested ones. -/
theorem flatMap_range_mul {α : Type*} (f : Nat → List α) (m n : Nat) :
    (List.range (m * n)).flatMap f =
    (List.range m).flatMap fun i => (List.range n).flatMap fun j => f (i * n + j) := by
  induction m with
  | zero => rw [Nat.zero_mul, List.range_zero, List.flatMap_nil, List.flatMap_nil]
  | succ m ih =>
    rw [Nat.succ_mul, List.range_add, List.flatMap_append, ih, List.range_succ, List.flatMap_append,
      List.flatMap_singleton, List.flatMap_map]

theorem foldl_add {R : Type*} [AddCommMonoid R] (f : Nat → R) (a : R) (n : Nat) :
    (List.range n).foldl (fun acc k => acc + f k) a = a + ∑ k ∈ Finset.range n, f k := by
  induction n with
  | zero => exact (add_zero a).symm
  | succ n ih =>
    rw [List.range_succ, List.foldl_append, ih, Finset.sum_range_succ, ← add_assoc]
    rfl

/-- A loop whose step `i` fails exactly without `ok i`: it ends with the invariant, or some step
fails. -/
theorem foldlM_range {σ : Type*} {step : σ → Nat → Option σ} (inv : Nat → σ → Prop)
    (ok : Nat → Prop) {n : Nat} {s : σ} (start : inv 0 s)
    (next : ∀ i < n, ∀ t, inv i t → ok i → ∃ u, step t i = some u ∧ inv (i + 1) u)
    (stuck : ∀ i < n, ∀ t, inv i t → ¬ ok i → step t i = none) :
    ((∀ i < n, ok i) ∧ ∃ u, (List.range n).foldlM step s = some u ∧ inv n u) ∨
      (∃ i < n, ¬ ok i) ∧ (List.range n).foldlM step s = none := by
  induction n with
  | zero => exact .inl ⟨fun _ less => absurd less (Nat.not_lt_zero _), s, rfl, start⟩
  | succ n ih =>
    rw [List.range_succ, List.foldlM_append]
    rcases ih (fun i less => next i (Nat.lt_succ_of_lt less))
      (fun i less => stuck i (Nat.lt_succ_of_lt less)) with ⟨before, t, run, holds⟩ | ⟨failed, run⟩
    · rw [run]
      rcases Classical.em (ok n) with last | last
      · obtain ⟨u, stepped, kept⟩ := next n (Nat.lt_succ_self n) t holds last
        refine .inl ⟨fun i less => ?_, u, ?_, kept⟩
        · rcases Nat.lt_succ_iff_lt_or_eq.mp less with less | rfl
          · exact before i less
          · exact last
        · simp [stepped]
      · refine .inr ⟨⟨n, Nat.lt_succ_self n, last⟩, ?_⟩
        simp [stuck n (Nat.lt_succ_self n) t holds last]
    · obtain ⟨i, less, bad⟩ := failed
      rw [run]
      exact .inr ⟨⟨i, Nat.lt_succ_of_lt less, bad⟩, rfl⟩

/-- A loop whose steps do not fail. -/
theorem foldlM_total {σ : Type*} {step : σ → Nat → Option σ} (inv : Nat → σ → Prop) {n : Nat}
    {s : σ} (start : inv 0 s)
    (next : ∀ i < n, ∀ t, inv i t → ∃ u, step t i = some u ∧ inv (i + 1) u) :
    ∃ u, (List.range n).foldlM step s = some u ∧ inv n u := by
  rcases foldlM_range inv (fun _ => True) start (fun i less t here _ => next i less t here)
    (fun _ _ _ _ never => absurd trivial never) with ⟨-, ended⟩ | ⟨⟨_, _, never⟩, -⟩
  · exact ended
  · exact absurd trivial never

theorem block_lt {blocks width i j : Nat} (hi : i < blocks) (hj : j < width) :
    i * width + j < blocks * width := by
  have le := Nat.mul_le_mul_right width (Nat.succ_le_of_lt hi)
  rw [Nat.succ_mul] at le
  omega

/-- A number as a block and a place in it. -/
theorem block_inj {width a b c d : Nat} (hb : b < width) (hd : d < width)
    (same : a * width + b = c * width + d) : a = c ∧ b = d := by
  have pos : 0 < width := Nat.zero_lt_of_lt hb
  have split : b + width * a = c * width + d := by
    rw [Nat.mul_comm width, Nat.add_comm]
    exact same
  obtain ⟨block, place⟩ := (Nat.div_mod_unique pos).mpr ⟨split, hb⟩
  rw [Nat.mul_comm, Nat.mul_add_div pos, Nat.div_eq_of_lt hd, Nat.add_zero] at block
  rw [Nat.mul_comm, Nat.mul_add_mod, Nat.mod_eq_of_lt hd] at place
  exact ⟨block.symm, place.symm⟩

end SoftHier
