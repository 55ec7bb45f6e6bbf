import Mathlib.Data.List.Basic
import Mathlib.Data.List.Nodup
import Mathlib.Tactic.Common

/-!
# Positions of marked elements

`positions p xs` lists, in ascending order, where the elements of `xs` with the property `p` stand.

* `mem_positions`, `positions_pairwise`: which positions these are.
* `map_getElem_positions`: the elements there are `xs.filter p`.
* `positions_flatten`: the positions in a sequence of blocks of `m` elements with `n` marks each are
  computed from the positions in the blocks.
* `of_map_range`: what follows for a function that runs through the positions.
-/

namespace SoftHier

variable {α : Type*} (p : α → Bool)

/-- Where the elements with the property `p` stand. -/
def positions : List α → List Nat
  | [] => []
  | x :: xs => (if p x then [0] else []) ++ (positions xs).map (· + 1)

theorem positions_cons (x : α) (xs : List α) :
    positions p (x :: xs) = (if p x then [0] else []) ++ (positions p xs).map (· + 1) := rfl

theorem positions_append (xs ys : List α) :
    positions p (xs ++ ys) = positions p xs ++ (positions p ys).map (xs.length + ·) := by
  induction xs with
  | nil => simp [positions]
  | cons x xs ih =>
      rw [List.cons_append, positions_cons, positions_cons, ih, List.map_append, List.append_assoc,
        List.map_map, List.length_cons]
      congr 2
      apply List.map_congr_left
      intro k _
      show xs.length + k + 1 = xs.length + 1 + k
      omega

theorem mem_positions {xs : List α} {k : Nat} : k ∈ positions p xs ↔ ∃ x ∈ xs[k]?, p x = true := by
  induction xs generalizing k with
  | nil => simp [positions]
  | cons x xs ih =>
      rw [positions_cons, List.mem_append, List.mem_map]
      cases k with
      | zero => by_cases hx : p x <;> simp [hx]
      | succ k =>
          have here : ¬ k + 1 ∈ if p x = true then [0] else [] := by
            split
            · simp
            · exact List.not_mem_nil
          constructor
          · rintro (first | ⟨j, hj, same⟩)
            · exact absurd first here
            · obtain rfl : j = k := Nat.succ.inj same
              rw [List.getElem?_cons_succ]
              exact ih.mp hj
          · intro later
            rw [List.getElem?_cons_succ] at later
            exact Or.inr ⟨k, ih.mpr later, rfl⟩

theorem lt_of_mem_positions {xs : List α} {k : Nat} (hk : k ∈ positions p xs) : k < xs.length := by
  obtain ⟨x, hx, -⟩ := (mem_positions p).mp hk
  exact (List.getElem?_eq_some_iff.mp hx).1

theorem positions_pairwise (xs : List α) : (positions p xs).Pairwise (· < ·) := by
  induction xs with
  | nil => exact .nil
  | cons x xs ih =>
      rw [positions_cons, List.pairwise_append]
      refine ⟨?_, List.pairwise_map.mpr (ih.imp Nat.succ_lt_succ), fun a ha b hb => ?_⟩
      · split
        · exact List.pairwise_singleton _ _
        · exact .nil
      · obtain ⟨k, -, rfl⟩ := List.mem_map.mp hb
        have zero : a = 0 := by
          split at ha
          · exact List.mem_singleton.mp ha
          · cases ha
        rw [zero]
        exact Nat.succ_pos k

/-- The marked elements, by their positions. -/
theorem map_getElem_positions (xs : List α) :
    (positions p xs).map (xs[·]?) = (xs.filter p).map some := by
  induction xs with
  | nil => rfl
  | cons x xs ih =>
      have rest : ((positions p xs).map (· + 1)).map ((x :: xs)[·]?) =
          (positions p xs).map (xs[·]?) := by
        rw [List.map_map]
        exact List.map_congr_left fun k _ => List.getElem?_cons_succ
      rw [positions_cons, List.map_append, rest, ih]
      by_cases hx : p x
      · simp [hx]
      · simp [hx]

theorem length_positions (xs : List α) : (positions p xs).length = (xs.filter p).length := by
  have lengths := congrArg List.length (map_getElem_positions p xs)
  simpa using lengths

theorem filterMap_positions (xs : List α) :
    (positions p xs).filterMap (xs[·]?) = xs.filter p := by
  have values := congrArg (List.filterMap id) (map_getElem_positions p xs)
  rw [List.filterMap_map, List.filterMap_map] at values
  exact values.trans List.filterMap_some

/-- The `i`-th mark of a sequence of blocks of `m` elements with `n` marks each stands in block
`i / n`. -/
theorem positions_flatten {n m : Nat} (npos : 0 < n) (blocks : List (List α))
    (lengths : ∀ b ∈ blocks, b.length = m) (marks : ∀ b ∈ blocks, (b.filter p).length = n) :
    positions p blocks.flatten =
      (blocks.flatMap (positions p)).mapIdx fun i k => i / n * m + k := by
  induction blocks with
  | nil => rfl
  | cons b blocks ih =>
      have len := lengths b List.mem_cons_self
      have num : (positions p b).length = n :=
        (length_positions p b).trans (marks b List.mem_cons_self)
      have tail := ih (fun c hc => lengths c (List.mem_cons_of_mem _ hc))
        (fun c hc => marks c (List.mem_cons_of_mem _ hc))
      rw [List.flatten_cons, positions_append, tail, List.flatMap_cons, List.mapIdx_append, num,
        len]
      congr 1
      · apply List.ext_getElem
        · rw [List.length_mapIdx]
        · intro i hi _
          rw [List.getElem_mapIdx, Nat.div_eq_of_lt (num ▸ hi), Nat.zero_mul, Nat.zero_add]
      · apply List.ext_getElem
        · rw [List.length_map, List.length_mapIdx, List.length_mapIdx]
        · intro i _ _
          rw [List.getElem_map, List.getElem_mapIdx, List.getElem_mapIdx,
            Nat.add_div_right i npos, Nat.succ_mul]
          omega

/-- A function that runs through the positions meets each of them once, at its element. -/
theorem of_map_range {f : Nat → Nat} {n : Nat} {xs : List α}
    (runs : (List.range n).map f = positions p xs) :
    (∀ i < n, ∃ x, xs[f i]? = some x ∧ (xs.filter p)[i]? = some x ∧ p x = true) ∧
      (∀ i < n, ∀ j < i, f j ≠ f i) ∧ ∀ k, (∃ x ∈ xs[k]?, p x = true) → ∃ i < n, f i = k := by
  have values := map_getElem_positions p xs
  rw [← runs, List.map_map] at values
  have distinct : ((List.range n).map f).Nodup := by
    rw [runs]
    exact (positions_pairwise p xs).imp Nat.ne_of_lt
  refine ⟨fun i hi => ?_, fun i hi j hj same => ?_, fun k marked => ?_⟩
  · have mem : f i ∈ positions p xs := runs ▸ List.mem_map_of_mem (List.mem_range.mpr hi)
    obtain ⟨x, hx, marked⟩ := (mem_positions p).mp mem
    have here := congrArg (·[i]?) values
    simp only [List.getElem?_map, List.getElem?_range hi, Option.map_some,
      Function.comp_apply] at here
    rw [hx] at here
    refine ⟨x, hx, ?_, marked⟩
    cases found : (xs.filter p)[i]? with
    | none =>
        rw [found] at here
        cases here
    | some y =>
        rw [found] at here
        exact (Option.some.inj here).symm
  · have equal := List.inj_on_of_nodup_map distinct (List.mem_range.mpr (Nat.lt_trans hj hi))
      (List.mem_range.mpr hi) same
    exact absurd equal (Nat.ne_of_lt hj)
  · have mem := (mem_positions p).mpr marked
    rw [← runs] at mem
    obtain ⟨i, hi, rfl⟩ := List.mem_map.mp mem
    exact ⟨i, List.mem_range.mp hi, rfl⟩

end SoftHier
