import Mathlib.Algebra.BigOperators.Group.List.Lemmas
import Mathlib.Algebra.Order.BigOperators.Group.List
import Mathlib.Algebra.Group.Action.Defs
import Mathlib.Algebra.Order.Ring.Nat

/-!
# Expanding items into outputs

An item is replaced by finitely many items and puts out finitely many outputs.  `expand` follows all
of them until nothing is left, `Pool` keeps a collection of them of which any one may be expanded
next, in one of several ways.

* `expand_isSome`: items whose rank decreases are expanded completely.
* `count_expand`: a weight that every expansion conserves counts the outputs.
* `expandCount_eq`: the number of marked items in the expansion does not depend on the bound.
* `Pool.total_replace`: the same for a pool, whichever item is expanded next.
* `Pool.size_replace_lt`: expanding into fewer than `k` items of smaller rank shrinks a pool.
-/

namespace SoftHier

variable {α β : Type*}

/-- Everything an item puts out, if `n` generations are enough. -/
def expand (step : α → List α × List β) : Nat → α → Option (List β)
  | 0, _ => none
  | n + 1, a => ((step a).1.mapM (expand step n)).map fun outs => (step a).2 ++ outs.flatten

section

variable {step : α → List α × List β}

theorem mapM_eq_some_of_forall (f : α → Option (List β)) (as : List α)
    (all : ∀ a ∈ as, ∃ out, f a = some out) : ∃ outs, as.mapM f = some outs := by
  induction as with
  | nil => exact ⟨[], rfl⟩
  | cons a as ih =>
      obtain ⟨out, here⟩ := all a List.mem_cons_self
      obtain ⟨outs, rest⟩ := ih fun b hb => all b (List.mem_cons_of_mem _ hb)
      exact ⟨out :: outs, by rw [List.mapM_cons, here, rest]; rfl⟩

/-- Items whose rank decreases are expanded completely. -/
theorem expand_isSome (Ok : α → Prop) (rank : α → Nat)
    (smaller : ∀ a, Ok a → ∀ b ∈ (step a).1, Ok b ∧ rank b < rank a) (n : Nat) (a : α) (ok : Ok a)
    (enough : rank a < n) : ∃ out, expand step n a = some out := by
  induction n generalizing a with
  | zero => exact absurd enough (Nat.not_lt_zero _)
  | succ n ih =>
      obtain ⟨outs, all⟩ := mapM_eq_some_of_forall (expand step n) (step a).1
        fun b hb => ih b (smaller a ok b hb).1 (by have := (smaller a ok b hb).2; omega)
      exact ⟨_, by rw [expand, all]; rfl⟩

variable [DecidableEq β]

theorem count_mapM {f : α → Option (List β)} {w : α → Nat} {p : β} {as : List α}
    {outs : List (List β)} (counts : ∀ a ∈ as, ∀ out, f a = some out → w a = out.count p)
    (all : as.mapM f = some outs) : (as.map w).sum = outs.flatten.count p := by
  induction as generalizing outs with
  | nil =>
      obtain rfl : outs = [] := (Option.some.inj all).symm
      rfl
  | cons a as ih =>
      rw [List.mapM_cons] at all
      cases here : f a with
      | none =>
          rw [here] at all
          cases all
      | some out =>
          cases rest : as.mapM f with
          | none =>
              rw [here, rest] at all
              cases all
          | some tail =>
              rw [here, rest] at all
              obtain rfl : out :: tail = outs := Option.some.inj all
              rw [List.map_cons, List.sum_cons, List.flatten_cons, List.count_append,
                counts a List.mem_cons_self out here,
                ih (fun b hb => counts b (List.mem_cons_of_mem _ hb)) rest]

/-- A weight that every expansion conserves counts the outputs. -/
theorem count_expand (Ok : α → Prop) (w : α → Nat) (p : β)
    (closed : ∀ a, Ok a → ∀ b ∈ (step a).1, Ok b)
    (conserve : ∀ a, Ok a → w a = ((step a).1.map w).sum + (step a).2.count p) {n : Nat} {a : α}
    (ok : Ok a) {out : List β} (h : expand step n a = some out) : w a = out.count p := by
  induction n generalizing a out with
  | zero => cases h
  | succ n ih =>
      rw [expand] at h
      obtain ⟨outs, all, rfl⟩ := Option.map_eq_some_iff.mp h
      rw [conserve a ok, List.count_append, Nat.add_comm,
        count_mapM (fun b hb out h => ih (closed a ok b hb) h) all]

end

/-! ## Counting marked items -/

/-- How often an item and everything it expands into is marked, over `n` generations. -/
def expandCount (step : α → List α × List β) (mark : α → Nat) : Nat → α → Nat
  | 0, _ => 0
  | n + 1, a => mark a + ((step a).1.map (expandCount step mark n)).sum

/-- Beyond the rank of an item the number of generations does not matter. -/
theorem expandCount_eq {step : α → List α × List β} (mark : α → Nat) (Ok : α → Prop)
    (rank : α → Nat) (smaller : ∀ a, Ok a → ∀ b ∈ (step a).1, Ok b ∧ rank b < rank a) {n k : Nat}
    {a : α} (ok : Ok a) (hn : rank a < n) (hk : rank a < k) :
    expandCount step mark n a = expandCount step mark k a := by
  induction n generalizing a k with
  | zero => exact absurd hn (Nat.not_lt_zero _)
  | succ n ih =>
      obtain ⟨k, rfl⟩ : ∃ j, k = j + 1 := ⟨k - 1, by omega⟩
      rw [expandCount, expandCount]
      congr 2
      refine List.map_congr_left fun b hb => ?_
      obtain ⟨okb, less⟩ := smaller a ok b hb
      exact ih okb (by omega) (by omega)

/-! ## Pools -/

/-- Items on their way and what was put out so far. -/
structure Pool (α β : Type*) where
  items : List α
  out : List β
  deriving DecidableEq

namespace Pool

variable [BEq α]

/-- One item is replaced by the items and outputs of `r`. -/
def replace (s : Pool α β) (a : α) (r : List α × List β) : Pool α β :=
  ⟨s.items.erase a ++ r.1, s.out ++ r.2⟩

theorem mem_replace {s : Pool α β} {a b : α} {r : List α × List β}
    (h : b ∈ (s.replace a r).items) : b ∈ s.items ∨ b ∈ r.1 :=
  (List.mem_append.mp h).imp List.mem_of_mem_erase id

variable [LawfulBEq α]

theorem sum_map_erase (w : α → Nat) {as : List α} {a : α} (ha : a ∈ as) :
    (as.map w).sum = w a + ((as.erase a).map w).sum :=
  ((List.perm_cons_erase ha).map w).sum_nat

/-- The weight of the items together with the outputs equal to `p`. -/
def total [DecidableEq β] (w : α → Nat) (p : β) (s : Pool α β) : Nat :=
  (s.items.map w).sum + s.out.count p

/-- Replacing an item by items and outputs of the same weight keeps the total. -/
theorem total_replace [DecidableEq β] {w : α → Nat} {p : β} {s : Pool α β} {a : α}
    {r : List α × List β} (ha : a ∈ s.items)
    (conserve : w a = (r.1.map w).sum + r.2.count p) :
    (s.replace a r).total w p = s.total w p := by
  have taken := sum_map_erase w ha
  unfold total replace
  simp only [List.map_append, List.sum_append, List.count_append]
  omega

/-- A measure of a pool whose items expand into fewer than `k` items of smaller rank. -/
def size (k : Nat) (rank : α → Nat) (s : Pool α β) : Nat :=
  (s.items.map fun a => k ^ rank a).sum

theorem size_replace_lt {k : Nat} {rank : α → Nat} {s : Pool α β} {a : α} {r : List α × List β}
    (ha : a ∈ s.items) (few : r.1.length < k) (smaller : ∀ b ∈ r.1, rank b < rank a) :
    (s.replace a r).size k rank < s.size k rank := by
  have kpos : 0 < k := by omega
  have taken := sum_map_erase (fun a => k ^ rank a) ha
  have shrinks : (r.1.map fun b => k ^ rank b).sum < k ^ rank a := by
    cases hr : rank a with
    | zero =>
      have none : r.1 = [] := List.eq_nil_iff_forall_not_mem.mpr fun b hb => by
        have := smaller b hb
        omega
      rw [none]
      simp
    | succ n =>
      have each : ∀ x ∈ r.1.map fun b => k ^ rank b, x ≤ k ^ n := by
        intro x hx
        obtain ⟨b, hb, rfl⟩ := List.mem_map.mp hx
        exact Nat.pow_le_pow_right kpos (by have := smaller b hb; omega)
      have bound := List.sum_le_card_nsmul _ _ each
      rw [List.length_map, smul_eq_mul] at bound
      calc _ ≤ r.1.length * k ^ n := bound
        _ < k * k ^ n := Nat.mul_lt_mul_of_pos_right few (Nat.pow_pos kpos)
        _ = k ^ (n + 1) := (Nat.pow_succ').symm
  unfold size replace
  simp only [List.map_append, List.sum_append]
  omega

end Pool

end SoftHier
