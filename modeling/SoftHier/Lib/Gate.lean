import Mathlib.Data.Fintype.Card

/-!
# Counting gates

The members of a finite type arrive at a gate by incrementing a counter.  The one that arrives last
takes the lead: it clears the counter, holds the gate for a while and passes on.  Later the gate is
opened again and everybody may arrive anew.

* `tally`: how many members have a property.
* `Gate`: what holds between the members and the counter of a gate.
* `Gate.arrive`, `Gate.clear`, `Gate.pass`, `Gate.reopen`: the operations keep it.
-/

namespace SoftHier

variable {α : Type*} [Fintype α]

open Classical in
/-- The number of members with a property. -/
noncomputable def tally (p : α → Prop) : Nat := (Finset.univ.filter p).card

section

variable {p q : α → Prop} {a : α}

theorem tally_congr (same : ∀ a, p a ↔ q a) : tally p = tally q := by
  rw [funext fun a => propext (same a)]

theorem tally_of_none (none : ∀ a, ¬ p a) : tally p = 0 := by
  classical
  unfold tally
  rw [Finset.card_eq_zero, Finset.filter_eq_empty_iff]
  exact fun a _ => none a

/-- One more member. -/
theorem tally_insert (new : ¬ p a) (grown : ∀ b, q b ↔ p b ∨ b = a) : tally q = tally p + 1 := by
  classical
  have filter : Finset.univ.filter q = insert a (Finset.univ.filter p) := by
    ext b
    simp only [Finset.mem_filter, Finset.mem_univ, true_and, Finset.mem_insert, grown, or_comm]
  have fresh : a ∉ Finset.univ.filter p := by
    simp only [Finset.mem_filter, Finset.mem_univ, true_and]
    exact new
  unfold tally
  rw [← Finset.card_insert_of_notMem fresh]
  convert congrArg Finset.card filter

theorem tally_lt (new : ¬ p a) : tally p < Fintype.card α := by
  classical
  unfold tally
  rw [← Finset.card_univ]
  refine Finset.card_lt_card ⟨Finset.filter_subset _ _, fun all => new ?_⟩
  exact (Finset.mem_filter.mp (all (Finset.mem_univ a))).2

theorem tally_eq_card : tally p = Fintype.card α ↔ ∀ a, p a := by
  refine ⟨fun all a => ?_, fun all => ?_⟩
  · by_contra new
    exact Nat.ne_of_lt (tally_lt new) all
  · classical
    unfold tally
    rw [Finset.filter_true_of_mem fun a _ => all a, Finset.card_univ]

end

/-- While somebody is missing the counter counts the arrived; when all have arrived and nobody has
still to clear it, it is zero.  Whoever leads holds the gate, and only one holds it, after everybody
has arrived. -/
structure Gate (arrived leads holds : α → Prop) (count : Nat) : Prop where
  holds_of_leads : ∀ a, leads a → holds a
  full_of_holds : ∀ a, holds a → ∀ b, arrived b
  holds_unique : ∀ a b, holds a → holds b → a = b
  filling : ∀ a, ¬ arrived a → count = tally arrived
  cleared : (∀ a, arrived a) → (∀ a, ¬ leads a) → count = 0

namespace Gate

variable {arrived leads holds arrived' leads' holds' : α → Prop} {count : Nat} {a : α}

/-- A gate only depends on the properties of its members. -/
theorem congr (g : Gate arrived leads holds count) (ha : ∀ a, arrived' a ↔ arrived a)
    (hl : ∀ a, leads' a ↔ leads a) (hh : ∀ a, holds' a ↔ holds a) :
    Gate arrived' leads' holds' count := by
  rw [funext fun a => propext (ha a), funext fun a => propext (hl a),
    funext fun a => propext (hh a)]
  exact g

/-- While somebody is missing nobody holds the gate. -/
theorem not_holds (g : Gate arrived leads holds count) (new : ¬ arrived a) (b : α) : ¬ holds b :=
  fun hold => new (g.full_of_holds b hold a)

theorem count_lt (g : Gate arrived leads holds count) (new : ¬ arrived a) :
    count < Fintype.card α := by
  rw [g.filling a new]
  exact tally_lt new

/-- The arrival that makes everybody arrived is the last. -/
theorem last (g : Gate arrived leads holds count) (new : ¬ arrived a)
    (ha : ∀ b, arrived' b ↔ arrived b ∨ b = a) (full : ∀ b, arrived' b) :
    count + 1 = Fintype.card α := by
  rw [g.filling a new, ← tally_insert new ha]
  exact tally_eq_card.mpr full

/-- An arrival; the last to arrive takes the lead. -/
theorem arrive (g : Gate arrived leads holds count) (new : ¬ arrived a)
    (ha : ∀ b, arrived' b ↔ arrived b ∨ b = a)
    (hl : ∀ b, leads' b ↔ b = a ∧ count + 1 = Fintype.card α) (hh : ∀ b, holds' b ↔ leads' b) :
    Gate arrived' leads' holds' (count + 1) := by
  have grown : tally arrived' = count + 1 := by
    rw [g.filling a new]
    exact tally_insert new ha
  refine ⟨fun b => (hh b).mpr, fun b hold => ?_, fun b d hb hd => ?_, fun _ _ => grown.symm,
    fun all none => ?_⟩
  · rw [← tally_eq_card, grown]
    exact ((hl b).mp ((hh b).mp hold)).2
  · rw [((hl b).mp ((hh b).mp hb)).1, ((hl d).mp ((hh d).mp hd)).1]
  · rw [← tally_eq_card, grown] at all
    exact absurd ((hl a).mpr ⟨rfl, all⟩) (none a)

/-- The leader clears the counter. -/
theorem clear (g : Gate arrived leads holds count) (lead : leads a)
    (ha : ∀ b, arrived' b ↔ arrived b) (hl : ∀ b, ¬ leads' b) (hh : ∀ b, holds' b ↔ holds b) :
    Gate arrived' leads' holds' 0 := by
  have full := g.full_of_holds a (g.holds_of_leads a lead)
  refine ⟨fun b h => absurd h (hl b), fun b _ d => (ha d).mpr (full d), fun b d hb hd => ?_,
    fun b new => absurd ((ha b).mpr (full b)) new, fun _ _ => rfl⟩
  exact g.holds_unique b d ((hh b).mp hb) ((hh d).mp hd)

/-- The holder has cleared the counter and passes on. -/
theorem pass (g : Gate arrived leads holds count) (none : ∀ b, ¬ leads b)
    (ha : ∀ b, arrived' b ↔ arrived b) (hl : ∀ b, ¬ leads' b) (hh : ∀ b, ¬ holds' b) :
    Gate arrived' leads' holds' count := by
  refine ⟨fun b h => absurd h (hl b), fun b h => absurd h (hh b), fun b _ h => absurd h (hh b),
    fun b new => ?_, fun all _ => g.cleared (fun b => (ha b).mp (all b)) none⟩
  rw [g.filling b fun arr => new ((ha b).mpr arr)]
  exact (tally_congr ha).symm

/-- The gate is opened again after everybody had arrived and the counter was cleared. -/
theorem reopen (g : Gate arrived leads holds count) (full : ∀ b, arrived b)
    (none : ∀ b, ¬ leads b) (ha : ∀ b, ¬ arrived' b) (hl : ∀ b, ¬ leads' b)
    (hh : ∀ b, ¬ holds' b) : Gate arrived' leads' holds' count := by
  rw [g.cleared full none]
  exact ⟨fun b h => absurd h (hl b), fun b h => absurd h (hh b), fun b _ h => absurd h (hh b),
    fun _ _ => (tally_of_none ha).symm, fun _ _ => rfl⟩

/-- A gate nobody has arrived at. -/
theorem empty (ha : ∀ b, ¬ arrived b) (hh : ∀ b, ¬ holds b) (hl : ∀ b, ¬ leads b) :
    Gate arrived leads holds 0 :=
  ⟨fun b h => absurd h (hl b), fun b h => absurd h (hh b), fun b _ h => absurd h (hh b),
    fun _ _ => (tally_of_none ha).symm, fun _ _ => rfl⟩

end Gate

end SoftHier
