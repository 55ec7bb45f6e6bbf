import SoftHier.Lib.Word

/-!
# Exchanging two bit fields

Two disjoint fields of `w` bits begin at the bits `a` and `b` of a number.

* `swapPos`: the place a bit moves to when the fields are exchanged, its own inverse.
* `IsSwap`: a number is the exchange of another one, as far as a word of `n` bits goes.
* `IsSwap.back_iff`: exchanging twice in words of `n` bits gives the number back exactly when
  neither it nor the moved fields have a bit outside of the word.
-/

namespace SoftHier

/-- Where a bit goes when the fields of `w` bits at `a` and `b` are exchanged. -/
def swapPos (a b w i : Nat) : Nat :=
  if a ≤ i ∧ i < a + w then b + (i - a)
  else if b ≤ i ∧ i < b + w then a + (i - b)
  else i

section

variable {a b w i j : Nat}

theorem swapPos_left (hj : j < w) : swapPos a b w (a + j) = b + j := by
  rw [swapPos, if_pos (by omega), Nat.add_sub_cancel_left]

theorem swapPos_right (apart : a + w ≤ b ∨ b + w ≤ a) (hj : j < w) :
    swapPos a b w (b + j) = a + j := by
  rw [swapPos, if_neg (by omega), if_pos (by omega), Nat.add_sub_cancel_left]

theorem swapPos_outside (left : i < a ∨ a + w ≤ i) (right : i < b ∨ b + w ≤ i) :
    swapPos a b w i = i := by
  rw [swapPos, if_neg (by omega), if_neg (by omega)]

/-- A bit is in one of the fields or in none. -/
theorem field_cases (a b w i : Nat) :
    (∃ j < w, i = a + j) ∨ (∃ j < w, i = b + j) ∨
      ((i < a ∨ a + w ≤ i) ∧ (i < b ∨ b + w ≤ i)) := by
  rcases Nat.lt_or_ge i a with low | above
  · rcases Nat.lt_or_ge i b with low' | above'
    · exact Or.inr (Or.inr ⟨Or.inl low, Or.inl low'⟩)
    · rcases Nat.lt_or_ge i (b + w) with inside | past
      · exact Or.inr (Or.inl ⟨i - b, by omega, by omega⟩)
      · exact Or.inr (Or.inr ⟨Or.inl low, Or.inr past⟩)
  · rcases Nat.lt_or_ge i (a + w) with inside | past
    · exact Or.inl ⟨i - a, by omega, by omega⟩
    · rcases Nat.lt_or_ge i b with low' | above'
      · exact Or.inr (Or.inr ⟨Or.inr past, Or.inl low'⟩)
      · rcases Nat.lt_or_ge i (b + w) with inside' | past'
        · exact Or.inr (Or.inl ⟨i - b, by omega, by omega⟩)
        · exact Or.inr (Or.inr ⟨Or.inr past, Or.inr past'⟩)

theorem swapPos_swapPos (apart : a + w ≤ b ∨ b + w ≤ a) (i : Nat) :
    swapPos a b w (swapPos a b w i) = i := by
  rcases field_cases a b w i with ⟨j, hj, rfl⟩ | ⟨j, hj, rfl⟩ | ⟨left, right⟩
  · rw [swapPos_left hj, swapPos_right apart hj]
  · rw [swapPos_right apart hj, swapPos_left hj]
  · rw [swapPos_outside left right, swapPos_outside left right]

/-! ## Bits of the pieces -/

/-- The bit is in the field of `w` bits at `a`. -/
def inField (a w i : Nat) : Bool := decide (a ≤ i) && decide (i - a < w)

theorem inField_add (hj : j < w) : inField a w (a + j) = true := by
  unfold inField
  rw [Nat.add_sub_cancel_left, decide_eq_true (Nat.le_add_right a j), decide_eq_true hj]
  rfl

theorem inField_outside (out : i < a ∨ a + w ≤ i) : inField a w i = false := by
  unfold inField
  rcases out with below | past
  · rw [decide_eq_false (Nat.not_le.mpr below), Bool.false_and]
  · rw [decide_eq_false (p := i - a < w) (by omega), Bool.and_false]

theorem testBit_field (x a w i : Nat) :
    ((x >>> a) &&& ((1 <<< w) - 1)).testBit i = (decide (i < w) && x.testBit (a + i)) := by
  rw [Nat.shiftLeft_eq, Nat.one_mul, Nat.testBit_and, Nat.testBit_shiftRight,
    Nat.testBit_two_pow_sub_one, Bool.and_comm]

/-! ## The exchange in a word -/

/-- `y` is `x` with the fields exchanged, cut to `n` bits. -/
def IsSwap (n a b w x y : Nat) : Prop :=
  ∀ i, y.testBit i = (decide (i < n) && x.testBit (swapPos a b w i))

/-- Neither `x` nor its moved fields leave words of `n` bits. -/
structure SwapFits (n a b w x : Nat) : Prop where
  word : x < 2 ^ n
  left : ∀ j < w, x.testBit (a + j) = true → b + j < n
  right : ∀ j < w, x.testBit (b + j) = true → a + j < n

variable {n x y z : Nat}

theorem SwapFits.lt (fits : SwapFits n a b w x) (set : x.testBit i = true) : i < n :=
  lt_of_testBit fits.word set

theorem SwapFits.swapPos_lt (fits : SwapFits n a b w x) (apart : a + w ≤ b ∨ b + w ≤ a)
    (set : x.testBit i = true) : swapPos a b w i < n := by
  rcases field_cases a b w i with ⟨j, hj, rfl⟩ | ⟨j, hj, rfl⟩ | ⟨left, right⟩
  · rw [swapPos_left hj]
    exact fits.left j hj set
  · rw [swapPos_right apart hj]
    exact fits.right j hj set
  · rw [swapPos_outside left right]
    exact fits.lt set

namespace IsSwap

/-- A bit outside of the fields stays. -/
theorem outside (swap : IsSwap n a b w x y) (fits : SwapFits n a b w x)
    (left : i < a ∨ a + w ≤ i) (right : i < b ∨ b + w ≤ i) : y.testBit i = x.testBit i := by
  rw [swap i, swapPos_outside left right]
  rcases set : x.testBit i with _ | _
  · exact Bool.and_false _
  · rw [decide_eq_true (fits.lt set), Bool.true_and]

/-- Exchanging twice gives the number back exactly when everything fits. -/
theorem back_iff (swap : IsSwap n a b w x y) (again : IsSwap n a b w y z)
    (apart : a + w ≤ b ∨ b + w ≤ a) : z = x ↔ SwapFits n a b w x := by
  have twice : ∀ i, z.testBit i =
      (decide (i < n) && (decide (swapPos a b w i < n) && x.testBit i)) := by
    intro i
    rw [again i, swap, swapPos_swapPos apart]
  constructor
  · rintro rfl
    have stay : ∀ i, z.testBit i = true → i < n ∧ swapPos a b w i < n := by
      intro i set
      have here := twice i
      rw [set, Bool.and_true, eq_comm, Bool.and_eq_true] at here
      exact ⟨of_decide_eq_true here.1, of_decide_eq_true here.2⟩
    refine ⟨?_, fun j hj set => ?_, fun j hj set => ?_⟩
    · refine Nat.lt_pow_two_of_testBit z fun i past => ?_
      rcases set : z.testBit i with _ | _
      · rfl
      · exact absurd (stay i set).1 (Nat.not_lt.mpr past)
    · have moved := (stay _ set).2
      rwa [swapPos_left hj] at moved
    · have moved := (stay _ set).2
      rwa [swapPos_right apart hj] at moved
  · intro fits
    apply Nat.eq_of_testBit_eq
    intro i
    rw [twice]
    rcases set : x.testBit i with _ | _
    · rw [Bool.and_false, Bool.and_false]
    · rw [decide_eq_true (fits.lt set), decide_eq_true (fits.swapPos_lt apart set)]
      rfl

end IsSwap

end

end SoftHier
