import Mathlib.Data.Nat.Bitwise

/-!
# Interleaving over banks

Words of `width` addresses are dealt to `banks` banks in turn.

* `interleave`: the bank and the offset in it of an address.
* `interleave_injective`: no two addresses share a place in a bank.
* `interleave_add`: inside a word the offset in the bank follows the address.
* `interleave_shift`: the same for powers of two, with shifts and masks; `testBit_takeOut`: the bits
  of the offset in the bank.
* `interleaveBy`: the banks of each row in an order of its own; `interleaveBy_injective`.
-/

namespace SoftHier

/-- The bank and the offset in it of address `x`. -/
def interleave (banks width x : Nat) : Nat × Nat :=
  (x / width % banks, x / width / banks * width + x % width)

section

variable {banks width x y i : Nat}

theorem interleave_fst_lt (some : 0 < banks) : (interleave banks width x).1 < banks :=
  Nat.mod_lt _ some

/-- The offset in the bank is at the same place of its word. -/
theorem interleave_snd_mod (banks width x : Nat) :
    (interleave banks width x).2 % width = x % width := by
  unfold interleave
  rw [Nat.mul_comm, Nat.mul_add_mod, Nat.mod_mod]

/-- The word of the bank. -/
theorem interleave_snd_div (pos : 0 < width) :
    (interleave banks width x).2 / width = x / width / banks := by
  unfold interleave
  rw [Nat.mul_comm, Nat.mul_add_div pos, Nat.mod_div_self, Nat.add_zero]

/-- The bank and the row of the word, and the place in the word, give the address. -/
theorem eq_of_interleave (pos : 0 < width) (bank : x / width % banks = y / width % banks)
    (offset : (interleave banks width x).2 = (interleave banks width y).2) : x = y := by
  have row : x / width / banks = y / width / banks := by
    have words := congrArg (· / width) offset
    rwa [interleave_snd_div pos, interleave_snd_div pos] at words
  have byte : x % width = y % width := by
    have places := congrArg (· % width) offset
    rwa [interleave_snd_mod, interleave_snd_mod] at places
  have word : x / width = y / width := by
    rw [← Nat.div_add_mod (x / width) banks, ← Nat.div_add_mod (y / width) banks, row, bank]
  rw [← Nat.div_add_mod x width, ← Nat.div_add_mod y width, word, byte]

theorem interleave_injective (banks : Nat) (pos : 0 < width) :
    Function.Injective (interleave banks width) := fun _ _ same =>
  eq_of_interleave pos (congrArg Prod.fst same) (congrArg Prod.snd same)

theorem interleave_add (inside : x % width + i < width) :
    interleave banks width (x + i) =
      ((interleave banks width x).1, (interleave banks width x).2 + i) := by
  have small : i < width := by omega
  have pos : 0 < width := Nat.zero_lt_of_lt small
  have word : (x + i) / width = x / width := by
    rw [Nat.add_div pos, Nat.div_eq_of_lt small, Nat.mod_eq_of_lt small, if_neg (by omega),
      Nat.add_zero]
  have byte : (x + i) % width = x % width + i := by
    rw [Nat.add_mod, Nat.mod_eq_of_lt small, Nat.mod_eq_of_lt inside]
  unfold interleave
  rw [word, byte, Nat.add_assoc]

/-- The bank and the offset in it of address `x` when a row deals its words in its own order. -/
def interleaveBy (order : Nat → Nat → Nat) (banks width x : Nat) : Nat × Nat :=
  (order (x / width / banks) (x / width % banks), (interleave banks width x).2)

/-- Rows that use no bank twice share no place. -/
theorem interleaveBy_injective {order : Nat → Nat → Nat} (pos : 0 < width) (some : 0 < banks)
    (inj : ∀ row b c, b < banks → c < banks → order row b = order row c → b = c) :
    Function.Injective (interleaveBy order banks width) := by
  intro x y same
  obtain ⟨bank, offset⟩ := Prod.ext_iff.mp same
  change (interleave banks width x).2 = (interleave banks width y).2 at offset
  have row : x / width / banks = y / width / banks := by
    have words := congrArg (· / width) offset
    rwa [interleave_snd_div pos, interleave_snd_div pos] at words
  change order (x / width / banks) (x / width % banks) =
    order (y / width / banks) (y / width % banks) at bank
  rw [row] at bank
  exact eq_of_interleave pos (inj _ _ _ (Nat.mod_lt _ some) (Nat.mod_lt _ some) bank) offset

end

theorem interleave_shift (a b x : Nat) :
    ((x >>> b) &&& ((1 <<< a) - 1), ((x >>> (b + a)) <<< b) + (x &&& ((1 <<< b) - 1))) =
      interleave (2 ^ a) (2 ^ b) x := by
  simp only [interleave, Nat.shiftRight_eq_div_pow, Nat.shiftLeft_eq, Nat.one_mul,
    Nat.and_two_pow_sub_one_eq_mod, Nat.pow_add, Nat.div_div_eq_div_mul]

/-- The bits of an address with the `a` bits from bit `b` on taken out. -/
theorem testBit_takeOut (a b x i : Nat) :
    (((x >>> (a + b)) <<< b) + (x &&& ((1 <<< b) - 1))).testBit i =
      if i < b then x.testBit i else x.testBit (i + a) := by
  have low : x &&& ((1 <<< b) - 1) < 2 ^ b := by
    rw [Nat.shiftLeft_eq, Nat.one_mul, Nat.and_two_pow_sub_one_eq_mod]
    exact Nat.mod_lt _ (Nat.two_pow_pos _)
  rw [Nat.shiftLeft_add_eq_or_of_lt low, Nat.testBit_or, Nat.testBit_shiftLeft,
    Nat.testBit_shiftRight, Nat.testBit_and, Nat.shiftLeft_eq 1, Nat.one_mul,
    Nat.testBit_two_pow_sub_one]
  split
  · rename_i below
    simp [below]
  · rename_i above
    have place : a + b + (i - b) = i + a := by omega
    simp [above, place, Nat.not_lt.mp above]

end SoftHier
