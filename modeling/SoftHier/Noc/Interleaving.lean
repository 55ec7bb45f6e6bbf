import SoftHier.Lib.FieldSwap

/-!
# The interleaving of the network interface

`NetworkInterface::fsm_handler` exchanges two bit fields of the addresses of a region.  The address
is a `uint64_t`, the mask and the two field values are `uint32_t`.

* `Interleaving.swap`: the exchange, `Interleaving.interleave`: with the test for the region.
* `exchanges_iff`: the addresses at which it exchanges the fields and nothing else.
-/

namespace SoftHier.Noc

/-- The `interleave_` fields of the network. -/
structure Interleaving where
  enable : Nat
  regionBase : Nat
  regionSize : Nat
  granularity : Nat
  bitStart : Nat
  bitWidth : Nat
  deriving DecidableEq, Repr

namespace Interleaving

variable (c : Interleaving)

/-- The address is in the region that is interleaved. -/
def InRegion (base : Nat) : Prop :=
  c.enable ≠ 0 ∧ c.regionBase ≤ base ∧ base < u64 (c.regionBase + c.regionSize)

instance (base : Nat) : Decidable (c.InRegion base) := inferInstanceAs (Decidable (_ ∧ _))

/-- `mask` -/
def mask : Nat := (1 <<< c.bitWidth) - 1

/-- `base &= ~(mask << shift)`: the complement is taken of a `uint32_t`. -/
def clearField (base shift : Nat) : Nat := base &&& (2 ^ 32 - 1 - u32 (c.mask <<< shift))

/-- The exchange of the fields; the shifts of the `int` constant 1 and of the `uint32_t` values are
undefined from the width of their types on. -/
def swap (base : Nat) : Option Nat :=
  if c.bitWidth ≤ 30 ∧ c.granularity ≤ 31 ∧ c.bitStart ≤ 31 then
    let range1 := u32 ((base >>> c.granularity) &&& c.mask)
    let range2 := u32 ((base >>> c.bitStart) &&& c.mask)
    let base := c.clearField base c.granularity
    let base := c.clearField base c.bitStart
    let base := base ||| u32 (range1 <<< c.bitStart)
    some (base ||| u32 (range2 <<< c.granularity))
  else none

/-- What the network interface makes of an address. -/
def interleave (base : Nat) : Option Nat := if c.InRegion base then c.swap base else some base

/-- The fields are disjoint. -/
def Disjoint : Prop :=
  c.granularity + c.bitWidth ≤ c.bitStart ∨ c.bitStart + c.bitWidth ≤ c.granularity

/-- At the address the exchange leaves the bits outside of the fields alone, and exchanging again
gives the address back. -/
def Exchanges (base : Nat) : Prop :=
  ∃ y, c.interleave base = some y ∧
    (∀ i, (i < c.granularity ∨ c.granularity + c.bitWidth ≤ i) →
      (i < c.bitStart ∨ c.bitStart + c.bitWidth ≤ i) → y.testBit i = base.testBit i) ∧
    c.swap y = some base

/-- The shifts are defined, and neither the address nor one of its fields, moved to the place of the
other, has a bit from 32 on. -/
structure Fits (base : Nat) : Prop where
  bitWidth_le : c.bitWidth ≤ 30
  granularity_le : c.granularity ≤ 31
  bitStart_le : c.bitStart ≤ 31
  word : base < 2 ^ 32
  left : ∀ j < c.bitWidth, base.testBit (c.granularity + j) = true → c.bitStart + j < 32
  right : ∀ j < c.bitWidth, base.testBit (c.bitStart + j) = true → c.granularity + j < 32

variable {c} {base y i : Nat}

theorem testBit_u32 (x i : Nat) : (u32 x).testBit i = (decide (i < 32) && x.testBit i) :=
  Nat.testBit_mod_two_pow x 32 i

theorem testBit_clearField (base shift i : Nat) :
    (c.clearField base shift).testBit i =
      (base.testBit i && (decide (i < 32) && !inField shift c.bitWidth i)) := by
  unfold clearField mask inField
  rw [testBit_maskOut (u32_lt _), testBit_u32, Nat.testBit_shiftLeft, Nat.shiftLeft_eq, Nat.one_mul,
    Nat.testBit_two_pow_sub_one]
  rcases Decidable.em (i < 32) with below | above
  · simp [below]
  · simp [above]

/-- A field value at another place. -/
theorem testBit_moved (narrow : c.bitWidth ≤ 30) (base a b i : Nat) :
    (u32 (u32 ((base >>> a) &&& c.mask) <<< b)).testBit i =
      (decide (i < 32) && (inField b c.bitWidth i && base.testBit (a + (i - b)))) := by
  unfold mask inField
  rw [testBit_u32, Nat.testBit_shiftLeft, testBit_u32, testBit_field]
  rcases Decidable.em (i - b < c.bitWidth) with inside | outside
  · have below : i - b < 32 := by omega
    simp [below, inside]
  · simp [outside]

/-- What the code computes is the exchange in words of 32 bits. -/
theorem isSwap (apart : c.Disjoint) (done : c.swap base = some y) :
    IsSwap 32 c.granularity c.bitStart c.bitWidth base y := by
  unfold swap at done
  unfold Disjoint at apart
  split at done
  · rename_i defined
    obtain ⟨narrow, -, -⟩ := defined
    obtain rfl := Option.some.inj done
    intro i
    rw [Nat.testBit_or, Nat.testBit_or, testBit_moved narrow, testBit_moved narrow,
      testBit_clearField, testBit_clearField]
    rcases field_cases c.granularity c.bitStart c.bitWidth i with
      ⟨j, hj, rfl⟩ | ⟨j, hj, rfl⟩ | ⟨left, right⟩
    · have other : inField c.bitStart c.bitWidth (c.granularity + j) = false :=
        inField_outside (by omega)
      rw [swapPos_left hj, inField_add hj, other, Nat.add_sub_cancel_left]
      simp
    · have other : inField c.granularity c.bitWidth (c.bitStart + j) = false :=
        inField_outside (by omega)
      rw [swapPos_right apart hj, inField_add hj, other, Nat.add_sub_cancel_left]
      simp
    · rw [swapPos_outside left right, inField_outside left, inField_outside right]
      rcases Decidable.em (i < 32) with below | above
      · simp [below]
      · simp [above]
  · cases done

/-- Inside the region the exchange is its own inverse, and leaves the other bits alone, exactly at
the addresses that fit. -/
theorem exchanges_iff_fits (apart : c.Disjoint) (inside : c.InRegion base) :
    c.Exchanges base ↔ c.Fits base := by
  constructor
  · rintro ⟨y, done, -, back⟩
    rw [interleave, if_pos inside] at done
    obtain ⟨word, left, right⟩ :=
      ((isSwap apart done).back_iff (isSwap apart back) apart).mp rfl
    unfold swap at done
    split at done
    · rename_i defined
      exact ⟨defined.1, defined.2.1, defined.2.2, word, left, right⟩
    · cases done
  · intro fits
    have narrow : c.bitWidth ≤ 30 ∧ c.granularity ≤ 31 ∧ c.bitStart ≤ 31 :=
      ⟨fits.bitWidth_le, fits.granularity_le, fits.bitStart_le⟩
    have moves : SwapFits 32 c.granularity c.bitStart c.bitWidth base :=
      ⟨fits.word, fits.left, fits.right⟩
    have total : ∀ x, ∃ y, c.swap x = some y := by
      intro x
      unfold swap
      rw [if_pos narrow]
      exact ⟨_, rfl⟩
    obtain ⟨y, done⟩ := total base
    obtain ⟨z, again⟩ := total y
    have swapped := isSwap apart done
    refine ⟨y, ?_, fun i left right => swapped.outside moves left right, ?_⟩
    · rw [interleave, if_pos inside, done]
    · rw [again, (swapped.back_iff (isSwap apart again) apart).mpr moves]

/-- Inside the region the exchange of two disjoint fields is its own inverse, and leaves the other
bits alone, exactly at the addresses that fit; no two such addresses reach the same location. -/
theorem exchanges_iff (c : Interleaving) (apart : c.Disjoint) :
    (∀ base, c.InRegion base → base < 2 ^ 64 → (c.Exchanges base ↔ c.Fits base)) ∧
      ∀ base base', c.InRegion base → c.InRegion base' → c.Fits base → c.Fits base' →
        c.interleave base = c.interleave base' → base = base' := by
  refine ⟨fun base inside _ => exchanges_iff_fits apart inside, ?_⟩
  intro base base' inside inside' fits fits' same
  obtain ⟨y, done, -, back⟩ := (exchanges_iff_fits apart inside).mpr fits
  obtain ⟨y', done', -, back'⟩ := (exchanges_iff_fits apart inside').mpr fits'
  rw [done, done'] at same
  obtain rfl := Option.some.inj same
  exact Option.some.inj (back.symm.trans back')

/-- A region of a gigabyte with three bits exchanged, from the bits 6 and 20 on. -/
def gigabyte : Interleaving := ⟨1, 0, 2 ^ 30, 6, 20, 3⟩

theorem exchanges_iff_gigabyte :
    (gigabyte.Exchanges 0x12345678 ↔ gigabyte.Fits 0x12345678) ∧
      (gigabyte.interleave 64 = gigabyte.interleave 128 → 64 = 128) := by
  have fits : ∀ base < 2 ^ 30, gigabyte.Fits base := fun base word =>
    ⟨by decide, by decide, by decide, Nat.lt_of_lt_of_le word (by decide),
      fun j hj _ => Nat.lt_of_lt_of_le (Nat.add_lt_add_left hj 20) (by decide),
      fun j hj _ => Nat.lt_of_lt_of_le (Nat.add_lt_add_left hj 6) (by decide)⟩
  obtain ⟨exchanges, injective⟩ := exchanges_iff gigabyte (by unfold Disjoint; decide)
  exact ⟨exchanges _ (by decide) (by decide),
    injective 64 128 (by decide) (by decide) (fits _ (by decide)) (fits _ (by decide))⟩

/-- Eight bits are exchanged, from the bits 6 and 28 on. -/
def acrossWord : Interleaving := ⟨1, 0, 2 ^ 30, 6, 28, 8⟩

/-- A region of eight gigabytes. -/
def largeRegion : Interleaving := ⟨1, 0, 2 ^ 33, 6, 20, 3⟩

/-- A field that reaches behind bit 31 loses its bits, and an address its upper half. -/
theorem interleave_collides :
    acrossWord.Disjoint ∧ acrossWord.InRegion 0 ∧ acrossWord.InRegion 0x400 ∧
      acrossWord.interleave 0 = some 0 ∧ acrossWord.interleave 0x400 = some 0 ∧
      ¬ acrossWord.Exchanges 0x400 ∧
      largeRegion.Disjoint ∧ largeRegion.InRegion 0 ∧ largeRegion.InRegion (2 ^ 32) ∧
      largeRegion.interleave 0 = some 0 ∧ largeRegion.interleave (2 ^ 32) = some 0 := by
  have lost : acrossWord.interleave 0x400 = some 0 := by decide
  refine ⟨by unfold Disjoint; decide, by decide, by decide, by decide, lost, ?_,
    by unfold Disjoint; decide, by decide, by decide, by decide, by decide⟩
  rintro ⟨y, done, -, back⟩
  rw [lost] at done
  obtain rfl := Option.some.inj done
  exact absurd back (by decide)

end Interleaving

end SoftHier.Noc
