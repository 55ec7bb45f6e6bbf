import Mathlib.Data.Int.Bitwise
import Mathlib.Data.List.Pairwise
import SoftHier.Lib.Strided

/-!
# Packed ranges

Ranges of integers that begin at multiples of a width.  Such ranges meet exactly if they do when
their lengths are rounded up to the width, and ranges that are packed one after the other fill a
range without a gap.

* `land_lnot_eq`: the clearing of the low bits of an integer of either sign.
* `Meet`, `meet_roundUp_iff`: ranges with a common element.
* `pack`, `extent`: ranges one after the other, and the length of what they fill.
* `meet_pack_iff`: a range meets one of the packed ranges exactly if it meets what they fill.
-/

namespace SoftHier

/-! ## Multiples -/

theorem ldiff_two_pow (k n : Nat) : Nat.ldiff n (2 ^ k - 1) = n / 2 ^ k * 2 ^ k := by
  apply Nat.eq_of_testBit_eq
  intro i
  rw [Nat.testBit_ldiff, Nat.testBit_two_pow_sub_one, Nat.testBit_mul_two_pow,
    Nat.testBit_div_two_pow]
  rcases Nat.lt_or_ge i k with low | high
  · rw [decide_eq_true low, decide_eq_false (Nat.not_le_of_lt low), Bool.not_true, Bool.and_false,
      Bool.false_and]
  · rw [decide_eq_false (Nat.not_lt_of_le high), decide_eq_true high, Nat.sub_add_cancel high,
      Bool.not_false, Bool.and_true, Bool.true_and]

theorem or_two_pow (k n : Nat) : n ||| (2 ^ k - 1) = 2 ^ k * (n / 2 ^ k) + (2 ^ k - 1) := by
  have less : 2 ^ k - 1 < 2 ^ k := Nat.sub_lt (Nat.two_pow_pos k) (by decide)
  apply Nat.eq_of_testBit_eq
  intro i
  rw [Nat.testBit_or, Nat.testBit_two_pow_mul_add _ less, Nat.testBit_two_pow_sub_one,
    Nat.testBit_div_two_pow]
  rcases Nat.lt_or_ge i k with low | high
  · rw [if_pos low, decide_eq_true low, Bool.or_true]
  · rw [if_neg (Nat.not_lt_of_le high), decide_eq_false (Nat.not_lt_of_le high), Bool.or_false,
      Nat.sub_add_cancel high]

/-- Clearing the low bits rounds down to a multiple. -/
theorem land_lnot_eq (k : Nat) (x : Int) :
    Int.land x (Int.lnot ((2 ^ k - 1 : Nat) : Int)) = x / (2 ^ k : Nat) * (2 ^ k : Nat) := by
  cases x with
  | ofNat n => exact congrArg Int.ofNat (ldiff_two_pow k n)
  | negSucc n =>
    have pos := Nat.two_pow_pos k
    have cleared : Int.land (Int.negSucc n) (Int.lnot ((2 ^ k - 1 : Nat) : Int)) =
        Int.negSucc (n ||| (2 ^ k - 1)) := rfl
    have quotient : Int.negSucc n / ((2 ^ k : Nat) : Int) = -((n / 2 ^ k : Nat) + 1 : Int) :=
      Int.negSucc_ediv n (Int.natCast_pos.mpr pos)
    rw [cleared, or_two_pow, quotient, Int.negSucc_eq, Int.neg_mul, Int.add_mul, Int.one_mul,
      Nat.mul_comm (2 ^ k)]
    push_cast [Nat.cast_sub pos]
    omega

/-! ## Ranges -/

/-- The ranges `[a, a + n)` and `[b, b + m)` have a common element. -/
def Meet (a : Int) (n : Nat) (b : Int) (m : Nat) : Prop :=
  ∃ x, (a ≤ x ∧ x < a + n) ∧ b ≤ x ∧ x < b + m

section

variable {width n m k : Nat} {a b : Int}

theorem meet_iff : Meet a n b m ↔ max a b < min (a + n) (b + m) := by
  constructor
  · rintro ⟨x, first, second⟩
    omega
  · intro less
    exact ⟨max a b, by omega, by omega⟩

instance : Decidable (Meet a n b m) := decidable_of_iff _ meet_iff.symm

theorem meet_comm : Meet a n b m ↔ Meet b m a n := by
  rw [meet_iff, meet_iff, max_comm, min_comm]

/-- Two ranges one after the other. -/
theorem meet_add_iff : Meet a (n + k) b m ↔ Meet a n b m ∨ Meet (a + n) k b m := by
  rw [meet_iff, meet_iff, meet_iff]
  omega

theorem not_meet_zero : ¬ Meet a 0 b m := by
  rw [meet_iff]
  omega

/-- A multiple of the width lies in a range that begins at one if it does when the length is
rounded up. -/
theorem lt_add_roundUp_iff (pos : 0 < width) (first : (width : Int) ∣ a)
    (second : (width : Int) ∣ b) (le : a ≤ b) : b < a + roundUp width n ↔ b < a + n := by
  have rounded := le_roundUp (n := n) pos
  constructor
  · intro less
    by_contra past
    obtain ⟨distance, apart⟩ := Int.eq_ofNat_of_zero_le (Int.sub_nonneg.mpr le)
    have multiple : width ∣ distance :=
      Int.natCast_dvd_natCast.mp (apart ▸ Int.dvd_sub second first)
    have whole := roundUp_le (n := n) multiple (by omega) pos
    omega
  · intro less
    omega

theorem roundUp_pos_iff (pos : 0 < width) : 0 < roundUp width n ↔ 0 < n := by
  constructor
  · intro some
    by_contra none
    obtain rfl : n = 0 := Nat.eq_zero_of_not_pos none
    rw [roundUp_of_dvd pos (Nat.dvd_zero width)] at some
    cases some
  · exact fun some => Nat.lt_of_lt_of_le some (le_roundUp pos)

theorem meet_iff_of_le (le : a ≤ b) : Meet a n b m ↔ b < a + n ∧ 0 < m := by
  rw [meet_iff]
  omega

/-- From multiples of the width on, the lengths may be rounded up. -/
theorem meet_roundUp_iff (pos : 0 < width) (first : (width : Int) ∣ a)
    (second : (width : Int) ∣ b) :
    Meet a (roundUp width n) b (roundUp width m) ↔ Meet a n b m := by
  rcases Int.le_total a b with le | le
  · rw [meet_iff_of_le le, meet_iff_of_le le, lt_add_roundUp_iff pos first second le,
      roundUp_pos_iff pos]
  · rw [meet_comm, meet_comm (a := a), meet_iff_of_le le, meet_iff_of_le le,
      lt_add_roundUp_iff pos second first le, roundUp_pos_iff pos]

end

/-! ## Packing -/

/-- Ranges of the given lengths, each from the next multiple of the width on. -/
def pack (width : Nat) (start : Int) : List Nat → List (Int × Nat)
  | [] => []
  | n :: lengths => (start, n) :: pack width (start + roundUp width n) lengths

/-- The length of what packed ranges fill. -/
def extent (width : Nat) (lengths : List Nat) : Nat := (lengths.map (roundUp width)).sum

section

variable {width m : Nat} {start b : Int} {lengths : List Nat} {p : Int × Nat}

theorem extent_cons (width n : Nat) (lengths : List Nat) :
    extent width (n :: lengths) = roundUp width n + extent width lengths := List.sum_cons

theorem pack_append (lengths' : List Nat) : pack width start (lengths ++ lengths') =
    pack width start lengths ++ pack width (start + extent width lengths) lengths' := by
  induction lengths generalizing start with
  | nil => exact congrArg (pack width · lengths') (Int.add_zero start).symm
  | cons n lengths ih =>
    rw [extent_cons, Nat.cast_add, ← Int.add_assoc]
    exact congrArg ((start, n) :: ·) ih

theorem dvd_extent (width : Nat) (lengths : List Nat) : width ∣ extent width lengths := by
  induction lengths with
  | nil => exact Nat.dvd_zero width
  | cons n lengths ih =>
    rw [extent_cons]
    exact Nat.dvd_add dvd_roundUp ih

theorem dvd_add_roundUp {n : Nat} (aligned : (width : Int) ∣ start) :
    (width : Int) ∣ start + roundUp width n :=
  Int.dvd_add aligned (Int.natCast_dvd_natCast.mpr dvd_roundUp)

/-- Packed ranges begin at multiples of the width, and end inside of what they fill. -/
theorem mem_pack (pos : 0 < width) (aligned : (width : Int) ∣ start)
    (mem : p ∈ pack width start lengths) :
    (width : Int) ∣ p.1 ∧ start ≤ p.1 ∧ p.1 + p.2 ≤ start + extent width lengths := by
  induction lengths generalizing start with
  | nil => cases mem
  | cons n lengths ih =>
    have le := le_roundUp (n := n) pos
    rw [extent_cons]
    rcases List.mem_cons.mp mem with rfl | later
    · refine ⟨aligned, Int.le_refl _, ?_⟩
      dsimp only
      omega
    · obtain ⟨multiple, after, inside⟩ := ih (dvd_add_roundUp aligned) later
      exact ⟨multiple, by omega, by omega⟩

/-- Packed ranges do not meet. -/
theorem pack_pairwise (width : Nat) (lengths : List Nat) (pos : 0 < width)
    (aligned : (width : Int) ∣ start) :
    (pack width start lengths).Pairwise fun p q => ¬ Meet p.1 p.2 q.1 q.2 := by
  induction lengths generalizing start with
  | nil => exact .nil
  | cons n lengths ih =>
    have le := le_roundUp (n := n) pos
    refine .cons (fun q mem meet => ?_) (ih (dvd_add_roundUp aligned))
    obtain ⟨-, after, -⟩ := mem_pack pos (dvd_add_roundUp aligned) mem
    rw [meet_iff] at meet
    dsimp only at meet
    omega

/-- A range from a multiple of the width on meets one of the packed ranges exactly if, with its
length rounded up, it meets what they fill. -/
theorem meet_pack_iff (pos : 0 < width) (aligned : (width : Int) ∣ start)
    (multiple : (width : Int) ∣ b) :
    (∃ p ∈ pack width start lengths, Meet p.1 p.2 b m) ↔
      Meet start (extent width lengths) b (roundUp width m) := by
  induction lengths generalizing start with
  | nil =>
    constructor
    · rintro ⟨p, mem, -⟩
      cases mem
    · exact fun meet => absurd meet not_meet_zero
  | cons n lengths ih =>
    rw [extent_cons, meet_add_iff, ← ih (dvd_add_roundUp aligned),
      meet_roundUp_iff pos aligned multiple]
    constructor
    · rintro ⟨p, mem, meet⟩
      rcases List.mem_cons.mp mem with rfl | later
      · exact Or.inl meet
      · exact Or.inr ⟨p, later, meet⟩
    · rintro (meet | ⟨p, later, meet⟩)
      · exact ⟨_, List.mem_cons_self, meet⟩
      · exact ⟨p, List.mem_cons_of_mem _ later, meet⟩

/-- Of two packings some ranges meet exactly if the ranges that they fill do. -/
theorem pack_meet_pack_iff (width : Nat) (lengths lengths' : List Nat) {start' : Int}
    (pos : 0 < width) (aligned : (width : Int) ∣ start) (aligned' : (width : Int) ∣ start') :
    (∃ p ∈ pack width start lengths, ∃ q ∈ pack width start' lengths', Meet p.1 p.2 q.1 q.2) ↔
      Meet start (extent width lengths) start' (extent width lengths') := by
  have whole : roundUp width (extent width lengths') = extent width lengths' :=
    roundUp_of_dvd pos (dvd_extent width lengths')
  have inner : ∀ p ∈ pack width start lengths,
      (∃ q ∈ pack width start' lengths', Meet p.1 p.2 q.1 q.2) ↔
      Meet p.1 p.2 start' (extent width lengths') := by
    intro p mem
    obtain ⟨multiple, -⟩ := mem_pack pos aligned mem
    rw [← meet_roundUp_iff pos multiple aligned', whole, meet_comm (a := p.1),
      ← meet_pack_iff pos aligned' multiple]
    simp only [meet_comm (a := p.1)]
  have outer : _ ↔ Meet start (extent width lengths) start' _ :=
    meet_pack_iff (m := extent width lengths') pos aligned aligned'
  rw [whole] at outer
  rw [← outer]
  constructor
  · rintro ⟨p, mem, meet⟩
    exact ⟨p, mem, (inner p mem).mp meet⟩
  · rintro ⟨p, mem, meet⟩
    exact ⟨p, mem, (inner p mem).mpr meet⟩

end

end SoftHier
