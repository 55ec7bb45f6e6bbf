import SoftHier.Lib.Binade
import Mathlib.Tactic.NormNum

/-!
# From single to half precision

`float_to_fp16` (the same function in `light_redmule.cpp`, in the runtime library and in the
collective operations) cuts the mantissa of a normal result to ten bits.  For a subnormal result it
shifts the mantissa by `1 - exponent`, without the thirteen bits between the two mantissas, so that
magnitudes from `2 ^ -25` up to `2 ^ -14` come out as `⌊|x| * 2 ^ 37⌋ mod 2 ^ 16`.

* `convert_small`, `convert_shifted`, `convert_normal`, `convert_large`: the four ranges.
* `floatToFp16_iff`: for which inputs the conversion is monotone and close to the value.
-/

namespace SoftHier.Fp

def binary32 : Format := ⟨23, 8⟩

def binary16 : Format := ⟨10, 5⟩

/-! ## The code -/

/-- The fields `parts` of the union `FloatBits`. -/
structure Parts where
  mantissa : Nat
  exponent : Nat
  sign : Nat

def parts (bits : BitVec 32) : Parts :=
  ⟨bits.toNat % 2 ^ 23, bits.toNat / 2 ^ 23 % 2 ^ 8, bits.toNat / 2 ^ 31⟩

/-- `float_to_fp16(value)` -/
def floatToFp16 (value : BitVec 32) : BitVec 16 :=
  let parts := parts value
  let sign := BitVec.ofNat 16 (parts.sign <<< 15)
  let exponent : Int := parts.exponent - 127 + 15
  let mantissa := parts.mantissa >>> 13
  if exponent ≤ 0 then
    if exponent < -10 then sign
    else
      let mantissa := (parts.mantissa ||| 0x800000) >>> (1 - exponent).toNat
      sign ||| BitVec.ofNat 16 mantissa
  else if exponent ≥ 0x1F then sign ||| 0x7C00
  else sign ||| BitVec.ofNat 16 (exponent.toNat <<< 10) ||| BitVec.ofNat 16 mantissa

/-! ## Ranges -/

/-- The pattern without its sign. -/
def pattern (x : BitVec 32) : Nat := binary32.magnitude x.toNat

/-- The magnitude in multiples of `2 ^ -37`, rounded down. -/
def scaled (x : BitVec 32) : Nat := units 23 (pattern x) / 2 ^ 112

section

variable {x : BitVec 32}

theorem pattern_eq : pattern x = (parts x).exponent * 2 ^ 23 + (parts x).mantissa := by
  have split : pattern x = x.toNat % 2 ^ 31 := rfl
  have exponent : (parts x).exponent = x.toNat / 2 ^ 23 % 2 ^ 8 := rfl
  have mantissa : (parts x).mantissa = x.toNat % 2 ^ 23 := rfl
  rw [split, exponent, mantissa]
  omega

theorem mantissa_lt : (parts x).mantissa < 2 ^ 23 := Nat.mod_lt _ (by decide)

theorem negative_iff : binary32.negative x.toNat = true ↔ (parts x).sign = 1 := by
  have bit : binary32.negative x.toNat = x.toNat.testBit 31 := rfl
  have sign : (parts x).sign = x.toNat / 2 ^ 31 := rfl
  have word := x.isLt
  rw [bit, sign, Nat.testBit_eq_decide_div_mod_eq, decide_eq_true_eq]
  omega

theorem sign_le : (parts x).sign ≤ 1 := by
  have sign : (parts x).sign = x.toNat / 2 ^ 31 := rfl
  have word := x.isLt
  omega

/-- The binades by the exponent. -/
theorem units_lt_iff (e : Nat) :
    units 23 (pattern x) < 2 ^ (23 + e) ↔ (parts x).exponent < e + 1 := by
  have low := mantissa_lt (x := x)
  rw [Nat.pow_add, ← units_binade, units_strictMono.lt_iff_lt, pattern_eq]
  omega

theorem small_iff : scaled x < 2 ^ 12 ↔ (parts x).exponent < 102 := by
  unfold scaled
  rw [Nat.div_lt_iff_lt_mul (Nat.two_pow_pos _), ← Nat.pow_add]
  exact units_lt_iff 101

theorem below_normal_iff : scaled x < 2 ^ 23 ↔ (parts x).exponent < 113 := by
  unfold scaled
  rw [Nat.div_lt_iff_lt_mul (Nat.two_pow_pos _), ← Nat.pow_add]
  exact units_lt_iff 112

/-- In the range that is shifted, the code shifts the mantissa to multiples of `2 ^ -37`. -/
theorem scaled_eq (low : 1 ≤ (parts x).exponent) (high : (parts x).exponent < 113) :
    scaled x = ((parts x).mantissa ||| 0x800000) >>> (113 - (parts x).exponent) := by
  obtain ⟨e, exponent⟩ := Nat.exists_eq_add_of_le' low
  have mantissa := mantissa_lt (x := x)
  have hidden : (parts x).mantissa ||| 0x800000 = 2 ^ 23 + (parts x).mantissa := by
    rw [Nat.or_comm]
    exact (Nat.two_pow_add_eq_or_of_lt mantissa 1).symm
  have shift : 2 ^ 112 = 2 ^ (113 - (e + 1)) * 2 ^ e := by
    rw [← Nat.pow_add]
    congr 1
    omega
  unfold scaled
  rw [pattern_eq, exponent, units_normal mantissa, hidden, Nat.shiftRight_eq_div_pow, shift,
    Nat.mul_div_mul_right _ _ (Nat.two_pow_pos e)]

/-- What is or-ed to the sign. -/
def body (x : BitVec 32) : Nat :=
  if scaled x < 2 ^ 12 then 0
  else if scaled x < 2 ^ 23 then scaled x
  else min (pattern x / 2 ^ 13 - 112 * 2 ^ 10) 0x7C00

theorem floatToFp16_eq :
    floatToFp16 x = BitVec.ofNat 16 ((parts x).sign <<< 15) ||| BitVec.ofNat 16 (body x) := by
  have mantissa := mantissa_lt (x := x)
  have fields := pattern_eq (x := x)
  have small := small_iff (x := x)
  have below := below_normal_iff (x := x)
  unfold floatToFp16 body
  dsimp only
  split
  · split
    · have none : scaled x < 2 ^ 12 := by omega
      rw [if_pos none]
      exact BitVec.or_zero.symm
    · have some : ¬ scaled x < 2 ^ 12 := by omega
      have low : scaled x < 2 ^ 23 := by omega
      rw [if_neg some, if_pos low, scaled_eq (by omega) (by omega)]
      congr 3
      omega
  · have some : ¬ scaled x < 2 ^ 12 := by omega
    have high : ¬ scaled x < 2 ^ 23 := by omega
    rw [if_neg some, if_neg high]
    split
    · rw [min_eq_right (by omega)]
      rfl
    · have cut : (parts x).mantissa >>> 13 < 2 ^ 10 := by
        rw [Nat.shiftRight_eq_div_pow]
        omega
      have field : ((parts x).exponent - 127 + 15 : Int).toNat <<< 10 + (parts x).mantissa >>> 13 =
          pattern x / 2 ^ 13 - 112 * 2 ^ 10 := by
        rw [Nat.shiftLeft_eq, Nat.shiftRight_eq_div_pow]
        omega
      rw [min_eq_left (by omega), BitVec.or_assoc, ← BitVec.ofNat_or,
        ← Nat.shiftLeft_add_eq_or_of_lt cut, field]

theorem magnitude_eq : binary16.magnitude (floatToFp16 x).toNat = body x % 2 ^ 15 := by
  have magnitude : binary16.magnitude (floatToFp16 x).toNat = (floatToFp16 x).toNat % 2 ^ 15 := rfl
  have sign := sign_le (x := x)
  rw [magnitude, floatToFp16_eq, BitVec.toNat_or, BitVec.toNat_ofNat, BitVec.toNat_ofNat,
    Nat.or_mod_two_pow, Nat.mod_mod_of_dvd _ (by decide), Nat.mod_mod_of_dvd _ (by decide),
    Nat.shiftLeft_eq, Nat.mul_mod_left, Nat.zero_or]

theorem negative_eq : binary16.negative (floatToFp16 x).toNat =
    (binary32.negative x.toNat || (body x).testBit 15) := by
  have negative : binary16.negative (floatToFp16 x).toNat = (floatToFp16 x).toNat.testBit 15 := rfl
  have sign : ((parts x).sign <<< 15 % 2 ^ 16).testBit 15 = binary32.negative x.toNat := by
    rw [Bool.eq_iff_iff, negative_iff, Nat.testBit_mod_two_pow, Nat.testBit_shiftLeft]
    have := sign_le (x := x)
    rcases Nat.le_one_iff_eq_zero_or_eq_one.mp this with zero | one
    · rw [zero]
      decide
    · rw [one]
      decide
  rw [negative, floatToFp16_eq, BitVec.toNat_or, BitVec.toNat_ofNat, BitVec.toNat_ofNat,
    Nat.testBit_or, sign, Nat.testBit_mod_two_pow]
  rfl

/-! ## Order -/

theorem negative_of_finite (finite : x.toNat < 0x7F800000) : binary32.negative x.toNat = false :=
  Nat.testBit_lt_two_pow (finite.trans (by decide))

theorem toNat_of_finite (finite : x.toNat < 0x7F800000) :
    (floatToFp16 x).toNat = body x % 2 ^ 16 := by
  have sign : (parts x).sign = x.toNat / 2 ^ 31 := rfl
  have none : (parts x).sign = 0 := by omega
  rw [floatToFp16_eq, none, Nat.zero_shiftLeft, BitVec.toNat_or, BitVec.toNat_ofNat,
    BitVec.toNat_ofNat]
  exact Nat.zero_or _

/-- The results of two numbers `x ≤ y` are in order if `x` is not in the range that is shifted, and
otherwise if its number of steps of `2 ^ -37` is, modulo `2 ^ 16`, at most that of `y`, or at most
the magnitude of `y` cut to ten bits of mantissa. -/
def InOrder (x y : BitVec 32) : Prop :=
  scaled x < 2 ^ 12 ∨ 2 ^ 23 ≤ scaled x ∨
    scaled x % 2 ^ 16 ≤
      if scaled y < 2 ^ 23 then scaled y % 2 ^ 16
        else min (pattern y / 2 ^ 13 - 112 * 2 ^ 10) 0x7C00

theorem order_iff {y : BitVec 32} (hx : x.toNat < 0x7F800000) (hy : y.toNat < 0x7F800000)
    (le : binary32.value x.toNat ≤ binary32.value y.toNat) :
    floatToFp16 x ≤ floatToFp16 y ↔ InOrder x y := by
  have patterns : pattern x ≤ pattern y :=
    (binary32.value_le_iff (negative_of_finite hx) (negative_of_finite hy)).mp le
  have steps : scaled x ≤ scaled y := Nat.div_le_div_right (units_strictMono.monotone patterns)
  rw [BitVec.le_def, toNat_of_finite hx, toNat_of_finite hy]
  unfold InOrder body
  split
  · rename_i small
    rw [Nat.zero_mod]
    exact ⟨fun _ => .inl small, fun _ => Nat.zero_le _⟩
  · split
    · have some : ¬ scaled y < 2 ^ 12 := by omega
      rw [if_neg some]
      split <;> omega
    · have some : ¬ scaled y < 2 ^ 12 := by omega
      have high : ¬ scaled y < 2 ^ 23 := by omega
      rw [if_neg some, if_neg high]
      omega

/-! ## Small magnitudes -/

/-- The magnitude is below `2 ^ (k + 1 - 150)`. -/
theorem abs_value_lt_iff {k : Nat} {b : ℚ} (bound : b * 2 ^ 149 = 2 ^ (23 + k)) :
    |binary32.value x.toNat| < b ↔ (parts x).exponent < k + 1 := by
  have scale : binary32.scale = 2 ^ 149 := rfl
  have pos : (0 : ℚ) < binary32.scale := by exact_mod_cast binary32.scale_pos
  have cast : ((2 ^ 149 : Nat) : ℚ) = 2 ^ 149 := by push_cast; rfl
  rw [Format.abs_value, div_lt_iff₀ pos, scale, cast, bound, ← units_lt_iff]
  exact_mod_cast Iff.rfl

theorem exponent_eq_zero_iff (tiny : |binary32.value x.toNat| < 1 / 2 ^ 14) :
    binary16.exponent (floatToFp16 x).toNat = 0 ↔
      scaled x < 2 ^ 12 ∨ scaled x % 2 ^ 15 < 2 ^ 10 := by
  have below : scaled x < 2 ^ 23 := below_normal_iff.mpr ((abs_value_lt_iff (by norm_num)).mp tiny)
  have field : binary16.exponent (floatToFp16 x).toNat = body x % 2 ^ 15 / 2 ^ 10 := by
    rw [← magnitude_eq]
    rfl
  rw [field]
  unfold body
  rw [if_pos below]
  split <;> omega

/-! ## Distance -/

/-- The result is finite and less than one unit in its last place away. -/
def Close (x : BitVec 32) : Prop :=
  binary16.exponent (floatToFp16 x).toNat ≠ 31 ∧
    |binary32.value x.toNat - binary16.value (floatToFp16 x).toNat| <
      binary16.place (floatToFp16 x).toNat

/-- A magnitude of at least `2 ^ 12` steps of `2 ^ -37` comes out close exactly if its multiple of
`2 ^ -24` leaves the sign alone and comes out as the fraction behind it. -/
def ShiftedClose (x : BitVec 32) : Prop :=
  let a := scaled x / 2 ^ 13
  let r := scaled x % 2 ^ 13
  a % (if binary32.negative x.toNat then 4 else 8) = 0 ∧ (r = a ∨ r = a + 1)

theorem exponent_eq : binary16.exponent (floatToFp16 x).toNat = body x % 2 ^ 15 / 2 ^ 10 := by
  rw [← magnitude_eq]
  rfl

theorem distance_iff :
    |binary32.value x.toNat - binary16.value (floatToFp16 x).toNat| <
        binary16.place (floatToFp16 x).toNat ↔
      if binary32.negative x.toNat = (binary32.negative x.toNat || (body x).testBit 15) then
        units 23 (pattern x) < (units 10 (body x % 2 ^ 15) + ulp 10 (body x % 2 ^ 15)) * 2 ^ 125 ∧
          units 10 (body x % 2 ^ 15) * 2 ^ 125 <
            units 23 (pattern x) + ulp 10 (body x % 2 ^ 15) * 2 ^ 125
      else units 23 (pattern x) + units 10 (body x % 2 ^ 15) * 2 ^ 125 <
        ulp 10 (body x % 2 ^ 15) * 2 ^ 125 := by
  have scale : binary32.scale = binary16.scale * 2 ^ 125 := rfl
  rw [binary16.close_iff _ binary32 (Nat.two_pow_pos 125) scale, magnitude_eq, negative_eq]
  exact Iff.rfl

/-- Below `2 ^ -25` the result is zero. -/
theorem close_of_small (small : scaled x < 2 ^ 12) : Close x := by
  have none : body x = 0 := if_pos small
  have units_lt : units 23 (pattern x) < 2 ^ 124 := (units_lt_iff 101).mpr (small_iff.mp small)
  have zero : units 10 0 = 0 := rfl
  have place : ulp 10 0 = 1 := rfl
  unfold Close
  rw [exponent_eq, distance_iff, none, Nat.zero_testBit, Bool.or_false, if_pos rfl, Nat.zero_mod,
    zero, place]
  omega

/-- From `2 ^ -14` on the mantissa is cut. -/
theorem close_of_normal (normal : 2 ^ 23 ≤ scaled x) (range : (parts x).exponent < 143) :
    Close x := by
  have low := mantissa_lt (x := x)
  have fields := pattern_eq (x := x)
  have above : ¬ (parts x).exponent < 113 := fun below =>
    absurd (below_normal_iff.mpr below) (Nat.not_lt.mpr normal)
  obtain ⟨e, exponent⟩ := Nat.exists_eq_add_of_le (Nat.not_lt.mp above)
  have cut : (parts x).mantissa / 2 ^ 13 < 2 ^ 10 := by omega
  have result : body x = (e + 1) * 2 ^ 10 + (parts x).mantissa / 2 ^ 13 := by
    unfold body
    rw [if_neg (by omega), if_neg (by omega), min_eq_left (by omega)]
    omega
  have word : body x < 2 ^ 15 := by omega
  have sign : (body x).testBit 15 = false := Nat.testBit_lt_two_pow word
  have input : units 23 (pattern x) = (2 ^ 23 + (parts x).mantissa) * 2 ^ (e + 112) := by
    have next : 113 + e = e + 112 + 1 := by omega
    rw [fields, exponent, next, units_normal low]
  have grid : 2 ^ (e + 112) * 2 ^ 13 = 2 ^ e * 2 ^ 125 := by
    rw [← Nat.pow_add, ← Nat.pow_add, Nat.add_assoc]
  have output : units 10 (body x) * 2 ^ 125 =
      (2 ^ 10 + (parts x).mantissa / 2 ^ 13) * 2 ^ 13 * 2 ^ (e + 112) := by
    rw [result, units_normal cut, Nat.mul_assoc, ← grid, Nat.mul_comm (2 ^ (e + 112)),
      Nat.mul_assoc]
  have place : ulp 10 (body x) * 2 ^ 125 = 2 ^ 13 * 2 ^ (e + 112) := by
    rw [result, ulp_normal cut, ← grid, Nat.mul_comm]
  refine ⟨?_, ?_⟩
  · rw [exponent_eq]
    omega
  · rw [distance_iff, sign, Bool.or_false, if_pos rfl, Nat.mod_eq_of_lt word, Nat.add_mul, output,
      place, input, ← Nat.add_mul, ← Nat.add_mul]
    constructor
    · exact Nat.mul_lt_mul_of_pos_right (by omega) (Nat.two_pow_pos _)
    · exact Nat.mul_lt_mul_of_pos_right (by omega) (Nat.two_pow_pos _)

section

variable (some : 2 ^ 12 ≤ scaled x) (low : scaled x < 2 ^ 23)
include some low

theorem body_of_shifted : body x = scaled x := by
  unfold body
  rw [if_neg (Nat.not_lt.mpr some), if_pos low]

omit some low in
/-- The magnitude by its multiple of `2 ^ -24`, and the steps of `2 ^ -37` behind it. -/
theorem magnitude_split : ∃ a r t, r < 2 ^ 13 ∧ t < 2 ^ 112 ∧ scaled x = a * 2 ^ 13 + r ∧
    units 23 (pattern x) = a * 2 ^ 125 + (r * 2 ^ 112 + t) := by
  refine ⟨scaled x / 2 ^ 13, scaled x % 2 ^ 13, units 23 (pattern x) % 2 ^ 112,
    Nat.mod_lt _ (by decide), Nat.mod_lt _ (by decide), (Nat.div_add_mod' _ _).symm, ?_⟩
  have steps := Nat.div_add_mod' (scaled x) (2 ^ 13)
  have input : scaled x * 2 ^ 112 + units 23 (pattern x) % 2 ^ 112 = units 23 (pattern x) :=
    Nat.div_add_mod' _ _
  omega

/-- A magnitude below `2 ^ -14` is not close to a normal number. -/
theorem not_close_of_normal (normal : 2 ^ 10 ≤ scaled x % 2 ^ 15) : ¬ Close x := by
  rintro ⟨-, close⟩
  obtain ⟨a, r, t, hr, ht, steps, input⟩ := magnitude_split (x := x)
  have top : a < 2 ^ 10 := by omega
  rw [distance_iff, body_of_shifted some low, input] at close
  obtain subnormal | ⟨e, f, mantissa, fields⟩ := pattern_cases 10 (scaled x % 2 ^ 15)
  · omega
  · rw [fields, units_normal mantissa, ulp_normal mantissa] at close
    cases e with
    | zero =>
      rw [Nat.pow_zero, Nat.mul_one] at close
      have last : 1023 + f ≤ a := by
        split at close <;> omega
      omega
    | succ e =>
      have pos := Nat.two_pow_pos e
      have double : 2 ^ (e + 1) = 2 * 2 ^ e := Nat.pow_succ'
      have large : 2 ^ 10 * (2 * 2 ^ e) ≤ (2 ^ 10 + f) * (2 * 2 ^ e) :=
        Nat.mul_le_mul_right _ (Nat.le_add_right _ _)
      rw [double] at close
      split at close <;> omega

omit some low in
/-- `a` units and a fraction are within one unit of the units that the fraction begins with. -/
theorem within_iff {a r t : Nat} (hr : r < 2 ^ 13) (ht : t < 2 ^ 112) :
    a * 2 ^ 125 + (r * 2 ^ 112 + t) < (r + 1) * 2 ^ 125 ∧
        r * 2 ^ 125 < a * 2 ^ 125 + (r * 2 ^ 112 + t) + 1 * 2 ^ 125 ↔ r = a ∨ r = a + 1 := by
  constructor
  · rintro ⟨above, below⟩
    have low : a ≤ r := by omega
    have high : r < a + 2 := by omega
    omega
  · rintro (rfl | rfl)
    · omega
    · omega

theorem close_of_shifted : Close x ↔ ShiftedClose x := by
  obtain ⟨a, r, t, hr, ht, steps, input⟩ := magnitude_split (x := x)
  have multiple : scaled x / 2 ^ 13 = a := by omega
  have fraction : scaled x % 2 ^ 13 = r := by omega
  have result : scaled x % 2 ^ 15 = a % 4 * 2 ^ 13 + r := by omega
  have bit : (scaled x).testBit 15 = decide (a / 4 % 2 = 1) := by
    rw [Nat.testBit_eq_decide_div_mod_eq]
    congr 2
    omega
  unfold ShiftedClose
  dsimp only
  rw [multiple, fraction]
  rcases Nat.lt_or_ge (scaled x % 2 ^ 15) (2 ^ 10) with subnormal | normal
  · have block : a % 4 = 0 := by omega
    have same : scaled x % 2 ^ 15 = r := by omega
    unfold Close
    rw [exponent_eq, distance_iff, body_of_shifted some low, bit, input, same,
      units_subnormal (by omega), ulp_subnormal (by omega)]
    cases binary32.negative x.toNat with
    | true =>
      rw [Bool.true_or, if_pos rfl, if_pos rfl, within_iff hr ht]
      omega
    | false =>
      rw [Bool.false_or, if_neg Bool.false_ne_true]
      split
      · rename_i same
        have clear := of_decide_eq_false same.symm
        rw [within_iff hr ht]
        omega
      · rename_i other
        have set : a / 4 % 2 = 1 := by
          by_contra clear
          exact other (decide_eq_false clear).symm
        omega
  · constructor
    · intro close
      exact absurd close (not_close_of_normal some low normal)
    · rintro ⟨block, fraction⟩
      have four : a % 4 = 0 := by
        split at block <;> omega
      have top : a < 2 ^ 10 := by omega
      omega

end

/-- Within the range of the format the result is close exactly for these magnitudes. -/
theorem close_iff (range : |binary32.value x.toNat| < 2 ^ 16) : Close x ↔
    scaled x < 2 ^ 12 ∨ 2 ^ 23 ≤ scaled x ∨ ShiftedClose x := by
  have exponent : (parts x).exponent < 143 := (abs_value_lt_iff (by norm_num)).mp range
  rcases Nat.lt_or_ge (scaled x) (2 ^ 12) with small | some
  · exact ⟨fun _ => .inl small, fun _ => close_of_small small⟩
  · rcases Nat.lt_or_ge (scaled x) (2 ^ 23) with low | normal
    · rw [close_of_shifted some low]
      exact ⟨fun close => .inr (.inr close),
        fun cases => (cases.resolve_left (Nat.not_lt.mpr some)).resolve_left (Nat.not_le.mpr low)⟩
    · exact ⟨fun _ => .inr (.inl normal), fun _ => close_of_normal normal exponent⟩

end

/-- For all patterns: the results of non-negative finite numbers are in order, the exponent of a
magnitude below `2 ^ -14` is zero, and the result of a magnitude in range is close to it, each
exactly outside the range that is shifted or where the shifted mantissa happens to fit. -/
theorem floatToFp16_iff (x : BitVec 32) :
    (∀ y : BitVec 32, x.toNat < 0x7F800000 → y.toNat < 0x7F800000 →
      binary32.value x.toNat ≤ binary32.value y.toNat →
      (floatToFp16 x ≤ floatToFp16 y ↔ InOrder x y)) ∧
    (|binary32.value x.toNat| < 1 / 2 ^ 14 →
      (binary16.exponent (floatToFp16 x).toNat = 0 ↔
        scaled x < 2 ^ 12 ∨ scaled x % 2 ^ 15 < 2 ^ 10)) ∧
    (|binary32.value x.toNat| < 2 ^ 16 →
      (Close x ↔ scaled x < 2 ^ 12 ∨ 2 ^ 23 ≤ scaled x ∨ ShiftedClose x)) :=
  ⟨fun _ => order_iff, exponent_eq_zero_iff, close_iff⟩

/-- `(2 ^ 16 + 8) / 2 ^ 37` is shifted, and its mantissa happens to fit. -/
theorem floatToFp16_shifted :
    floatToFp16 0x35000400 ≤ floatToFp16 0x38800000 ∧
      binary16.exponent (floatToFp16 0x35000400).toNat = 0 ∧ Close 0x35000400 := by
  obtain ⟨order, field, close⟩ := floatToFp16_iff 0x35000400
  refine ⟨(order 0x38800000 (by decide) (by decide) ?_).mpr ?_, (field ?_).mpr ?_,
    (close ?_).mpr ?_⟩
  · exact (binary32.value_le_iff rfl rfl).mpr (by decide)
  · unfold InOrder
    decide
  · exact (abs_value_lt_iff (by norm_num)).mpr (by decide : _ < 112 + 1)
  · decide
  · exact (abs_value_lt_iff (by norm_num)).mpr (by decide : _ < 142 + 1)
  · unfold ShiftedClose
    decide

/-- The least subnormal number of the format, `2 ^ -24`, becomes the pattern `0x2000` of
`2 ^ -7`. -/
theorem least_subnormal : floatToFp16 0x33800000 = 0x2000 ∧
    (binary32.value 0x33800000 ≤ binary32.value 0x38800000 ∧
      ¬ floatToFp16 0x33800000 ≤ floatToFp16 0x38800000) ∧
    binary16.exponent (floatToFp16 0x33800000).toNat ≠ 0 ∧ ¬ Close 0x33800000 := by
  refine ⟨by decide, ⟨(binary32.value_le_iff rfl rfl).mpr (by decide), by decide⟩, by decide, ?_⟩
  rw [close_of_shifted (by decide) (by decide)]
  unfold ShiftedClose
  decide

end SoftHier.Fp
