import SoftHier.Lib.Binade
import Mathlib.Data.Int.Log
import Mathlib.Tactic.NormNum

/-!
# Eight-bit floats

`float_to_fp8e4m3` of `light_redmule.cpp`, with the arithmetic of `float` over the rationals.  The
rounded mantissa is masked to its three bits: where it rounds up to eight, the carry into the
exponent is lost.

* `encode_of_inBinade`: the pattern of a number by its binade and its steps in it.
* `e4m3_iff`: where the result is nearest, and where results are in order.
-/

namespace SoftHier.Fp

/-- A `float`: finite numbers are exact. -/
inductive FloatValue
  | nan
  | inf (negative : Bool)
  | finite (value : ℚ)
  deriving DecidableEq

/-! ## The code -/

/-- `roundf`: halves away from zero. -/
def roundf (x : ℚ) : ℤ := if x < 0 then -⌊-x + 1 / 2⌋ else ⌊x + 1 / 2⌋

/-- `frexpf` of a number that is not negative: a mantissa in `[1/2, 1)` and an exponent. -/
def frexpf (x : ℚ) : ℚ × ℤ :=
  if x = 0 then (0, 0) else (x / 2 ^ (Int.log 2 x + 1), Int.log 2 x + 1)

/-- `fp8e4m3_to_float(value)` -/
def fp8e4m3ToFloat (value : BitVec 8) : FloatValue :=
  let sign := (value &&& 0x80) >>> 7
  let exponent := ((value &&& 0x78) >>> 3).toNat
  let fraction := (value &&& 0x07).toNat
  if exponent = 0 then
    if fraction = 0 then .finite 0
    else .finite ((if sign ≠ 0 then -1 else 1) * (fraction / 8) * 2 ^ (-6 : ℤ))
  else if exponent = 15 then
    if fraction ≠ 0 then .nan else .inf (sign ≠ 0)
  else
    let mantissa : ℚ := 1 + fraction / 8
    let result := mantissa * 2 ^ (exponent - 7 : ℤ)
    .finite (if sign ≠ 0 then -result else result)

/-- `float_to_fp8e4m3(value)` -/
def floatToFp8e4m3 : FloatValue → BitVec 8
  | .nan => 0x7F
  | .inf negative => if negative then 0xF8 else 0x78
  | .finite value =>
    let sign : BitVec 8 := if value < 0 then 0x80 else 0x00
    let value := |value|
    let (mantissa, exponent) := frexpf value
    if value = 0 then 0
    else
      let exponent := exponent + (7 - 1)
      if exponent < 1 then
        let frac := roundf (value / 2 ^ (-6 : ℤ) * 8)
        sign ||| (BitVec.ofInt 8 frac &&& 0x07)
      else if exponent > 14 then sign ||| 0x78
      else
        let frac := BitVec.ofInt 8 (roundf ((mantissa - 1 / 2) * 16))
        sign ||| (BitVec.ofNat 8 (exponent.toNat <<< 3) &&& 0x78) ||| (frac &&& 0x07)

/-! ## Decoding -/

def e4m3 : Format := ⟨3, 4⟩

theorem magnitude_lt (b : BitVec 8) : e4m3.magnitude b.toNat < 2 ^ 7 := Nat.mod_lt _ (by decide)

theorem exponent_field (b : BitVec 8) :
    ((b &&& 0x78) >>> 3).toNat = e4m3.magnitude b.toNat / 8 := by
  revert b
  decide +kernel

theorem fraction_field (b : BitVec 8) : (b &&& 0x07).toNat = e4m3.magnitude b.toNat % 8 := by
  revert b
  decide +kernel

theorem sign_field (b : BitVec 8) :
    decide ((b &&& 0x80) >>> 7 ≠ 0) = e4m3.negative b.toNat := by
  revert b
  decide +kernel

/-- A power of two of the decoder. -/
theorem power_eq (e : Nat) : (2 : ℚ) ^ ((e + 1 : Nat) - 7 : ℤ) = 2 ^ e / 64 := by
  have shift : ((e + 1 : Nat) - 7 : ℤ) = (e : ℤ) - 6 := by
    push_cast
    ring
  rw [shift, zpow_sub₀ two_ne_zero, zpow_natCast]
  norm_num

/-- A pattern below the exponent 15 is finite. -/
theorem decode_finite {b : BitVec 8} (finite : e4m3.magnitude b.toNat < 120) :
    fp8e4m3ToFloat b = .finite (e4m3.value b.toNat) := by
  have scale : (e4m3.scale : ℚ) = 512 := rfl
  have sign := sign_field b
  unfold fp8e4m3ToFloat Format.value
  dsimp only
  rw [exponent_field, fraction_field, scale, ← sign]
  simp only [decide_eq_true_eq]
  obtain low | ⟨e, f, mantissa, fields⟩ := pattern_cases 3 (e4m3.magnitude b.toNat)
  · have less : e4m3.magnitude b.toNat < 8 := low
    rw [if_pos (Nat.div_eq_of_lt less), Nat.mod_eq_of_lt less]
    have subnormal : units e4m3.manBits (e4m3.magnitude b.toNat) = e4m3.magnitude b.toNat :=
      units_subnormal low
    rw [subnormal]
    split
    · rename_i zero
      rw [zero]
      simp
    · congr 1
      norm_num
      ring_nf
  · have exponent : e4m3.magnitude b.toNat / 8 = e + 1 := by omega
    have fraction : e4m3.magnitude b.toNat % 8 = f := by omega
    have normal : units e4m3.manBits (e4m3.magnitude b.toNat) = (8 + f) * 2 ^ e := by
      rw [fields]
      exact units_normal mantissa
    rw [exponent, fraction, normal, if_neg (Nat.succ_ne_zero e), if_neg (by omega), power_eq]
    congr 1
    push_cast
    split <;> ring

theorem decode_infinite {b : BitVec 8} (infinite : 120 ≤ e4m3.magnitude b.toNat) (x : ℚ) :
    fp8e4m3ToFloat b ≠ .finite x := by
  have less := magnitude_lt b
  unfold fp8e4m3ToFloat
  dsimp only
  rw [exponent_field, if_neg (by omega), if_pos (by omega)]
  split
  · exact FloatValue.noConfusion
  · exact FloatValue.noConfusion

/-! ## Encoding -/

theorem roundf_of_nonneg {x : ℚ} (nonneg : 0 ≤ x) : roundf x = (⌊x + 1 / 2⌋₊ : ℤ) := by
  unfold roundf
  rw [if_neg (not_lt.mpr nonneg), Int.natCast_floor_eq_floor (by linarith)]

/-- The exponent of `frexpf` in the binades of the format. -/
theorem log_of_inBinade {x : ℚ} {e : Nat} (inside : InBinade 3 (e + 1) (512 * x)) :
    Int.log 2 x = (e : ℤ) - 6 := by
  have above := inside.above
  have below := inside.below
  rw [units_binade] at above below
  push_cast at above below
  have pos : 0 < x := by
    have := pow_pos (two_pos : (0 : ℚ) < 2) e
    linarith
  have low : (2 : ℚ) ^ ((e : ℤ) - 6) = 2 ^ e / 64 := by
    rw [zpow_sub₀ two_ne_zero, zpow_natCast]
    norm_num
  have high : (2 : ℚ) ^ ((e : ℤ) - 6 + 1) = 2 ^ (e + 1) / 64 := by
    rw [zpow_add₀ two_ne_zero, low, pow_succ]
    ring
  apply le_antisymm
  · rw [← Int.lt_add_one_iff, ← Int.lt_zpow_iff_log_lt (by decide) pos]
    push_cast
    rw [high]
    linarith
  · rw [← Int.zpow_le_iff_le_log (by decide) pos]
    push_cast
    rw [low]
    linarith

theorem log_of_subnormal {x : ℚ} (pos : 0 < x) (inside : InBinade 3 0 (512 * x)) :
    Int.log 2 x < -6 := by
  have below := inside.below
  have first : units 3 ((0 + 1) * 2 ^ 3) = 8 := rfl
  rw [first] at below
  rw [← Int.lt_zpow_iff_log_lt (by decide) pos]
  push_cast at below ⊢
  norm_num
  linarith

theorem steps_subnormal (x : ℚ) : steps 3 0 x = x := by
  have first : units 3 (0 * 2 ^ 3) = 0 := rfl
  have place : ulp 3 (0 * 2 ^ 3) = 1 := rfl
  unfold steps
  rw [first, place]
  norm_num

theorem steps_normal (x : ℚ) (e : Nat) : steps 3 (e + 1) x = x / 2 ^ e - 8 := by
  have first : ulp 3 ((e + 1) * 2 ^ 3) = 2 ^ e := ulp_normal (f := 0) (by decide)
  have pos := pow_pos (two_pos : (0 : ℚ) < 2) e
  unfold steps
  rw [first, units_binade]
  push_cast
  rw [sub_div, mul_div_assoc, div_self pos.ne']
  norm_num

/-- The pattern by its binade and its rounded steps, of which the code keeps three bits. -/
def packed (negative : Bool) (e r : Nat) : BitVec 8 :=
  BitVec.ofNat 8 ((if negative then 128 else 0) + (e * 8 + r % 8))

theorem pack_subnormal : ∀ negative, ∀ r ≤ 8,
    (if negative then 0x80 else 0x00) ||| (BitVec.ofInt 8 (r : Nat) &&& 0x07) =
      packed negative 0 r := by
  decide

theorem pack_normal : ∀ negative, ∀ e ≤ 14, ∀ r ≤ 8,
    (if negative then 0x80 else 0x00) ||| (BitVec.ofNat 8 (e <<< 3) &&& 0x78) |||
      (BitVec.ofInt 8 (r : Nat) &&& 0x07) = packed negative e r := by
  decide

/-- The rounded steps of a number in its binade. -/
def rounded (e : Nat) (v : ℚ) : Nat := ⌊steps 3 e (512 * |v|) + 1 / 2⌋₊

section

variable {v : ℚ} {e : Nat} (inside : InBinade 3 e (512 * |v|))
include inside

theorem rounded_le : rounded e v ≤ 8 := inside.round_le

/-- The pattern of a number. -/
theorem encode_of_inBinade (finite : e ≤ 14) :
    floatToFp8e4m3 (.finite v) = packed (v < 0) e (rounded e v) := by
  have small := rounded_le inside
  have nonneg := inside.steps_nonneg
  have steps_eq : roundf (steps 3 e (512 * |v|)) = (rounded e v : ℤ) := roundf_of_nonneg nonneg
  have sign : (if v < 0 then 0x80 else 0x00 : BitVec 8) =
      if decide (v < 0) then 0x80 else 0x00 := by
    simp only [decide_eq_true_eq]
  unfold floatToFp8e4m3 frexpf
  dsimp only
  rcases eq_or_lt_of_le (abs_nonneg v) with zero | pos
  · have none : v = 0 := abs_eq_zero.mp zero.symm
    have first : e = 0 := inside.eq_zero (by rw [none, abs_zero, mul_zero])
    have round : rounded 0 0 = 0 := by
      unfold rounded
      rw [steps_subnormal, Nat.floor_eq_zero]
      norm_num
    rw [if_pos zero.symm, first, none, round]
    simp [packed]
  · rw [if_neg pos.ne', if_neg pos.ne', sign]
    cases e with
    | zero =>
      have below := log_of_subnormal pos inside
      have scaled : |v| / 2 ^ (-6 : ℤ) * 8 = steps 3 0 (512 * |v|) := by
        rw [steps_subnormal]
        norm_num
        ring
      rw [if_pos (by omega), scaled, steps_eq, pack_subnormal _ _ small]
    | succ e =>
      have log := log_of_inBinade inside
      have mantissa : (|v| / 2 ^ (Int.log 2 |v| + 1) - 1 / 2) * 16 =
          steps 3 (e + 1) (512 * |v|) := by
        rw [steps_normal, log, zpow_add₀ two_ne_zero, zpow_sub₀ two_ne_zero, zpow_natCast]
        norm_num
        ring
      have exponent : (Int.log 2 |v| + 1 + (7 - 1)).toNat = e + 1 := by omega
      dsimp only
      rw [if_neg (by omega), if_neg (by omega), mantissa, steps_eq, exponent,
        pack_normal _ _ finite _ small]

end

section

variable {negative : Bool} {e r : Nat}

theorem magnitude_packed (finite : e ≤ 14) :
    e4m3.magnitude (packed negative e r).toNat = e * 8 + r % 8 := by
  have magnitude : e4m3.magnitude (packed negative e r).toNat = (packed negative e r).toNat % 128 :=
    rfl
  rw [magnitude]
  unfold packed
  rw [BitVec.toNat_ofNat]
  split <;> omega

theorem negative_packed (finite : e ≤ 14) :
    e4m3.negative (packed negative e r).toNat = negative := by
  have bit : e4m3.negative (packed negative e r).toNat = (packed negative e r).toNat.testBit 7 :=
    rfl
  rw [bit, Nat.testBit_eq_decide_div_mod_eq]
  unfold packed
  rw [BitVec.toNat_ofNat]
  cases negative with
  | false =>
    rw [if_neg Bool.false_ne_true, decide_eq_false_iff_not]
    omega
  | true =>
    rw [if_pos rfl, decide_eq_true_eq]
    omega

theorem decode_packed (finite : e ≤ 14) : fp8e4m3ToFloat (packed negative e r) =
    .finite ((if negative then -1 else 1) * (units 3 (e * 8 + r % 8) / 512)) := by
  have scale : (e4m3.scale : ℚ) = 512 := rfl
  rw [decode_finite (by rw [magnitude_packed finite]; omega)]
  unfold Format.value
  rw [magnitude_packed finite, negative_packed finite, scale]
  rfl

end

/-- The number that the code stores for `v`. -/
def decoded (v : ℚ) : FloatValue := fp8e4m3ToFloat (floatToFp8e4m3 (.finite v))

/-- The magnitude of a finite pattern. -/
theorem abs_of_decode {b : BitVec 8} {d : ℚ} (finite : fp8e4m3ToFloat b = .finite d) :
    ∃ m < 120, |d| = units 3 m / 512 := by
  have scale : (e4m3.scale : ℚ) = 512 := rfl
  rcases Nat.lt_or_ge (e4m3.magnitude b.toNat) 120 with inside | infinite
  · rw [decode_finite inside, FloatValue.finite.injEq] at finite
    refine ⟨_, inside, ?_⟩
    rw [← finite, Format.abs_value, scale]
    rfl
  · exact absurd finite (decode_infinite infinite d)

/-! ## Nearest -/

/-- The stored number is finite, and no finite pattern is nearer. -/
def Nearest (v : ℚ) : Prop :=
  ∃ d, decoded v = .finite d ∧
    ∀ (b : BitVec 8) (d' : ℚ), fp8e4m3ToFloat b = .finite d' → |v - d| ≤ |v - d'|

/-- The magnitude is in the upper half of the last step of the binade `e` (or of the subnormal
numbers, for `e = 0`), so that it rounds up to the first number behind it. -/
def CarriesAt (e : Nat) (v : ℚ) : Prop :=
  units 3 (e * 8) + 15 / 2 * ulp 3 (e * 8) ≤ 512 * |v| ∧ 512 * |v| < units 3 ((e + 1) * 8)

def Carries (v : ℚ) : Prop := ∃ e, CarriesAt e v

/-- Numbers up to the largest finite one are in the binades of the format. -/
theorem exists_binade {v : ℚ} (range : |v| ≤ 240) : ∃ e ≤ 14, InBinade 3 e (512 * |v|) := by
  have top : units 3 ((14 + 1) * 2 ^ 3) = 131072 := by decide
  have nonneg := abs_nonneg v
  refine exists_inBinade (by linarith) ?_
  rw [top]
  push_cast
  linarith

theorem abs_sub_magnitude (v : ℚ) (n : Nat) :
    abs (|v| - units 3 n / 512) = |512 * |v| - units 3 n| / 512 := by
  have pos : (0 : ℚ) < 512 := by norm_num
  have split : |v| - units 3 n / 512 = (512 * |v| - units 3 n) / 512 := by ring
  rw [split, abs_div, abs_of_pos pos]

/-- The distance of a number from a stored one with its sign. -/
theorem abs_sub_signed (v : ℚ) (n : Nat) :
    |v - (if v < 0 then -1 else 1) * (units 3 n / 512)| = |512 * |v| - units 3 n| / 512 := by
  rw [← abs_sub_magnitude]
  split
  · rename_i negative
    rw [abs_of_neg negative, neg_one_mul, sub_neg_eq_add, ← abs_neg, neg_add']
  · rename_i nonneg
    rw [abs_of_nonneg (not_lt.mp nonneg), one_mul]

section

variable {v : ℚ} {e : Nat} (inside : InBinade 3 e (512 * |v|))
include inside

theorem carriesAt_iff (k : Nat) : CarriesAt k v ↔ k = e ∧ 15 / 2 ≤ steps 3 e (512 * |v|) := by
  have pos : (0 : ℚ) < ulp 3 (e * 8) := ulp_cast_pos
  have split : 512 * |v| = units 3 (e * 8) + steps 3 e (512 * |v|) * ulp 3 (e * 8) := eq_steps
  constructor
  · rintro ⟨above, below⟩
    have place : (0 : ℚ) < ulp 3 (k * 8) := ulp_cast_pos
    have other : InBinade 3 k (512 * |v|) := ⟨le_trans (by linarith) above, below⟩
    obtain rfl := other.unique inside
    refine ⟨rfl, ?_⟩
    apply le_of_mul_le_mul_right _ pos
    linarith
  · rintro ⟨rfl, high⟩
    refine ⟨?_, inside.below⟩
    have := mul_le_mul_of_nonneg_right high pos.le
    linarith

theorem carries_iff : Carries v ↔ 15 / 2 ≤ steps 3 e (512 * |v|) := by
  unfold Carries
  simp only [carriesAt_iff inside, exists_eq_left]

/-- A number carries if its steps round to a whole binade. -/
theorem carries_iff_rounded : Carries v ↔ rounded e v = 8 := by
  have small := rounded_le inside
  rw [carries_iff inside]
  unfold rounded at small ⊢
  have eight : 8 ≤ ⌊steps 3 e (512 * |v|) + 1 / 2⌋₊ ↔
      ((8 : Nat) : ℚ) ≤ steps 3 e (512 * |v|) + 1 / 2 :=
    Nat.le_floor_iff (by linarith [inside.steps_nonneg])
  push_cast at eight
  constructor
  · intro high
    exact Nat.le_antisymm small (eight.mpr (by linarith))
  · intro whole
    linarith [eight.mp whole.ge]

theorem decoded_eq (finite : e ≤ 14) : decoded v =
    .finite ((if v < 0 then -1 else 1) * (units 3 (e * 8 + rounded e v % 8) / 512)) := by
  unfold decoded
  rw [encode_of_inBinade inside finite, decode_packed finite]
  simp only [decide_eq_true_eq]

theorem nearest_of_not_carries (finite : e ≤ 14) (keeps : ¬ Carries v) : Nearest v := by
  rw [carries_iff_rounded inside] at keeps
  have small := rounded_le inside
  refine ⟨_, decoded_eq inside finite, fun b d' other => ?_⟩
  obtain ⟨m, -, magnitude⟩ := abs_of_decode other
  have kept : rounded e v % 8 = rounded e v := Nat.mod_eq_of_lt (by omega)
  have reverse : abs (|v| - |d'|) ≤ |v - d'| := abs_abs_sub_abs_le v d'
  rw [magnitude, abs_sub_magnitude] at reverse
  rw [abs_sub_signed, kept]
  have nearest := inside.nearest_round m
  exact (div_le_div_of_nonneg_right nearest (by norm_num)).trans reverse

/-- A carry that is lost puts the number to the begin of its binade, away from the last one
there. -/
theorem not_nearest_of_carries (finite : e ≤ 14) (carries : Carries v) : ¬ Nearest v := by
  rintro ⟨d, stored, nearest⟩
  rw [decoded_eq inside finite, (carries_iff_rounded inside).mp carries, FloatValue.finite.injEq,
    Nat.mod_self, Nat.add_zero] at stored
  have high := (carries_iff inside).mp carries
  have low := inside.steps_lt
  have pos : (0 : ℚ) < ulp 3 (e * 8) := ulp_cast_pos
  have split : 512 * |v| = units 3 (e * 8) + steps 3 e (512 * |v|) * ulp 3 (e * 8) := eq_steps
  have last : (units 3 (e * 8 + 7) : ℚ) = units 3 (e * 8) + 7 * ulp 3 (e * 8) := by
    exact_mod_cast units_add (w := 3) (e := e) (j := 7) (by decide)
  have other := nearest (packed (v < 0) e 7) _ (decode_packed finite)
  simp only [decide_eq_true_eq] at other
  rw [← stored, abs_sub_signed, abs_sub_signed, div_le_div_iff_of_pos_right (by norm_num),
    Nat.mod_eq_of_lt (by decide : 7 < 8), last] at other
  have far : 15 / 2 * ulp 3 (e * 8) ≤ 512 * |v| - units 3 (e * 8) := by
    have := mul_le_mul_of_nonneg_right high pos.le
    linarith
  have near : 512 * |v| - units 3 (e * 8) ≤ 8 * ulp 3 (e * 8) := by
    have := mul_le_mul_of_nonneg_right low.le pos.le
    linarith
  have begun : |512 * |v| - units 3 (e * 8)| = 512 * |v| - units 3 (e * 8) :=
    abs_of_nonneg (by linarith)
  have ended : |512 * |v| - (units 3 (e * 8) + 7 * ulp 3 (e * 8))| =
      512 * |v| - (units 3 (e * 8) + 7 * ulp 3 (e * 8)) := abs_of_nonneg (by linarith)
  rw [begun, ended] at other
  linarith

end

/-- The stored number is nearest exactly if there is no carry to lose. -/
theorem nearest_iff {v : ℚ} (range : |v| ≤ 240) : Nearest v ↔ ¬ Carries v := by
  obtain ⟨e, finite, inside⟩ := exists_binade range
  constructor
  · exact fun nearest carries => not_nearest_of_carries inside finite carries nearest
  · exact nearest_of_not_carries inside finite

/-! ## Order -/

/-- The stored numbers are finite and in order. -/
def Ordered (v w : ℚ) : Prop := ∃ d d', decoded v = .finite d ∧ decoded w = .finite d' ∧ d ≤ d'

/-- Of the magnitudes of `v` and `w`: if `w` carries out of a binade, then `v` carries too, or is
less than half a step above the begin of that binade. -/
def KeepsOrder (v w : ℚ) : Prop :=
  ∀ e, CarriesAt e w → Carries v ∨ 512 * |v| < units 3 (e * 8) + 1 / 2 * ulp 3 (e * 8)

/-- A number less than half a step above the begin of its binade rounds to that. -/
theorem rounded_eq_zero_iff {v : ℚ} {e : Nat} :
    rounded e v = 0 ↔ 512 * |v| < units 3 (e * 8) + 1 / 2 * ulp 3 (e * 8) := by
  have pos : (0 : ℚ) < ulp 3 (e * 8) := ulp_cast_pos
  have split : 512 * |v| = units 3 (e * 8) + steps 3 e (512 * |v|) * ulp 3 (e * 8) := eq_steps
  unfold rounded
  rw [Nat.floor_eq_zero]
  constructor
  · intro low
    have := mul_lt_mul_of_pos_right (by linarith : steps 3 e (512 * |v|) < 1 / 2) pos
    linarith
  · intro low
    have less : steps 3 e (512 * |v|) < 1 / 2 := by
      apply lt_of_mul_lt_mul_right _ pos.le
      linarith
    linarith

section

variable {v w : ℚ} {e k : Nat} (hv : InBinade 3 e (512 * |v|)) (hw : InBinade 3 k (512 * |w|))
include hv hw

/-- The patterns of two magnitudes. -/
theorem pattern_le_iff (le : |v| ≤ |w|) :
    e * 8 + rounded e v % 8 ≤ k * 8 + rounded k w % 8 ↔ KeepsOrder v w := by
  have order : 512 * |v| ≤ 512 * |w| := by linarith
  have binades := hv.le_of_le hw order
  have small := rounded_le hw
  have keeps : KeepsOrder v w ↔ (rounded k w = 8 →
      Carries v ∨ 512 * |v| < units 3 (k * 8) + 1 / 2 * ulp 3 (k * 8)) := by
    unfold KeepsOrder
    rw [← carries_iff_rounded hw, carries_iff hw]
    simp only [carriesAt_iff hw, and_imp, forall_eq]
  rw [keeps]
  rcases Nat.lt_or_eq_of_le binades with before | rfl
  · have mono : units 3 ((e + 1) * 8) ≤ units 3 (k * 8) := units_strictMono.monotone (by omega)
    have cast : (units 3 ((e + 1) * 8) : ℚ) ≤ units 3 (k * 8) := by exact_mod_cast mono
    have below : 512 * |v| < units 3 ((e + 1) * 8) := hv.below
    have pos : (0 : ℚ) < ulp 3 (k * 8) := ulp_cast_pos
    refine ⟨fun _ _ => .inr (by linarith), fun _ => by omega⟩
  · rw [← rounded_eq_zero_iff, carries_iff_rounded hv]
    have rounds : rounded e v ≤ rounded e w :=
      Nat.floor_le_floor (by linarith [steps_mono (w := 3) (e := e) order])
    omega

end

theorem keepsOrder_zero (w : ℚ) : KeepsOrder 0 w := by
  intro e _
  have pos : (0 : ℚ) < ulp 3 (e * 8) := ulp_cast_pos
  have nonneg : (0 : ℚ) ≤ units 3 (e * 8) := Nat.cast_nonneg _
  rw [abs_zero, mul_zero]
  exact .inr (by linarith)

/-- Stored numbers in order, by their signs and patterns. -/
theorem ordered_iff_signed {v w : ℚ} {e k : Nat} (hv : InBinade 3 e (512 * |v|)) (finite : e ≤ 14)
    (hw : InBinade 3 k (512 * |w|)) (finite' : k ≤ 14) : Ordered v w ↔
      (if v < 0 then -1 else 1 : ℚ) * (units 3 (e * 8 + rounded e v % 8) / 512) ≤
        (if w < 0 then -1 else 1 : ℚ) * (units 3 (k * 8 + rounded k w % 8) / 512) := by
  unfold Ordered
  rw [decoded_eq hv finite, decoded_eq hw finite']
  constructor
  · rintro ⟨_, _, first, second, order⟩
    rw [FloatValue.finite.injEq] at first second
    rwa [first, second]
  · exact fun order => ⟨_, _, rfl, rfl, order⟩

theorem magnitude_nonneg (n : Nat) : (0 : ℚ) ≤ units 3 n / 512 :=
  div_nonneg (Nat.cast_nonneg _) (by norm_num)

theorem magnitude_le_iff (n m : Nat) : (units 3 n : ℚ) / 512 ≤ units 3 m / 512 ↔ n ≤ m := by
  rw [div_le_div_iff_of_pos_right (by norm_num), Nat.cast_le, units_strictMono.le_iff_le]

/-- The stored numbers are in order exactly if the magnitudes on either side of zero keep their
order. -/
theorem ordered_iff {v w : ℚ} (hv : |v| ≤ 240) (hw : |w| ≤ 240) (le : v ≤ w) :
    Ordered v w ↔ (0 ≤ v → KeepsOrder v w) ∧ (w ≤ 0 → KeepsOrder w v) := by
  obtain ⟨e, finite, inside⟩ := exists_binade hv
  obtain ⟨k, finite', inside'⟩ := exists_binade hw
  rw [ordered_iff_signed inside finite inside' finite']
  rcases lt_or_ge v 0 with negative | positive
  · rw [if_pos negative]
    rcases lt_or_ge w 0 with negative' | positive'
    · have shorter : |w| ≤ |v| := by
        rw [abs_of_neg negative, abs_of_neg negative']
        linarith
      rw [if_pos negative', neg_one_mul, neg_one_mul, neg_le_neg_iff, magnitude_le_iff,
        pattern_le_iff inside' inside shorter]
      exact ⟨fun keeps => ⟨fun above => absurd negative (not_lt.mpr above), fun _ => keeps⟩,
        fun both => both.2 negative'.le⟩
    · rw [if_neg (not_lt.mpr positive'), neg_one_mul, one_mul]
      constructor
      · intro _
        refine ⟨fun above => absurd negative (not_lt.mpr above), fun below => ?_⟩
        rw [le_antisymm below positive']
        exact keepsOrder_zero v
      · exact fun _ => (neg_nonpos.mpr (magnitude_nonneg _)).trans (magnitude_nonneg _)
  · have positive' := positive.trans le
    have shorter : |v| ≤ |w| := by
      rwa [abs_of_nonneg positive, abs_of_nonneg positive']
    rw [if_neg (not_lt.mpr positive), if_neg (not_lt.mpr positive'), one_mul, one_mul,
      magnitude_le_iff, pattern_le_iff inside inside' shorter]
    refine ⟨fun keeps => ⟨fun _ => keeps, fun below => ?_⟩, fun both => both.1 positive⟩
    rw [le_antisymm below positive']
    exact keepsOrder_zero v

/-- For numbers up to the largest finite one: the stored number is nearest exactly if the mantissa
does not round up to the next power of two, and the order of two is kept exactly if the magnitude
of the larger one does not either, or that of the smaller one does not get above it. -/
theorem e4m3_iff (v : ℚ) (hv : |v| ≤ 240) :
    (Nearest v ↔ ¬ Carries v) ∧
    ∀ w : ℚ, |w| ≤ 240 → v ≤ w →
      (Ordered v w ↔ (0 ≤ v → KeepsOrder v w) ∧ (w ≤ 0 → KeepsOrder w v)) :=
  ⟨nearest_iff hv, fun _ => ordered_iff hv⟩

theorem inBinade_seven {v : ℚ} (low : 1 ≤ |v|) (high : |v| < 2) : InBinade 3 7 (512 * |v|) := by
  have first : units 3 (7 * 2 ^ 3) = 512 := by decide
  have last : units 3 ((7 + 1) * 2 ^ 3) = 1024 := by decide
  constructor
  · rw [first]
    push_cast
    linarith
  · rw [last]
    push_cast
    linarith

/-- Below the last half step in front of 2 nothing carries. -/
theorem not_carries_seven {v : ℚ} (low : 1 ≤ |v|) (high : |v| < 31 / 16) : ¬ Carries v := by
  rw [carries_iff (inBinade_seven low (by linarith))]
  have first : units 3 (7 * 2 ^ 3) = 512 := by decide
  have step : ulp 3 (7 * 2 ^ 3) = 64 := by decide
  unfold steps
  rw [first, step]
  push_cast
  linarith

/-- Numbers between two steps in the binade from 1 on. -/
theorem between_steps : Nearest (-27 / 16) ∧ Ordered (27 / 16) (57 / 32) := by
  have inside : ¬ Carries (-27 / 16) := not_carries_seven (by norm_num [abs]) (by norm_num [abs])
  have inside' : ¬ Carries (57 / 32) := not_carries_seven (by norm_num [abs]) (by norm_num [abs])
  constructor
  · exact (e4m3_iff (-27 / 16) (by norm_num [abs])).1.mpr inside
  · refine ((e4m3_iff (27 / 16) (by norm_num [abs])).2 (57 / 32) (by norm_num [abs])
      (by norm_num)).mpr ⟨fun _ e carries => absurd ⟨e, carries⟩ inside', fun below => ?_⟩
    norm_num at below

/-- `63 / 32` rounds up to 2 and is stored as 1, below the `3 / 2` that is stored for `3 / 2`. -/
theorem lost_carry : ¬ Nearest (63 / 32) ∧ ¬ Ordered (3 / 2) (63 / 32) := by
  have units_eq : units 3 (7 * 8) = 512 := by decide
  have next : units 3 ((7 + 1) * 8) = 1024 := by decide
  have place : ulp 3 (7 * 8) = 64 := by decide
  have carries : CarriesAt 7 (63 / 32) := by
    unfold CarriesAt
    rw [units_eq, next, place]
    norm_num
  constructor
  · rw [nearest_iff (by norm_num), not_not]
    exact ⟨7, carries⟩
  · rw [ordered_iff (by norm_num) (by norm_num) (by norm_num)]
    rintro ⟨keeps, -⟩
    rcases keeps (by norm_num) 7 carries with carries | low
    · exact not_carries_seven (by norm_num [abs]) (by norm_num [abs]) carries
    · rw [units_eq, place] at low
      norm_num at low

end SoftHier.Fp
