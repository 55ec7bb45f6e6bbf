import Mathlib.Algebra.Order.Field.Basic
import Mathlib.Algebra.Order.Field.Rat
import Mathlib.Data.Rat.Floor
import Mathlib.Tactic.Ring
import Mathlib.Tactic.Linarith

/-!
# Binary floating-point formats

The magnitudes of a format with mantissas of `w` bits, as multiples of the least positive one: the
patterns below `2 ^ w` are subnormal, and every `2 ^ w` patterns from there on make up a binade
with twice the distance of the one before.

* `units_succ`: the next pattern is one unit in the last place above.
* `units_strictMono`: patterns are ordered as their magnitudes.
* `nearest_low`, `nearest_high`: of the two magnitudes around a number the nearer one is nearest of
  all.
* `nearest_round`: so is the one that the steps above the first pattern of the binade round to.
* `Format.close_iff`: values of two formats are within one unit in the last place of the coarser
  one.
-/

namespace SoftHier

/-- The magnitude of a pattern without its sign. -/
def units (w n : Nat) : Nat :=
  if n / 2 ^ w = 0 then n % 2 ^ w else (2 ^ w + n % 2 ^ w) * 2 ^ (n / 2 ^ w - 1)

/-- One unit in the last place of a pattern. -/
def ulp (w n : Nat) : Nat := 2 ^ (n / 2 ^ w - 1)

section

variable {w n m e f : Nat}

theorem ulp_pos : 0 < ulp w n := Nat.two_pow_pos _

/-- A normal pattern by its fields. -/
theorem units_normal (mantissa : f < 2 ^ w) :
    units w ((e + 1) * 2 ^ w + f) = (2 ^ w + f) * 2 ^ e := by
  have pos := Nat.two_pow_pos w
  have exponent : ((e + 1) * 2 ^ w + f) / 2 ^ w = e + 1 := by
    rw [Nat.mul_comm, Nat.mul_add_div pos, Nat.div_eq_of_lt mantissa, Nat.add_zero]
  unfold units
  rw [exponent, if_neg (Nat.succ_ne_zero e), Nat.mul_comm (e + 1), Nat.mul_add_mod,
    Nat.mod_eq_of_lt mantissa, Nat.add_sub_cancel]

theorem units_subnormal (mantissa : f < 2 ^ w) : units w f = f := by
  unfold units
  rw [if_pos (Nat.div_eq_of_lt mantissa), Nat.mod_eq_of_lt mantissa]

theorem ulp_normal (mantissa : f < 2 ^ w) : ulp w ((e + 1) * 2 ^ w + f) = 2 ^ e := by
  unfold ulp
  rw [Nat.mul_comm, Nat.mul_add_div (Nat.two_pow_pos w), Nat.div_eq_of_lt mantissa, Nat.add_zero,
    Nat.add_sub_cancel]

theorem ulp_subnormal (mantissa : f < 2 ^ w) : ulp w f = 1 := by
  unfold ulp
  rw [Nat.div_eq_of_lt mantissa, Nat.zero_sub, Nat.pow_zero]

/-- A pattern is subnormal, or normal with its fields. -/
theorem pattern_cases (w n : Nat) :
    n < 2 ^ w ∨ ∃ e f, f < 2 ^ w ∧ n = (e + 1) * 2 ^ w + f := by
  rcases Nat.lt_or_ge n (2 ^ w) with low | high
  · exact .inl low
  · have pos := Nat.two_pow_pos w
    have some : 0 < n / 2 ^ w := Nat.div_pos high pos
    refine .inr ⟨n / 2 ^ w - 1, n % 2 ^ w, Nat.mod_lt n pos, ?_⟩
    rw [Nat.sub_add_cancel some]
    exact (Nat.div_add_mod' n (2 ^ w)).symm

/-- The first pattern of a binade has the magnitude behind the last of the binade before. -/
theorem units_binade : units w ((e + 1) * 2 ^ w) = 2 ^ w * 2 ^ e := by
  have first := units_normal (e := e) (Nat.two_pow_pos w)
  rwa [Nat.add_zero, Nat.add_zero] at first

theorem units_succ : units w (n + 1) = units w n + ulp w n := by
  rcases pattern_cases w n with low | ⟨e, f, mantissa, rfl⟩
  · have le : n + 1 ≤ 2 ^ w := low
    rw [units_subnormal low, ulp_subnormal low]
    rcases Nat.lt_or_eq_of_le le with inside | last
    · exact units_subnormal inside
    · have first := units_binade (w := w) (e := 0)
      rw [Nat.zero_add, Nat.one_mul, Nat.pow_zero, Nat.mul_one] at first
      rw [last, first]
  · have le : f + 1 ≤ 2 ^ w := mantissa
    rw [units_normal mantissa, ulp_normal mantissa, Nat.add_assoc]
    rcases Nat.lt_or_eq_of_le le with inside | last
    · rw [units_normal inside]
      ring
    · rw [last, ← Nat.succ_mul, units_binade]
      calc 2 ^ w * 2 ^ (e + 1) = (2 ^ w + 2 ^ w) * 2 ^ e := by ring
        _ = (2 ^ w + f) * 2 ^ e + 2 ^ e := by
          rw [← last]
          ring

theorem units_strictMono : StrictMono (units w) :=
  strictMono_nat_of_lt_succ fun _ => by
    rw [units_succ]
    exact Nat.lt_add_of_pos_right ulp_pos

end

/-! ## Nearest magnitudes -/

section

variable {w n : Nat} {x : ℚ}

/-- In the lower half of the distance to the next magnitude. -/
theorem nearest_low (above : (units w n : ℚ) ≤ x) (half : 2 * (x - units w n) ≤ ulp w n) (m : Nat) :
    |x - units w n| ≤ |x - units w m| := by
  rw [abs_of_nonneg (sub_nonneg.mpr above)]
  rcases Nat.lt_or_ge n m with higher | lower
  · have step : units w n + ulp w n ≤ units w m := by
      rw [← units_succ]
      exact units_strictMono.monotone higher
    have cast : (units w n : ℚ) + ulp w n ≤ units w m := by exact_mod_cast step
    have below := neg_le_abs (x - units w m)
    linarith
  · have order : (units w m : ℚ) ≤ units w n := by exact_mod_cast units_strictMono.monotone lower
    have below := le_abs_self (x - units w m)
    linarith

/-- In the upper half. -/
theorem nearest_high (below : x ≤ units w (n + 1)) (half : (ulp w n : ℚ) ≤ 2 * (x - units w n))
    (m : Nat) :
    |x - units w (n + 1)| ≤ |x - units w m| := by
  have step : (units w (n + 1) : ℚ) = units w n + ulp w n := by exact_mod_cast units_succ
  rw [abs_of_nonpos (sub_nonpos.mpr below)]
  rcases Nat.lt_or_ge n m with higher | lower
  · have order : (units w (n + 1) : ℚ) ≤ units w m := by
      exact_mod_cast units_strictMono.monotone higher
    have above := neg_le_abs (x - units w m)
    linarith
  · have order : (units w m : ℚ) ≤ units w n := by exact_mod_cast units_strictMono.monotone lower
    have above := le_abs_self (x - units w m)
    linarith

end

/-! ## Binades -/

section

variable {w e k j : Nat} {x : ℚ}

theorem ulp_add (inside : j < 2 ^ w) : ulp w (e * 2 ^ w + j) = ulp w (e * 2 ^ w) := by
  unfold ulp
  rw [Nat.mul_comm, Nat.mul_add_div (Nat.two_pow_pos w), Nat.div_eq_of_lt inside, Nat.add_zero,
    Nat.mul_div_cancel_left _ (Nat.two_pow_pos w)]

/-- The magnitudes of a binade are equally spaced. -/
theorem units_add (inside : j ≤ 2 ^ w) :
    units w (e * 2 ^ w + j) = units w (e * 2 ^ w) + j * ulp w (e * 2 ^ w) := by
  induction j with
  | zero => rw [Nat.zero_mul, Nat.add_zero, Nat.add_zero]
  | succ j ih =>
    rw [← Nat.add_assoc, units_succ, ulp_add inside, ih (Nat.le_of_succ_le inside), Nat.succ_mul,
      Nat.add_assoc]

/-- A number from the first pattern of a binade up to the first of the next. -/
structure InBinade (w e : Nat) (x : ℚ) : Prop where
  above : (units w (e * 2 ^ w) : ℚ) ≤ x
  below : x < units w ((e + 1) * 2 ^ w)

/-- The steps of a number above the first pattern of its binade. -/
def steps (w e : Nat) (x : ℚ) : ℚ := (x - units w (e * 2 ^ w)) / ulp w (e * 2 ^ w)

theorem steps_mono {y : ℚ} (le : x ≤ y) : steps w e x ≤ steps w e y :=
  div_le_div_of_nonneg_right (sub_le_sub_right le _) (Nat.cast_nonneg _)

theorem ulp_cast_pos {n : Nat} : (0 : ℚ) < ulp w n := by exact_mod_cast ulp_pos

theorem eq_steps : x = units w (e * 2 ^ w) + steps w e x * ulp w (e * 2 ^ w) := by
  unfold steps
  rw [div_mul_cancel₀ _ ulp_cast_pos.ne']
  ring

namespace InBinade

variable (inside : InBinade w e x)
include inside

theorem steps_nonneg : 0 ≤ steps w e x :=
  div_nonneg (sub_nonneg.mpr inside.above) ulp_cast_pos.le

theorem steps_lt : steps w e x < 2 ^ w := by
  have next : units w ((e + 1) * 2 ^ w) = units w (e * 2 ^ w) + 2 ^ w * ulp w (e * 2 ^ w) := by
    rw [Nat.succ_mul, units_add le_rfl]
  have below := inside.below
  rw [next] at below
  push_cast at below
  unfold steps
  rw [div_lt_iff₀ ulp_cast_pos]
  linarith

/-- The binade of a number is unique. -/
theorem unique (other : InBinade w k x) : e = k := by
  have left := (Nat.cast_lt (α := ℚ)).mp (inside.above.trans_lt other.below)
  have right := (Nat.cast_lt (α := ℚ)).mp (other.above.trans_lt inside.below)
  have up := Nat.lt_of_mul_lt_mul_right (units_strictMono.lt_iff_lt.mp left)
  have down := Nat.lt_of_mul_lt_mul_right (units_strictMono.lt_iff_lt.mp right)
  omega

/-- The steps round to at most a whole binade. -/
theorem round_le : ⌊steps w e x + 1 / 2⌋₊ ≤ 2 ^ w := by
  rw [← Nat.lt_succ_iff, Nat.floor_lt (by linarith [inside.steps_nonneg])]
  have less := inside.steps_lt
  push_cast
  linarith

/-- Zero is in the first binade. -/
theorem eq_zero (origin : x = 0) : e = 0 := by
  have above := inside.above
  rw [origin] at above
  have low : units w (e * 2 ^ w) ≤ units w 0 := by
    rw [units_subnormal (Nat.two_pow_pos w)]
    exact_mod_cast above
  have first : e * 2 ^ w ≤ 0 := units_strictMono.le_iff_le.mp low
  exact (Nat.mul_eq_zero.mp (Nat.le_zero.mp first)).resolve_right (Nat.two_pow_pos w).ne'

/-- Larger numbers are in the same binade or a later one. -/
theorem le_of_le {y : ℚ} (other : InBinade w k y) (le : x ≤ y) : e ≤ k := by
  have less := (Nat.cast_lt (α := ℚ)).mp ((inside.above.trans le).trans_lt other.below)
  exact Nat.le_of_lt_succ (Nat.lt_of_mul_lt_mul_right (units_strictMono.lt_iff_lt.mp less))

/-- The pattern that the steps round to is nearest. -/
theorem nearest_round (m : Nat) :
    |x - units w (e * 2 ^ w + ⌊steps w e x + 1 / 2⌋₊)| ≤ |x - units w m| := by
  have nonneg := inside.steps_nonneg
  have pos : (0 : ℚ) < ulp w (e * 2 ^ w) := ulp_cast_pos
  have floor_le := Nat.floor_le nonneg
  have lt_floor := Nat.lt_floor_add_one (steps w e x)
  have low : ⌊steps w e x⌋₊ < 2 ^ w := by
    rw [Nat.floor_lt nonneg]
    exact_mod_cast inside.steps_lt
  have base : (units w (e * 2 ^ w + ⌊steps w e x⌋₊) : ℚ) =
      units w (e * 2 ^ w) + ⌊steps w e x⌋₊ * ulp w (e * 2 ^ w) := by
    exact_mod_cast units_add low.le
  have here : x - units w (e * 2 ^ w + ⌊steps w e x⌋₊) =
      (steps w e x - ⌊steps w e x⌋₊) * ulp w (e * 2 ^ w) := by
    have split := eq_steps (w := w) (e := e) (x := x)
    rw [base]
    linarith
  have place : ulp w (e * 2 ^ w + ⌊steps w e x⌋₊) = ulp w (e * 2 ^ w) := ulp_add low
  rcases lt_or_ge (steps w e x - ⌊steps w e x⌋₊) (1 / 2) with down | up
  · have round : ⌊steps w e x + 1 / 2⌋₊ = ⌊steps w e x⌋₊ := by
      rw [Nat.floor_eq_iff (by linarith)]
      constructor <;> linarith
    rw [round]
    apply nearest_low
    · rw [← sub_nonneg, here]
      exact mul_nonneg (sub_nonneg.mpr floor_le) pos.le
    · rw [here, place, ← mul_assoc]
      exact mul_le_of_le_one_left pos.le (by linarith)
  · have round : ⌊steps w e x + 1 / 2⌋₊ = ⌊steps w e x⌋₊ + 1 := by
      rw [Nat.floor_eq_iff (by linarith)]
      push_cast
      constructor <;> linarith
    rw [round, ← Nat.add_assoc]
    apply nearest_high
    · rw [units_succ, place]
      push_cast
      rw [← sub_le_iff_le_add', here]
      exact mul_le_of_le_one_left pos.le (by linarith)
    · rw [here, place, ← mul_assoc]
      exact le_mul_of_one_le_left pos.le (by linarith)

end InBinade

/-- Numbers below the first pattern of a binade are in a binade before it. -/
theorem exists_inBinade (nonneg : 0 ≤ x) (below : x < units w ((k + 1) * 2 ^ w)) :
    ∃ e ≤ k, InBinade w e x := by
  induction k with
  | zero =>
    refine ⟨0, le_rfl, ?_, below⟩
    rw [Nat.zero_mul, units_subnormal (Nat.two_pow_pos w)]
    exact_mod_cast nonneg
  | succ k ih =>
    rcases lt_or_ge x (units w ((k + 1) * 2 ^ w)) with before | here
    · obtain ⟨e, le, inside⟩ := ih before
      exact ⟨e, Nat.le_succ_of_le le, inside⟩
    · exact ⟨k + 1, le_rfl, here, below⟩

end

/-! ## Patterns with a sign -/

/-- The widths of the fields of a format. -/
structure Format where
  manBits : Nat
  expBits : Nat

namespace Format

variable (F : Format) (bits : Nat)

/-- The pattern without its sign. -/
def magnitude : Nat := bits % 2 ^ (F.expBits + F.manBits)

/-- The field of the exponent. -/
def exponent : Nat := F.magnitude bits / 2 ^ F.manBits

def negative : Bool := bits.testBit (F.expBits + F.manBits)

/-- The least positive magnitude is `1 / scale`. -/
def scale : Nat := 2 ^ (2 ^ (F.expBits - 1) - 1 + F.manBits - 1)

/-- The value of a finite pattern. -/
def value : ℚ :=
  (if F.negative bits then -1 else 1) * (units F.manBits (F.magnitude bits) / F.scale)

/-- One unit in the last place. -/
def place : ℚ := ulp F.manBits (F.magnitude bits) / F.scale

theorem scale_pos : 0 < F.scale := Nat.two_pow_pos _

theorem abs_value : |F.value bits| = units F.manBits (F.magnitude bits) / F.scale := by
  have pos : (0 : ℚ) ≤ units F.manBits (F.magnitude bits) / F.scale :=
    div_nonneg (Nat.cast_nonneg _) (Nat.cast_nonneg _)
  unfold value
  split
  · rw [neg_one_mul, abs_neg, abs_of_nonneg pos]
  · rw [one_mul, abs_of_nonneg pos]

theorem value_of_nonneg (sign : F.negative bits = false) :
    F.value bits = units F.manBits (F.magnitude bits) / F.scale := by
  unfold value
  rw [sign, if_neg Bool.false_ne_true, one_mul]

/-- Values without a sign are ordered as their patterns. -/
theorem value_le_iff {bits bits' : Nat} (sign : F.negative bits = false)
    (sign' : F.negative bits' = false) :
    F.value bits ≤ F.value bits' ↔ F.magnitude bits ≤ F.magnitude bits' := by
  have pos : (0 : ℚ) < F.scale := by exact_mod_cast F.scale_pos
  rw [F.value_of_nonneg bits sign, F.value_of_nonneg bits' sign', div_le_div_iff_of_pos_right pos,
    Nat.cast_le, units_strictMono.le_iff_le]

/-! ## Two formats -/

section

variable {U h u S P : Nat} (coarse : 0 < S) (fine : 0 < P)
include coarse fine

omit coarse in
theorem rescale (n : Nat) : (n : ℚ) / S = ((n * P : Nat) : ℚ) / (S * P : Nat) := by
  have some : (P : ℚ) ≠ 0 := by exact_mod_cast fine.ne'
  push_cast
  exact (mul_div_mul_right _ _ some).symm

theorem abs_sub_lt_place_iff : |(U : ℚ) / (S * P : Nat) - (h : ℚ) / S| < (u : ℚ) / S ↔
    U < (h + u) * P ∧ h * P < U + u * P := by
  have pos : (0 : ℚ) < (S * P : Nat) := by exact_mod_cast Nat.mul_pos coarse fine
  rw [rescale fine h, rescale fine u, ← sub_div, abs_div, abs_of_pos pos,
    div_lt_div_iff_of_pos_right pos, abs_sub_lt_iff, sub_lt_iff_lt_add, sub_lt_iff_lt_add]
  norm_cast
  rw [Nat.add_mul, Nat.add_comm (u * P), Nat.add_comm (u * P)]

theorem abs_add_lt_place_iff : |(U : ℚ) / (S * P : Nat) + (h : ℚ) / S| < (u : ℚ) / S ↔
    U + h * P < u * P := by
  have pos : (0 : ℚ) < (S * P : Nat) := by exact_mod_cast Nat.mul_pos coarse fine
  rw [rescale fine h, rescale fine u, ← add_div, abs_div, abs_of_pos pos,
    div_lt_div_iff_of_pos_right pos]
  norm_cast

end

/-- Values of a fine format `G` and a coarse format `F` with `P` of its steps in one. -/
theorem close_iff (G : Format) {P : Nat} (fine : 0 < P) (scale : G.scale = F.scale * P)
    (bits' : Nat) :
    |G.value bits' - F.value bits| < F.place bits ↔
      if G.negative bits' = F.negative bits then
        units G.manBits (G.magnitude bits') <
            (units F.manBits (F.magnitude bits) + ulp F.manBits (F.magnitude bits)) * P ∧
          units F.manBits (F.magnitude bits) * P <
            units G.manBits (G.magnitude bits') + ulp F.manBits (F.magnitude bits) * P
      else units G.manBits (G.magnitude bits') + units F.manBits (F.magnitude bits) * P <
        ulp F.manBits (F.magnitude bits) * P := by
  unfold value place
  rw [scale]
  cases G.negative bits' with
  | false =>
    cases F.negative bits with
    | false =>
      rw [if_pos rfl, if_neg Bool.false_ne_true, one_mul, one_mul]
      exact abs_sub_lt_place_iff F.scale_pos fine
    | true =>
      rw [if_neg Bool.false_ne_true, if_neg Bool.false_ne_true, if_pos rfl, one_mul, neg_one_mul,
        sub_neg_eq_add]
      exact abs_add_lt_place_iff F.scale_pos fine
  | true =>
    cases F.negative bits with
    | false =>
      rw [if_pos rfl, if_neg Bool.false_ne_true, if_neg Bool.false_ne_true.symm, one_mul,
        neg_one_mul, ← neg_add', abs_neg]
      exact abs_add_lt_place_iff F.scale_pos fine
    | true =>
      rw [if_pos rfl, if_pos rfl, neg_one_mul, neg_one_mul, sub_neg_eq_add, neg_add_eq_sub,
        abs_sub_comm]
      exact abs_sub_lt_place_iff F.scale_pos fine

end Format

end SoftHier
