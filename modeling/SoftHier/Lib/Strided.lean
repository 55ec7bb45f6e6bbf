import Mathlib.Algebra.Order.Ring.Nat
import Mathlib.Data.Nat.ModEq

/-!
# Loops with a stride

`strided bound pos body i s` is the loop `for (; i < bound; i += step) s = body i s`.

* `roundUp`: the least multiple at or above a number.
* `strideEnd`: the counter behind the loop; `add_strideEnd`: where a loop over aligned addresses
  ends.
* `strided_inv`: an invariant that every step keeps holds behind the loop.
* `strided_last`: a loop that runs at all ends with a step from a state with the invariant.
-/

namespace SoftHier

/-! ## Multiples at or above a number -/

/-- The least multiple of `w` at or above `n`. -/
def roundUp (w n : Nat) : Nat := (n + (w - 1)) / w * w

section

variable {w n m a : Nat}

theorem dvd_roundUp : w ∣ roundUp w n := Nat.dvd_mul_left _ _

theorem le_roundUp (pos : 0 < w) : n ≤ roundUp w n := by
  unfold roundUp
  have split := Nat.div_add_mod (n + (w - 1)) w
  have low := Nat.mod_lt (n + (w - 1)) pos
  rw [Nat.mul_comm] at split
  omega

theorem roundUp_lt (pos : 0 < w) : roundUp w n < n + w := by
  have le : roundUp w n ≤ n + (w - 1) := Nat.div_mul_le_self _ _
  omega

theorem roundUp_le (dvd : w ∣ a) (le : n ≤ a) (pos : 0 < w) : roundUp w n ≤ a := by
  obtain ⟨q, rfl⟩ := dvd
  obtain ⟨r, step⟩ : w ∣ roundUp w n := dvd_roundUp
  have less := roundUp_lt (n := n) pos
  rw [step] at less ⊢
  have : w * r < w * (q + 1) := by
    rw [Nat.mul_succ]
    omega
  exact Nat.mul_le_mul_left w (Nat.le_of_lt_succ (Nat.lt_of_mul_lt_mul_left this))

theorem roundUp_of_dvd (pos : 0 < w) (dvd : w ∣ n) : roundUp w n = n :=
  Nat.le_antisymm (roundUp_le dvd le_rfl pos) (le_roundUp pos)

theorem roundUp_add (pos : 0 < w) (dvd : w ∣ a) : roundUp w (a + n) = a + roundUp w n := by
  apply Nat.le_antisymm
  · exact roundUp_le (Nat.dvd_add dvd dvd_roundUp) (Nat.add_le_add_left (le_roundUp pos) a) pos
  · have above : n ≤ roundUp w (a + n) - a := Nat.le_sub_of_add_le' (le_roundUp pos)
    have below := roundUp_le (Nat.dvd_sub dvd_roundUp dvd) above pos
    have le : a ≤ roundUp w (a + n) := (Nat.le_add_right a n).trans (le_roundUp pos)
    omega

end

/-! ## The loop -/

section

variable {σ : Type*} {bound step : Nat}

/-- `for (; i < bound; i += step) s = body i s` -/
def strided (bound : Nat) {step : Nat} (pos : 0 < step) (body : Nat → σ → σ) (i : Nat) (s : σ) :
    σ :=
  if i < bound then strided bound pos body (i + step) (body i s) else s
termination_by bound - i

/-- The counter behind a loop that begins at `i`. -/
def strideEnd (bound step i : Nat) : Nat := i + roundUp step (bound - i)

variable {i : Nat} (pos : 0 < step)
include pos

theorem strideEnd_of_le (le : bound ≤ i) : strideEnd bound step i = i := by
  unfold strideEnd
  rw [Nat.sub_eq_zero_of_le le, roundUp_of_dvd pos (Nat.dvd_zero step), Nat.add_zero]

theorem le_strideEnd : bound ≤ strideEnd bound step i := by
  unfold strideEnd
  have le := le_roundUp (n := bound - i) pos
  omega

theorem strideEnd_add (less : i < bound) :
    strideEnd bound step (i + step) = strideEnd bound step i := by
  unfold strideEnd
  rcases Nat.le_total step (bound - i) with more | last
  · have split : bound - i = step + (bound - (i + step)) := by omega
    rw [split, roundUp_add pos dvd_rfl, Nat.add_assoc]
  · have none : bound - (i + step) = 0 := by omega
    have one : roundUp step (bound - i) = step := by
      apply Nat.le_antisymm (roundUp_le dvd_rfl last pos)
      have least : 0 < roundUp step (bound - i) := by
        have le := le_roundUp (n := bound - i) pos
        omega
      exact Nat.le_of_dvd least dvd_roundUp
    rw [none, one, roundUp_of_dvd pos (Nat.dvd_zero step), Nat.add_zero]

/-- A loop over addresses from `base` on that begins at the next aligned one. -/
theorem add_strideEnd {base : Nat} (aligned : step ∣ base + i) (less : i < step) :
    base + strideEnd bound step i = roundUp step (base + bound) := by
  unfold strideEnd
  rcases Nat.le_total i bound with le | short
  · have split : base + bound = base + i + (bound - i) := by omega
    rw [split, roundUp_add pos aligned, Nat.add_assoc]
  · have below : roundUp step (base + bound) ≤ base + i := roundUp_le aligned (by omega) pos
    have above := le_roundUp (n := base + bound) pos
    have apart : base + i - roundUp step (base + bound) = 0 :=
      Nat.eq_zero_of_dvd_of_lt (Nat.dvd_sub aligned dvd_roundUp) (by omega)
    rw [Nat.sub_eq_zero_of_le short, roundUp_of_dvd pos (Nat.dvd_zero step)]
    omega

variable {body : Nat → σ → σ} {s : σ} {inv : Nat → σ → Prop}

omit pos in
theorem strided_of_le {pos : 0 < step} (le : bound ≤ i) : strided bound pos body i s = s := by
  rw [strided, if_neg le.not_gt]

/-- The last step of a loop. -/
theorem strided_last
    (keep : ∀ j t, j < bound → j + step ≤ strideEnd bound step i → inv j t →
      inv (j + step) (body j t))
    (start : inv i s) (less : i < bound) :
    ∃ j t, j < bound ∧ j + step = strideEnd bound step i ∧ inv j t ∧
      strided bound pos body i s = body j t := by
  induction i, s using strided.induct bound pos body with
  | case1 i s _ ih =>
    have next := strideEnd_add pos less
    rw [strided, if_pos less]
    rcases Nat.lt_or_ge (i + step) bound with more | done
    · have reach : i + step ≤ strideEnd bound step i := by
        rw [← next]
        exact Nat.le_add_right _ _
      rw [next] at ih
      exact ih keep (keep i s less reach start) more
    · refine ⟨i, s, less, ?_, start, ?_⟩
      · rw [← next, strideEnd_of_le pos done]
      · exact strided_of_le done
  | case2 i s stop => exact absurd less stop

/-- An invariant of the steps holds behind the loop. -/
theorem strided_inv
    (keep : ∀ j t, j < bound → j + step ≤ strideEnd bound step i → inv j t →
      inv (j + step) (body j t))
    (start : inv i s) : inv (strideEnd bound step i) (strided bound pos body i s) := by
  rcases Nat.lt_or_ge i bound with less | done
  · obtain ⟨j, t, below, last, here, result⟩ := strided_last pos keep start less
    rw [result, ← last]
    exact keep j t below last.le here
  · rw [strideEnd_of_le pos done, strided_of_le done]
    exact start

end

end SoftHier
