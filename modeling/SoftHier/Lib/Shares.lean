import Mathlib.Data.Nat.Find
import Mathlib.Order.Interval.Finset.Nat
import Mathlib.Tactic.Common

/-!
# An interval cut into equal shares

`Shares` is an interval `[lo, hi)` of natural numbers cut into `count` consecutive pieces of `share`
elements, of which the last one takes the rest of the interval as well.  A share may be empty.

* `Shares.stop_le_start`: an earlier piece ends before a later one begins.
* `Shares.exists_piece`: the pieces cover the interval.

When the share divides the interval, a division finds the piece.

* `length_piece`: every piece has `share` elements.
* `pred_div_eq`: a factor that does not divide a number does not separate it from its predecessor.
-/

namespace SoftHier

/-- An interval with `count` pieces of at least `share` elements. -/
structure Shares where
  lo : Nat
  hi : Nat
  count : Nat
  share : Nat
  count_pos : 0 < count
  fits : lo + count * share ≤ hi

namespace Shares

variable (S : Shares)

/-- Where a piece begins. -/
def start (k : Nat) : Nat := S.lo + k * S.share

/-- Where it ends. -/
def stop (k : Nat) : Nat := if k + 1 = S.count then S.hi else S.start (k + 1)

theorem start_succ (k : Nat) : S.start (k + 1) = S.start k + S.share := by
  unfold start
  rw [Nat.succ_mul, Nat.add_assoc]

theorem start_mono {j k : Nat} (h : j ≤ k) : S.start j ≤ S.start k :=
  Nat.add_le_add_left (Nat.mul_le_mul_right _ h) _

theorem lo_le_start (k : Nat) : S.lo ≤ S.start k := Nat.le_add_right _ _

theorem start_le {k : Nat} (hk : k ≤ S.count) : S.start k ≤ S.hi :=
  Nat.le_trans (S.start_mono hk) S.fits

theorem stop_last {k : Nat} (hk : k + 1 = S.count) : S.stop k = S.hi := if_pos hk

theorem stop_inner {k : Nat} (hk : k + 1 ≠ S.count) : S.stop k = S.start k + S.share := by
  rw [stop, if_neg hk, start_succ]

theorem start_add_share_le {k : Nat} (hk : k < S.count) : S.start k + S.share ≤ S.stop k := by
  have next := S.start_le (Nat.succ_le_of_lt hk)
  rw [Nat.succ_eq_add_one, start_succ] at next
  rcases Nat.decEq (k + 1) S.count with inner | last
  · exact Nat.le_of_eq (S.stop_inner inner).symm
  · rw [S.stop_last last]
    exact next

theorem start_le_stop {k : Nat} (hk : k < S.count) : S.start k ≤ S.stop k :=
  Nat.le_trans (Nat.le_add_right _ _) (S.start_add_share_le hk)

theorem stop_le {k : Nat} (hk : k < S.count) : S.stop k ≤ S.hi := by
  unfold stop
  split
  · exact Nat.le_refl _
  · exact S.start_le hk

/-- An earlier piece ends before a later one begins. -/
theorem stop_le_start {j k : Nat} (hjk : j < k) (hk : k < S.count) : S.stop j ≤ S.start k := by
  rw [stop, if_neg (by omega)]
  exact S.start_mono hjk

/-- Two pieces are apart. -/
theorem apart {j k : Nat} (hj : j < S.count) (hk : k < S.count) (other : j ≠ k) :
    S.stop j ≤ S.start k ∨ S.stop k ≤ S.start j := by
  rcases Nat.lt_or_gt_of_ne other with before | behind
  · exact Or.inl (S.stop_le_start before hk)
  · exact Or.inr (S.stop_le_start behind hj)

/-- Every element of the interval is in a piece: the last one that begins at or before it. -/
theorem exists_piece {a : Nat} (hlo : S.lo ≤ a) (hhi : a < S.hi) :
    ∃ k < S.count, S.start k ≤ a ∧ a < S.stop k := by
  have pos := S.count_pos
  obtain ⟨k, hk⟩ : ∃ k, k = Nat.findGreatest (fun k => S.start k ≤ a) (S.count - 1) := ⟨_, rfl⟩
  have first : S.start 0 ≤ a := by
    unfold start
    omega
  have below : k ≤ S.count - 1 := hk ▸ Nat.findGreatest_le _
  have here : S.start k ≤ a :=
    hk ▸ Nat.findGreatest_spec (P := fun k => S.start k ≤ a) (Nat.zero_le _) first
  refine ⟨k, by omega, here, ?_⟩
  rcases Nat.decEq (k + 1) S.count with inner | last
  · have next : k + 1 ≤ S.count - 1 := by omega
    have later : ¬ S.start (k + 1) ≤ a :=
      Nat.findGreatest_is_greatest (P := fun k => S.start k ≤ a) (hk ▸ Nat.lt_succ_self k) next
    rw [stop, if_neg inner]
    omega
  · rw [S.stop_last last]
    exact hhi

/-- The pieces make up the interval. -/
theorem exists_piece_iff {a : Nat} :
    (∃ k < S.count, S.start k ≤ a ∧ a < S.stop k) ↔ S.lo ≤ a ∧ a < S.hi := by
  constructor
  · rintro ⟨k, hk, above, below⟩
    exact ⟨Nat.le_trans (S.lo_le_start k) above, Nat.lt_of_lt_of_le below (S.stop_le hk)⟩
  · rintro ⟨above, below⟩
    exact S.exists_piece above below

end Shares

/-! ## Pieces by division -/

/-- Each of `count` pieces has `share` of the indices. -/
theorem length_piece (share : Nat) {count k : Nat} (hk : k < count) :
    ((List.range (share * count)).filter fun i => i / share = k).length = share := by
  rcases Nat.eq_zero_or_pos share with rfl | pos
  · rw [Nat.zero_mul]
    rfl
  have fits : k * share + share ≤ share * count := by
    calc k * share + share = share * (k + 1) := by rw [Nat.mul_succ, Nat.mul_comm]
      _ ≤ share * count := Nat.mul_le_mul_left _ hk
  have piece : ((List.range (share * count)).filter fun i => i / share = k).toFinset =
      Finset.Ico (k * share) (k * share + share) := by
    ext i
    simp only [List.mem_toFinset, List.mem_filter, List.mem_range, decide_eq_true_eq,
      Finset.mem_Ico, Nat.div_eq_iff pos]
    omega
  rw [← List.toFinset_card_of_nodup (List.nodup_range.filter _), piece, Nat.card_Ico,
    Nat.add_sub_cancel_left]

/-- A factor that does not divide `n` does not separate `n` from its predecessor. -/
theorem pred_div_eq {a n : Nat} (not : n % a ≠ 0) : (n - 1) / a = n / a := by
  rcases Nat.eq_zero_or_pos a with rfl | pos
  · rw [Nat.div_zero, Nat.div_zero]
  have split := Nat.div_add_mod n a
  have below := Nat.mod_lt n pos
  rw [Nat.div_eq_iff pos, Nat.mul_comm (n / a)]
  omega

end SoftHier
