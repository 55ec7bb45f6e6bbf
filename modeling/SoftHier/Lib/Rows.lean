import Mathlib.Tactic.Ring
import SoftHier.Lib.Bytes

/-!
# Copies by rows

A copy of several rows, each from its own place to its own place.

* `copyRows_at`, `copyRows_of_outside`: what the rows write, and what they leave alone.
* `entry`, `copyRows_block`: an element of a matrix, and a block of elements that is written into
  it.
* `copyRows_congr`: rows from buffers that agree where they are read.
* `memcpy_memcpy`: a copy through a buffer.
-/

namespace SoftHier

/-- Row `i` of `n` rows of `size` bytes is copied from `start i` to `dest i`. -/
def copyRows (dst : Buffer) (dest : Nat → Nat) (src : Buffer) (start : Nat → Nat) (size : Nat) :
    Nat → Buffer
  | 0 => dst
  | n + 1 => memcpy (copyRows dst dest src start size n) (dest n) src (start n) size

/-- The element in row `i` and column `j` of a matrix of rows of `width` elements. -/
def entry (elemSize : Nat) (b : Buffer) (base width i j : Nat) : BitVec (8 * elemSize) :=
  loadLe b (base + (i * width + j) * elemSize) elemSize

theorem place_le {r c rows pitch : Nat} (elemSize : Nat) (hr : r < rows) (hc : c < pitch) :
    (r * pitch + c + 1) * elemSize ≤ rows * (pitch * elemSize) := by
  have row := Nat.mul_le_mul_right pitch (Nat.succ_le_of_lt hr)
  rw [Nat.succ_mul] at row
  rw [← Nat.mul_assoc]
  exact Nat.mul_le_mul_right _ (by omega)

theorem entry_congr {b b' : Buffer} {elemSize base width rows i j : Nat} (hi : i < rows)
    (hj : j < width) (same : ∀ a, base ≤ a → a < base + rows * width * elemSize → b a = b' a) :
    entry elemSize b base width i j = entry elemSize b' base width i j := by
  have inside := place_le elemSize hi hj
  rw [Nat.succ_mul, ← Nat.mul_assoc] at inside
  apply loadLe_eq_iff.mpr
  intro k hk
  exact same _ (by omega) (by omega)

section

variable {dst dst' src src' : Buffer} {dest start start' : Nat → Nat} {size n i j p : Nat}

/-- What is copied to a place that no later row overwrites. -/
theorem copyRows_at (row : i < n) (column : j < size)
    (last : ∀ k, i < k → k < n → dest i + j < dest k ∨ dest k + size ≤ dest i + j) :
    copyRows dst dest src start size n (dest i + j) = src (start i + j) := by
  induction n with
  | zero => cases row
  | succ n ih =>
    rw [copyRows]
    rcases Nat.lt_succ_iff_lt_or_eq.mp row with before | rfl
    · rw [memcpy_of_outside (last n before (Nat.lt_succ_self n))]
      exact ih before fun k after less => last k after (Nat.lt_succ_of_lt less)
    · exact memcpy_at column

theorem copyRows_of_outside (outside : ∀ i < n, p < dest i ∨ dest i + size ≤ p) :
    copyRows dst dest src start size n p = dst p := by
  induction n with
  | zero => rfl
  | succ n ih =>
    rw [copyRows, memcpy_of_outside (outside n (Nat.lt_succ_self n))]
    exact ih fun i less => outside i (Nat.lt_succ_of_lt less)

/-- A block of elements that is written into a matrix of rows of `width` elements. -/
theorem copyRows_block (dst src : Buffer) (start : Nat → Nat)
    {elemSize base width i₀ j₀ rows cols i j : Nat}
    (places : ∀ r < rows, dest r = base + ((i₀ + r) * width + j₀) * elemSize)
    (fits : j₀ + cols ≤ width) (column : j < width) :
    entry elemSize (copyRows dst dest src start (cols * elemSize) rows) base width i j =
      if (i₀ ≤ i ∧ i < i₀ + rows) ∧ j₀ ≤ j ∧ j < j₀ + cols then
        loadLe src (start (i - i₀) + (j - j₀) * elemSize) elemSize
      else entry elemSize dst base width i j := by
  have bytes : ∀ {a b : Nat}, a ≤ b → a * elemSize ≤ b * elemSize :=
    fun le => Nat.mul_le_mul_right _ le
  have below : ∀ {a b : Nat}, a < b → a * width + width ≤ b * width := fun less => by
    rw [← Nat.succ_mul]
    exact Nat.mul_le_mul_right _ less
  split
  · rename_i inside
    obtain ⟨⟨first, last⟩, left, right⟩ := inside
    obtain ⟨r, rfl⟩ := Nat.exists_eq_add_of_le first
    obtain ⟨c, rfl⟩ := Nat.exists_eq_add_of_le left
    have row : r < rows := Nat.lt_of_add_lt_add_left last
    have inner := bytes (Nat.succ_le_of_lt (Nat.lt_of_add_lt_add_left right))
    rw [Nat.succ_mul] at inner
    rw [Nat.add_sub_cancel_left, Nat.add_sub_cancel_left]
    apply loadLe_eq_iff.mpr
    intro k hk
    have place : base + ((i₀ + r) * width + (j₀ + c)) * elemSize + k =
        dest r + (c * elemSize + k) := by
      rw [places r row]
      ring
    rw [place, Nat.add_assoc]
    apply copyRows_at row (by omega)
    intro r' after less
    have le := below (Nat.add_lt_add_left after i₀)
    have before : (i₀ + r) * width + (j₀ + c) + 1 ≤ (i₀ + r') * width + j₀ := by omega
    have next := bytes before
    rw [Nat.succ_mul] at next
    rw [← place, places r' less]
    omega
  · rename_i outside
    apply loadLe_eq_iff.mpr
    intro k hk
    apply copyRows_of_outside
    intro r less
    rw [places r less]
    -- the element is before or after the row
    have apart : i * width + j + 1 ≤ (i₀ + r) * width + j₀ ∨
        (i₀ + r) * width + j₀ + cols ≤ i * width + j := by
      rcases Nat.lt_trichotomy i (i₀ + r) with before | same | after
      · have le := below before
        omega
      · subst same
        omega
      · have le := below after
        omega
    rcases apart with before | after
    · have le := bytes before
      rw [Nat.succ_mul] at le
      omega
    · have le := bytes after
      rw [Nat.add_mul _ cols] at le
      omega

theorem copyRows_congr (read : ∀ i < n, ∀ j < size, src (start i + j) = src' (start' i + j))
    (kept : dst p = dst' p) :
    copyRows dst dest src start size n p = copyRows dst' dest src' start' size n p := by
  induction n with
  | zero => exact kept
  | succ n ih =>
    exact memcpy_congr (read n (Nat.lt_succ_self n))
      (ih fun i less => read i (Nat.lt_succ_of_lt less))

end

/-- A copy from the start of a buffer into which the bytes have been copied. -/
theorem memcpy_memcpy {dst between src : Buffer} {dest start size size' : Nat} (le : size' ≤ size) :
    memcpy dst dest (memcpy between 0 src start size) 0 size' =
      memcpy dst dest src start size' := by
  funext i
  apply memcpy_congr _ rfl
  intro j less
  exact memcpy_at (Nat.lt_of_lt_of_le less le)

end SoftHier
