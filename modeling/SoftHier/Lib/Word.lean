import Mathlib.Data.Nat.Bitwise
import Mathlib.Tactic.Ring

/-!
# Fixed-width unsigned words

Natural-number semantics of the C types of the development: `u32`, `u16` and `u64` reduce a value
to the width of its type, `sub32` and `sub64` are the wrapping subtractions, and
`alignDown`/`alignUp` are the usual mask expressions; `addresses` lists a range of 64-bit
addresses.  The lemmas turn a mask on a value in range into a remainder, which is the form every
later proof computes with.
-/

namespace SoftHier

/-- Conversion to `uint32_t`. -/
def u32 (n : Nat) : Nat := n % 2 ^ 32

/-- Conversion to `uint16_t`. -/
def u16 (n : Nat) : Nat := n % 2 ^ 16

/-- Conversion to `uint8_t`. -/
def u8 (n : Nat) : Nat := n % 2 ^ 8

/-- Conversion to `uint64_t`. -/
def u64 (n : Nat) : Nat := n % 2 ^ 64

/-- `a - b` on `uint32_t` operands. -/
def sub32 (a b : Nat) : Nat := u32 (a + (2 ^ 32 - b))

/-- `a - b` on `uint64_t` operands. -/
def sub64 (a b : Nat) : Nat := u64 (a + (2 ^ 64 - b))

theorem u32_of_lt {n : Nat} (h : n < 2 ^ 32) : u32 n = n := Nat.mod_eq_of_lt h

theorem u32_lt (n : Nat) : u32 n < 2 ^ 32 := Nat.mod_lt _ (by decide)

theorem u64_of_lt {n : Nat} (h : n < 2 ^ 64) : u64 n = n := Nat.mod_eq_of_lt h

theorem u16_of_lt {n : Nat} (h : n < 2 ^ 16) : u16 n = n := Nat.mod_eq_of_lt h

theorem u8_of_lt {n : Nat} (h : n < 2 ^ 8) : u8 n = n := Nat.mod_eq_of_lt h

/-- A wrapping subtraction that does not underflow is the subtraction of naturals. -/
theorem sub32_of_le {a b : Nat} (hab : b ≤ a) (ha : a < 2 ^ 32) : sub32 a b = a - b := by
  unfold sub32 u32
  have split : a + (2 ^ 32 - b) = (a - b) + 2 ^ 32 := by omega
  rw [split, Nat.add_mod_right, Nat.mod_eq_of_lt (by omega)]

theorem sub64_lt (a b : Nat) : sub64 a b < 2 ^ 64 := Nat.mod_lt _ (by decide)

theorem sub64_of_le {a b : Nat} (hab : b ≤ a) (ha : a < 2 ^ 64) : sub64 a b = a - b := by
  unfold sub64 u64
  have split : a + (2 ^ 64 - b) = (a - b) + 2 ^ 64 := by omega
  rw [split, Nat.add_mod_right, Nat.mod_eq_of_lt (by omega)]

/-- The bits of a word. -/
theorem lt_of_testBit {n x i : Nat} (word : x < 2 ^ n) (set : x.testBit i = true) : i < n := by
  have reach : 2 ^ i ≤ x := Nat.ge_two_pow_of_testBit set
  exact (Nat.pow_lt_pow_iff_right (by decide)).mp (Nat.lt_of_le_of_lt reach word)

/-! ## Alignment masks -/

/-- `ALIGN_DOWN(addr, size)`: `addr & ~(size - 1)` on 32 bits. -/
def alignDown (addr size : Nat) : Nat := addr &&& (2 ^ 32 - size)

/-- `ALIGN_UP(addr, size)`: `(addr + size - 1) & ~(size - 1)` on 32 bits. -/
def alignUp (addr size : Nat) : Nat := u32 (addr + size - 1) &&& (2 ^ 32 - size)

/-- Clearing the low `k` bits of a `w`-bit word removes its remainder modulo `2 ^ k`. -/
theorem and_two_pow_sub_two_pow {x w k : Nat} (hk : k ≤ w) (hx : x < 2 ^ w) :
    x &&& (2 ^ w - 2 ^ k) = x - x % 2 ^ k := by
  have hsplit : x - x % 2 ^ k = x / 2 ^ k * 2 ^ k := by
    have h := Nat.div_add_mod x (2 ^ k)
    rw [Nat.mul_comm] at h
    omega
  have hpow : 2 ^ k - 1 < 2 ^ w := by
    have hle : 2 ^ k ≤ 2 ^ w := Nat.pow_le_pow_right (by decide) hk
    have hpos : 0 < 2 ^ k := Nat.two_pow_pos k
    omega
  have hmask : 2 ^ w - 2 ^ k = 2 ^ w - ((2 ^ k - 1) + 1) := by
    have hpos : 0 < 2 ^ k := Nat.two_pow_pos k
    omega
  rw [hsplit]
  apply Nat.eq_of_testBit_eq
  intro i
  rw [Nat.testBit_and, hmask, Nat.testBit_two_pow_sub_succ hpow, Nat.testBit_two_pow_sub_one,
    Nat.testBit_mul_two_pow, Nat.testBit_div_two_pow]
  by_cases hik : i < k
  · simp [hik, Nat.not_le.mpr hik]
  · have hle : k ≤ i := Nat.not_lt.mp hik
    by_cases hiw : i < w
    · simp [hik, hle, hiw]
    · have hbit : x.testBit i = false :=
        Nat.testBit_lt_two_pow (lt_of_lt_of_le hx (Nat.pow_le_pow_right (by decide) (by omega)))
      simp [hle, hbit, hiw]

theorem alignDown_eight {x : Nat} (hx : x < 2 ^ 32) : alignDown x 8 = x - x % 8 :=
  and_two_pow_sub_two_pow (w := 32) (k := 3) (by decide) hx

/-- Rounding up to eight bytes in wrapping arithmetic. -/
theorem alignUp_eight_wrapping (x : Nat) : alignUp x 8 = u32 (x + 7) / 8 * 8 := by
  have hsum : x + 8 - 1 = x + 7 := by omega
  have hmask : alignUp x 8 = alignDown (u32 (x + 8 - 1)) 8 := rfl
  rw [hmask, hsum, alignDown_eight (u32_lt _)]
  omega

/-- Rounding up to eight bytes when the addition does not wrap. -/
theorem alignUp_eight {x : Nat} (hx : x + 7 < 2 ^ 32) : alignUp x 8 = (x + 7) / 8 * 8 := by
  rw [alignUp_eight_wrapping, u32_of_lt hx]

/-- Masking with the complement of `m` in words of `n` bits. -/
theorem testBit_maskOut {n m : Nat} (hm : m < 2 ^ n) (x i : Nat) :
    (x &&& (2 ^ n - 1 - m)).testBit i = (x.testBit i && (decide (i < n) && !m.testBit i)) := by
  have complement : 2 ^ n - 1 - m = 2 ^ n - (m + 1) := by omega
  rw [complement, Nat.testBit_and, Nat.testBit_two_pow_sub_succ hm]

/-- Clearing one bit of a 64-bit word. -/
theorem testBit_clear {x k : Nat} (hk : k < 64) (i : Nat) :
    (x &&& (2 ^ 64 - 1 - (1 <<< k))).testBit i =
      (x.testBit i && (decide (i < 64) && decide (i ≠ k))) := by
  have bit : 1 <<< k < 2 ^ 64 := by
    rw [Nat.shiftLeft_eq, Nat.one_mul]
    exact Nat.pow_lt_pow_right (by decide) hk
  rw [testBit_maskOut bit, Nat.shiftLeft_eq, Nat.one_mul, Nat.testBit_two_pow]
  simp [eq_comm]

/-! ## Ranges of 64-bit addresses -/

/-- The `n` addresses from `base` on, in order. -/
def addresses (base n : Nat) : List Nat := (List.range n).map fun i => u64 (base + i)

@[simp] theorem addresses_length (base n : Nat) : (addresses base n).length = n := by
  simp [addresses]

/-- A range in two parts. -/
theorem addresses_add (base n k : Nat) :
    addresses base (n + k) = addresses base n ++ addresses (u64 (base + n)) k := by
  unfold addresses
  rw [List.range_add, List.map_append, List.map_map]
  congr 1
  apply List.map_congr_left
  intro i _
  simp only [Function.comp, u64]
  omega

end SoftHier
