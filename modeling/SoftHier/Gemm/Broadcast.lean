import SoftHier.Lib.Word
import SoftHier.Noc.Collective

/-!
# The broadcasts of the benchmarks

A row of clusters is broadcast to with the masks `mask_row(r)` and `mask_all_cols()`, a column with
`mask_all_rows()` and `mask_col(c)`.  The helpers build the masks as sets of indices; the network
compares the bits of a position that are set in the mask, and the masks reach it in eight bits.

* `delivered`: whether a broadcast reaches a cluster, from the helper's masks to `check_target`.
* `broadcast_iff`: when a broadcast reaches exactly the clusters of its row, and of its column.
-/

namespace SoftHier.Gemm

open Noc

/-! ## The masks -/

/-- `mask_row` -/
def maskRow (rowIdx : Nat) : Nat := u16 (1 <<< (rowIdx &&& 0xF))

/-- `mask_col` -/
def maskCol (colIdx : Nat) : Nat := u16 (1 <<< (colIdx &&& 0xF))

/-- `mask_all4` -/
def maskAll4 : Nat := 0x000F

/-- `mask_all_rows`, where `num` is `FLEX_BCAST_NUM_ROWS`. -/
def maskAllRows (num : Nat) : Nat := u16 ((1 <<< num) - 1)

/-- `mask_all_cols`, where `num` is `FLEX_BCAST_NUM_COLS`. -/
def maskAllCols (num : Nat) : Nat := u16 ((1 <<< num) - 1)

/-! ## On the way to the network -/

/-- The operand of `dmmask` that `bare_dma_set_mask` builds. -/
def bareDmaSetMask (rowMask colMask : Nat) : Nat := u32 (colMask <<< 16) ||| rowMask

/-- `collective_row_mask` after `dmmask`. -/
def collectiveRowMask (argB : Nat) : Nat := u16 argB

/-- `collective_col_mask` after `dmmask`. -/
def collectiveColMask (argB : Nat) : Nat := u16 (argB >>> 16)

/-- Whether `flex_dma_async_broadcast` of the cluster at `src` reaches the cluster at `dst`; the
masks travel in the payload of the request, a byte each. -/
def delivered (rowMask colMask : Nat) (src dst : Nat × Nat) : Bool :=
  let argB := bareDmaSetMask rowMask colMask
  checkTarget dst.1 dst.2 src.1 src.2 (u8 (collectiveRowMask argB)) (u8 (collectiveColMask argB))

section

variable {rowMask colMask num : Nat}

theorem collective_bareDmaSetMask (row : rowMask < 2 ^ 16) (col : colMask < 2 ^ 16) :
    collectiveRowMask (bareDmaSetMask rowMask colMask) = rowMask ∧
      collectiveColMask (bareDmaSetMask rowMask colMask) = colMask := by
  have shifted : u32 (colMask <<< 16) = colMask <<< 16 := by
    apply u32_of_lt
    rw [Nat.shiftLeft_eq]
    omega
  have sum : bareDmaSetMask rowMask colMask = colMask * 2 ^ 16 + rowMask := by
    rw [bareDmaSetMask, shifted, ← Nat.shiftLeft_add_eq_or_of_lt row, Nat.shiftLeft_eq]
  rw [sum, collectiveRowMask, collectiveColMask, Nat.shiftRight_eq_div_pow]
  unfold u16
  omega

/-- The one-hot masks lose the upper eight bits. -/
theorem u8_oneHot (i : Nat) :
    u8 (u16 (1 <<< (i &&& 0xF))) = if i % 16 < 8 then 2 ^ (i % 16) else 0 := by
  have low : i &&& 0xF = i % 16 := Nat.and_two_pow_sub_one_eq_mod i 4
  have bound : i % 16 < 16 := Nat.mod_lt _ (by decide)
  have all : ∀ k < 16, u8 (u16 (1 <<< k)) = if k < 8 then 2 ^ k else 0 := by decide
  rw [low]
  exact all _ bound

/-- The full masks keep at most eight bits. -/
theorem u8_full (num : Nat) : u8 (u16 ((1 <<< num) - 1)) = 2 ^ min num 8 - 1 := by
  have small : u8 (u16 ((1 <<< num) - 1)) = (2 ^ num - 1) % 2 ^ 8 := by
    rw [Nat.shiftLeft_eq, Nat.one_mul]
    unfold u8 u16
    omega
  rw [small]
  rcases Nat.le_total num 8 with le | ge
  · have fits : 2 ^ num ≤ 2 ^ 8 := Nat.pow_le_pow_right (by decide) le
    rw [Nat.min_eq_left le]
    omega
  · obtain ⟨k, rfl⟩ := Nat.exists_eq_add_of_le ge
    have pos : 0 < 2 ^ k := Nat.two_pow_pos k
    rw [Nat.min_eq_right ge, Nat.pow_add]
    omega

/-! ## What the masks select -/

/-- A one-hot mask distinguishes no two coordinates only if the bit is out of reach. -/
theorem and_oneHot_iff {n k x : Nat} (inside : x < n) :
    (∀ x' < n, x &&& 2 ^ k = x' &&& 2 ^ k) ↔ n ≤ 2 ^ k := by
  constructor
  · intro same
    by_contra reach
    have bit := same (2 ^ k) (Nat.lt_of_not_le reach)
    have zero := same 0 (Nat.zero_lt_of_lt inside)
    rw [Nat.and_self] at bit
    rw [bit, Nat.zero_and] at zero
    exact Nat.ne_of_gt (Nat.two_pow_pos k) zero
  · intro reach
    have clear : ∀ x' < n, x' &&& 2 ^ k = 0 := fun x' less => by
      rw [Nat.and_two_pow, Nat.testBit_lt_two_pow (Nat.lt_of_lt_of_le less reach)]
      exact Nat.zero_mul _
    intro x' less
    rw [clear x inside, clear x' less]

/-- A full mask tells a coordinate from all others if they differ in the bits it covers. -/
theorem and_full_iff {n w y : Nat} (inside : y < n) :
    (∀ y' < n, y &&& (2 ^ w - 1) = y' &&& (2 ^ w - 1) → y' = y) ↔ y < 2 ^ w ∧ n ≤ y + 2 ^ w := by
  simp only [Nat.and_two_pow_sub_one_eq_mod]
  have pos : 0 < 2 ^ w := Nat.two_pow_pos w
  constructor
  · intro tells
    constructor
    · by_contra above
      have again := tells (y - 2 ^ w) (by omega) (Nat.mod_eq_sub_mod (by omega))
      omega
    · by_contra reach
      have again := tells (y + 2 ^ w) (by omega) (Nat.add_mod_right _ _).symm
      omega
  · rintro ⟨low, reach⟩ y' less same
    rw [Nat.mod_eq_of_lt low] at same
    have bound := Nat.mod_add_div y' (2 ^ w)
    rcases Nat.eq_zero_or_pos (y' / 2 ^ w) with zero | some
    · rw [zero, Nat.mul_zero] at bound
      omega
    · have step := Nat.mul_le_mul_left (2 ^ w) some
      omega

/-- One mask leaves everything selected and the other one only the source's coordinate. -/
theorem forall_selects_iff {n m x y : Nat} {P Q : Nat → Prop} (hx : x < n) (hy : y < m) (hP : P x)
    (hQ : Q y) : (∀ x' < n, ∀ y' < m, (P x' ∧ Q y' ↔ y' = y)) ↔
      (∀ x' < n, P x') ∧ ∀ y' < m, Q y' → y' = y := by
  constructor
  · intro precise
    exact ⟨fun x' less => ((precise x' less y hy).mpr rfl).1,
      fun y' less q => (precise x hx y' less).mp ⟨hP, q⟩⟩
  · rintro ⟨all, only⟩ x' hx' y' hy'
    constructor
    · exact fun both => only y' hy' both.2
    · rintro rfl
      exact ⟨all x' hx', hQ⟩

/-- The one-hot mask of an index selects every coordinate if the network does not see the bit, or
the mesh does not reach it. -/
theorem and_mask_iff {n x : Nat} (i : Nat) (inside : x < n) :
    (∀ x' < n, x &&& u8 (u16 (1 <<< (i &&& 0xF))) = x' &&& u8 (u16 (1 <<< (i &&& 0xF)))) ↔
      8 ≤ i % 16 ∨ n ≤ 2 ^ (i % 16) := by
  rw [u8_oneHot]
  split
  · rename_i seen
    rw [and_oneHot_iff inside, or_iff_right (Nat.not_le_of_lt seen)]
  · rename_i unseen
    exact iff_of_true (fun _ _ => by rw [Nat.and_zero, Nat.and_zero])
      (Or.inl (Nat.le_of_not_lt unseen))

end

theorem delivered_iff {rowMask colMask : Nat} (row : rowMask < 2 ^ 16) (col : colMask < 2 ^ 16)
    (src dst : Nat × Nat) : delivered rowMask colMask src dst = true ↔
      src.1 &&& u8 rowMask = dst.1 &&& u8 rowMask ∧
        src.2 &&& u8 colMask = dst.2 &&& u8 colMask := by
  obtain ⟨hrow, hcol⟩ := collective_bareDmaSetMask row col
  rw [delivered, hrow, hcol, checkTarget, Bool.and_eq_true, decide_eq_true_iff,
    decide_eq_true_iff]

theorem u16_lt (n : Nat) : u16 n < 2 ^ 16 := Nat.mod_lt _ (by decide)

/-- A broadcast to row `r` reaches exactly its clusters if and only if the mesh has no column with
bit `r` set, as far as the network sees that bit, and no other row with the low bits of `r`.  For a
broadcast to column `c` it is the other way round. -/
theorem broadcast_iff (numX numY num : Nat) :
    (∀ x r, x < numX → r < numY →
      ((∀ x' < numX, ∀ y' < numY,
        (delivered (maskRow r) (maskAllCols num) (x, r) (x', y') = true ↔ y' = r)) ↔
        (8 ≤ r % 16 ∨ numX ≤ 2 ^ (r % 16)) ∧ r < 2 ^ min num 8 ∧ numY ≤ r + 2 ^ min num 8)) ∧
      ∀ c y, c < numX → y < numY →
        ((∀ x' < numX, ∀ y' < numY,
          (delivered (maskAllRows num) (maskCol c) (c, y) (x', y') = true ↔ x' = c)) ↔
          (8 ≤ c % 16 ∨ numY ≤ 2 ^ (c % 16)) ∧ c < 2 ^ min num 8 ∧
            numX ≤ c + 2 ^ min num 8) := by
  constructor
  · intro x r hx hr
    have masks : ∀ x' y', delivered (maskRow r) (maskAllCols num) (x, r) (x', y') = true ↔
        x &&& u8 (maskRow r) = x' &&& u8 (maskRow r) ∧
          r &&& (2 ^ min num 8 - 1) = y' &&& (2 ^ min num 8 - 1) := fun x' y' => by
      have reached := delivered_iff (u16_lt (1 <<< (r &&& 0xF))) (u16_lt ((1 <<< num) - 1)) (x, r)
        (x', y')
      rw [u8_full] at reached
      exact reached
    simp only [masks]
    rw [forall_selects_iff (P := fun x' => x &&& u8 (maskRow r) = x' &&& u8 (maskRow r))
      (Q := fun y' => r &&& (2 ^ min num 8 - 1) = y' &&& (2 ^ min num 8 - 1)) hx hr rfl rfl]
    exact and_congr (and_mask_iff r hx) (and_full_iff hr)
  · intro c y hc hy
    have masks : ∀ x' y', delivered (maskAllRows num) (maskCol c) (c, y) (x', y') = true ↔
        y &&& u8 (maskCol c) = y' &&& u8 (maskCol c) ∧
          c &&& (2 ^ min num 8 - 1) = x' &&& (2 ^ min num 8 - 1) := fun x' y' => by
      have reached := delivered_iff (u16_lt ((1 <<< num) - 1)) (u16_lt (1 <<< (c &&& 0xF))) (c, y)
        (x', y')
      rw [u8_full, and_comm] at reached
      exact reached
    have swap : (∀ x' < numX, ∀ y' < numY,
        (delivered (maskAllRows num) (maskCol c) (c, y) (x', y') = true ↔ x' = c)) ↔
        ∀ y' < numY, ∀ x' < numX,
          (delivered (maskAllRows num) (maskCol c) (c, y) (x', y') = true ↔ x' = c) :=
      ⟨fun h y' hy' x' hx' => h x' hx' y' hy', fun h x' hx' y' hy' => h y' hy' x' hx'⟩
    rw [swap]
    simp only [masks]
    rw [forall_selects_iff (P := fun y' => y &&& u8 (maskCol c) = y' &&& u8 (maskCol c))
      (Q := fun x' => c &&& (2 ^ min num 8 - 1) = x' &&& (2 ^ min num 8 - 1)) hy hc rfl rfl]
    exact and_congr (and_mask_iff c hy) (and_full_iff hc)

/-- The mask the benchmarks pass is the one of four rows or columns. -/
theorem maskAll4_eq : maskAll4 = maskAllRows 4 ∧ maskAll4 = maskAllCols 4 := ⟨rfl, rfl⟩

/-- On four by four clusters, broadcasts to row 0 miss the neighbour of the source. -/
theorem broadcast_row_fails : ¬ ∀ x' < 4, ∀ y' < 4,
    (delivered (maskRow 0) maskAll4 (0, 0) (x', y') = true ↔ y' = 0) := by
  intro all
  have missed : delivered (maskRow 0) maskAll4 (0, 0) (1, 0) = false := by decide
  have reached := (all 1 (by decide) 0 (by decide)).mpr rfl
  rw [missed] at reached
  cases reached

end SoftHier.Gemm
