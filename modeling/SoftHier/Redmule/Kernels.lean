import SoftHier.Redmule.Product
import Mathlib.Algebra.Order.Ring.Abs
import Mathlib.Tactic.Linarith

/-!
# The integer kernels in the type `int`

`matmul_uint16`, `matmul_int16`, `matmul_uint8` and `matmul_int8` with every expression evaluated
as an `int`, to which C promotes the elements, the sizes and the counters.

* `cell_run`: the body of the two outer loops.
* `kernels_iff`: which sizes and elements a kernel is defined for, and then it is exact.
* `matmulUint16_eq`: the unchecked product of the model is the one of the kernel.
-/

namespace SoftHier.Redmule

open Finset

/-! ## The code -/

/-- The value of an expression of type `int`. -/
def asInt (v : Int) : Option Int := if -2 ^ 31 ≤ v ∧ v < 2 ^ 31 then some v else none

/-- `i * size + j` -/
def index (i size j : Nat) : Option Nat :=
  (asInt (i * size)).bind fun row => (asInt (row + j)).map Int.toNat

/-- An integer type of the elements: their values, which determine them. -/
structure ElemType (elemSize : Nat) where
  value : BitVec (8 * elemSize) → Int
  ofInt_value : ∀ b, BitVec.ofInt (8 * elemSize) (value b) = b

/-- `uint8_t` and `uint16_t` -/
def uintType (elemSize : Nat) : ElemType elemSize :=
  ⟨fun b => b.toNat, fun b => by rw [BitVec.ofInt_natCast, BitVec.ofNat_toNat, BitVec.setWidth_eq]⟩

/-- `int8_t` and `int16_t` -/
def intType (elemSize : Nat) : ElemType elemSize := ⟨BitVec.toInt, fun _ => BitVec.ofInt_toInt⟩

section

variable {elemSize : Nat} (t : ElemType elemSize)

/-- `z += x * w` -/
def mac (z x w : BitVec (8 * elemSize)) : Option (BitVec (8 * elemSize)) :=
  (asInt (t.value x * t.value w)).bind fun product =>
    (asInt (t.value z + product)).map (BitVec.ofInt (8 * elemSize))

/-- The body of the innermost loop: `z[i * k_size + j] += x[i * n_size + k] * w[k * k_size + j]`. -/
def macAt (x w : Buffer) (nSize kSize i j : Nat) (z : Buffer) (k : Nat) : Option Buffer :=
  (index i kSize j).bind fun zAt => (index i nSize k).bind fun xAt =>
    (index k kSize j).bind fun wAt =>
    (mac t (elem elemSize z zAt) (elem elemSize x xAt) (elem elemSize w wAt)).map
      (storeLe z (zAt * elemSize) elemSize)

/-- The body of the two outer loops, which begins with `z[i * k_size + j] = y[i * k_size + j]`. -/
def cell (y x w : Buffer) (nSize kSize i : Nat) (z : Buffer) (j : Nat) : Option Buffer :=
  (index i kSize j).bind fun zAt =>
    (List.range nSize).foldlM (macAt t x w nSize kSize i j)
      (storeLe z (zAt * elemSize) elemSize (elem elemSize y zAt))

/-- The loops of the four kernels; `none` is an overflow of an `int`. -/
def kernel (z y x w : Buffer) (mSize nSize kSize : Nat) : Option Buffer :=
  (List.range mSize).foldlM
    (fun z i => (List.range kSize).foldlM (cell t y x w nSize kSize i) z) z

end

/-- `matmul_uint16(z, y, x, w, m_size, n_size, k_size)` -/
def kernelUint16 := kernel (uintType 2)

/-- `matmul_int16(z, y, x, w, m_size, n_size, k_size)` -/
def kernelInt16 := kernel (intType 2)

/-- `matmul_uint8(z, y, x, w, m_size, n_size, k_size)` -/
def kernelUint8 := kernel (uintType 1)

/-- `matmul_int8(z, y, x, w, m_size, n_size, k_size)` -/
def kernelInt8 := kernel (intType 1)

/-! ## One element -/

theorem asInt_eq_some {v : Int} (range : -2 ^ 31 ≤ v ∧ v < 2 ^ 31) : asInt v = some v :=
  if_pos range

theorem index_of_lt {i size j : Nat} (less : i * size + j < 2 ^ 31) :
    index i size j = some (i * size + j) := by
  have row : asInt (i * size) = some ((i * size : Nat) : Int) := by
    push_cast
    exact asInt_eq_some (by omega)
  have sum : asInt (((i * size : Nat) : Int) + j) = some (((i * size + j : Nat)) : Int) := by
    push_cast
    exact asInt_eq_some (by omega)
  unfold index
  rw [row, Option.bind_some, sum]
  rfl

theorem index_of_ge {i size j : Nat} (large : 2 ^ 31 ≤ i * size + j) : index i size j = none := by
  unfold index asInt
  split
  · rw [Option.bind_some, if_neg (by push_cast; omega)]
    rfl
  · rfl

section

variable {elemSize : Nat} (t : ElemType elemSize) (y x w : Buffer) (nSize kSize i j : Nat)

/-- The sum of the element of Y and the first `n` products. -/
def exactSum (n : Nat) : Int :=
  t.value (elem elemSize y (i * kSize + j)) + ∑ k ∈ range n,
    t.value (elem elemSize x (i * nSize + k)) * t.value (elem elemSize w (k * kSize + j))

/-- The product of step `k`, and its sum with the element so far, are of type `int`. -/
def StepFits (k : Nat) : Prop :=
  let product :=
    t.value (elem elemSize x (i * nSize + k)) * t.value (elem elemSize w (k * kSize + j))
  let z := t.value (BitVec.ofInt (8 * elemSize) (exactSum t y x w nSize kSize i j k))
  (-2 ^ 31 ≤ product ∧ product < 2 ^ 31) ∧ -2 ^ 31 ≤ z + product ∧ z + product < 2 ^ 31

/-- All expressions of a step are of type `int`. -/
structure StepDefined (k : Nat) : Prop where
  xAt : i * nSize + k < 2 ^ 31
  wAt : k * kSize + j < 2 ^ 31
  mac : StepFits t y x w nSize kSize i j k

/-- All expressions for an element are of type `int`. -/
structure CellDefined : Prop where
  zAt : i * kSize + j < 2 ^ 31
  step : ∀ k < nSize, StepDefined t y x w nSize kSize i j k

/-- The element in row `i` and column `j` has been stored, and the others are as in `z`. -/
structure ElemStored (n : Nat) (z u : Buffer) : Prop where
  here : elem elemSize u (i * kSize + j) =
    BitVec.ofInt (8 * elemSize) (exactSum t y x w nSize kSize i j n)
  kept : ∀ at', at' ≠ i * kSize + j → elem elemSize u at' = elem elemSize z at'

variable {t y x w nSize kSize i j}

theorem exactSum_succ {n : Nat} : exactSum t y x w nSize kSize i j (n + 1) =
    exactSum t y x w nSize kSize i j n +
      t.value (elem elemSize x (i * nSize + n)) * t.value (elem elemSize w (n * kSize + j)) := by
  unfold exactSum
  rw [sum_range_succ, add_assoc]

/-- One step of the innermost loop. -/
theorem ElemStored.step {k : Nat} {z u : Buffer} (zAt : i * kSize + j < 2 ^ 31)
    (stored : ElemStored t y x w nSize kSize i j k z u)
    (defined : StepDefined t y x w nSize kSize i j k) :
    ∃ u', macAt t x w nSize kSize i j u k = some u' ∧
      ElemStored t y x w nSize kSize i j (k + 1) z u' := by
  obtain ⟨product, sum⟩ := defined.mac
  refine ⟨storeLe u ((i * kSize + j) * elemSize) elemSize
    (BitVec.ofInt (8 * elemSize) (exactSum t y x w nSize kSize i j (k + 1))), ?_,
    ⟨elem_storeLe, fun at' other => ?_⟩⟩
  · unfold macAt mac
    rw [index_of_lt zAt, index_of_lt defined.xAt, index_of_lt defined.wAt, Option.bind_some,
      Option.bind_some, Option.bind_some, stored.here, asInt_eq_some product, Option.bind_some,
      asInt_eq_some sum, Option.map_some, Option.map_some, BitVec.ofInt_add, t.ofInt_value,
      exactSum_succ, BitVec.ofInt_add]
  · rw [elem_storeLe_of_ne other.symm]
    exact stored.kept at' other

theorem ElemStored.stuck {k : Nat} {z u : Buffer} (zAt : i * kSize + j < 2 ^ 31)
    (stored : ElemStored t y x w nSize kSize i j k z u)
    (undefined : ¬ StepDefined t y x w nSize kSize i j k) :
    macAt t x w nSize kSize i j u k = none := by
  unfold macAt
  rw [index_of_lt zAt, Option.bind_some]
  rcases Nat.lt_or_ge (i * nSize + k) (2 ^ 31) with xAt | beyond
  · rw [index_of_lt xAt, Option.bind_some]
    rcases Nat.lt_or_ge (k * kSize + j) (2 ^ 31) with wAt | beyond
    · have unfit : ¬ StepFits t y x w nSize kSize i j k := fun fits => undefined ⟨xAt, wAt, fits⟩
      rw [index_of_lt wAt, Option.bind_some, stored.here, Option.map_eq_none_iff]
      unfold mac asInt
      unfold StepFits at unfit
      dsimp only at unfit
      split
      · rename_i product
        rw [Option.bind_some, if_neg fun sum => unfit ⟨product, sum⟩]
        rfl
      · rfl
    · rw [index_of_ge beyond]
      rfl
  · rw [index_of_ge beyond]
    rfl

/-- The body of the two outer loops. -/
theorem cell_run (z : Buffer) :
    (CellDefined t y x w nSize kSize i j ∧ ∃ u, cell t y x w nSize kSize i z j = some u ∧
      ElemStored t y x w nSize kSize i j nSize z u) ∨
    ¬ CellDefined t y x w nSize kSize i j ∧ cell t y x w nSize kSize i z j = none := by
  unfold cell
  rcases Nat.lt_or_ge (i * kSize + j) (2 ^ 31) with zAt | beyond
  · rw [index_of_lt zAt, Option.bind_some]
    have start : ElemStored t y x w nSize kSize i j 0 z
        (storeLe z ((i * kSize + j) * elemSize) elemSize (elem elemSize y (i * kSize + j))) := by
      refine ⟨?_, fun at' other => elem_storeLe_of_ne other.symm⟩
      rw [elem_storeLe]
      unfold exactSum
      rw [range_zero, sum_empty, add_zero, t.ofInt_value]
    rcases foldlM_range (fun n u => ElemStored t y x w nSize kSize i j n z u) _ start
      (fun _ _ _ stored defined => stored.step zAt defined)
      (fun _ _ _ stored undefined => stored.stuck zAt undefined) with
      ⟨defined, u, run, stored⟩ | ⟨⟨k, less, undefined⟩, run⟩
    · exact .inl ⟨⟨zAt, defined⟩, u, run, stored⟩
    · exact .inr ⟨fun all => undefined (all.step k less), run⟩
  · rw [index_of_ge beyond]
    exact .inr ⟨fun all => absurd all.zAt (Nat.not_lt.mpr beyond), rfl⟩

/-- The first `n` elements of row `i` have been stored, and the others are as in `z`. -/
structure RowStored (t : ElemType elemSize) (y x w : Buffer) (nSize kSize i : Nat) (z : Buffer)
    (n : Nat) (u : Buffer) : Prop where
  done : ∀ j < n, elem elemSize u (i * kSize + j) =
    BitVec.ofInt (8 * elemSize) (exactSum t y x w nSize kSize i j nSize)
  kept : ∀ at', (∀ j < n, at' ≠ i * kSize + j) → elem elemSize u at' = elem elemSize z at'

theorem RowStored.next {z u u' : Buffer} {n : Nat} (row : RowStored t y x w nSize kSize i z n u)
    (stored : ElemStored t y x w nSize kSize i n nSize u u') :
    RowStored t y x w nSize kSize i z (n + 1) u' where
  done := by
    intro j less
    rcases Nat.lt_succ_iff_lt_or_eq.mp less with before | rfl
    · rw [stored.kept _ (by omega)]
      exact row.done j before
    · exact stored.here
  kept := by
    intro at' other
    rw [stored.kept at' (other n (Nat.lt_succ_self n))]
    exact row.kept at' fun j less => other j (Nat.lt_succ_of_lt less)

theorem row_run (z : Buffer) :
    ((∀ j < kSize, CellDefined t y x w nSize kSize i j) ∧
      ∃ u, (List.range kSize).foldlM (cell t y x w nSize kSize i) z = some u ∧
        RowStored t y x w nSize kSize i z kSize u) ∨
    (∃ j < kSize, ¬ CellDefined t y x w nSize kSize i j) ∧
      (List.range kSize).foldlM (cell t y x w nSize kSize i) z = none := by
  apply foldlM_range (RowStored t y x w nSize kSize i z)
  · exact ⟨fun _ less => absurd less (Nat.not_lt_zero _), fun _ _ => rfl⟩
  · intro j _ u row defined
    rcases cell_run u with ⟨-, u', run, stored⟩ | ⟨undefined, -⟩
    · exact ⟨u', run, row.next stored⟩
    · exact absurd defined undefined
  · intro j _ u _ undefined
    rcases cell_run u with ⟨defined, -⟩ | ⟨-, run⟩
    · exact absurd defined undefined
    · exact run

variable (t y x w nSize kSize) in
/-- The kernel is defined exactly if all expressions for all elements are, and then every element
is the exact sum modulo the width of the elements. -/
theorem kernel_run (mSize : Nat) (z : Buffer) :
    ((∀ i < mSize, ∀ j < kSize, CellDefined t y x w nSize kSize i j) ∧
      ∃ u, kernel t z y x w mSize nSize kSize = some u ∧ ∀ i < mSize, ∀ j < kSize,
        elem elemSize u (i * kSize + j) =
          BitVec.ofInt (8 * elemSize) (exactSum t y x w nSize kSize i j nSize)) ∨
    (∃ i < mSize, ¬ ∀ j < kSize, CellDefined t y x w nSize kSize i j) ∧
      kernel t z y x w mSize nSize kSize = none := by
  unfold kernel
  apply foldlM_range fun n u => ∀ i < n, ∀ j < kSize, elem elemSize u (i * kSize + j) =
    BitVec.ofInt (8 * elemSize) (exactSum t y x w nSize kSize i j nSize)
  · exact fun _ less => absurd less (Nat.not_lt_zero _)
  · intro i _ u rows defined
    rcases row_run u with ⟨-, u', run, row⟩ | ⟨⟨j, less, undefined⟩, -⟩
    · refine ⟨u', run, fun i' less j hj => ?_⟩
      rcases Nat.lt_succ_iff_lt_or_eq.mp less with before | rfl
      · rw [row.kept]
        · exact rows i' before j hj
        · intro j' hj' same
          exact Nat.ne_of_lt before (place_inj hj hj' same).1
      · exact row.done j hj
    · exact absurd (defined j less) undefined
  · intro i _ u _ undefined
    rcases row_run u with ⟨defined, -⟩ | ⟨-, run⟩
    · exact absurd defined undefined
    · exact run

end

/-! ## Sizes and values -/

/-- The indices of all elements are of type `int`. -/
def SizesFit (mSize nSize kSize : Nat) : Prop :=
  mSize = 0 ∨ kSize = 0 ∨ mSize * kSize ≤ 2 ^ 31 ∧
    (nSize = 0 ∨ mSize * nSize ≤ 2 ^ 31 ∧ nSize * kSize ≤ 2 ^ 31)

/-- All indices of a matrix are below a bound. -/
theorem index_lt_iff {rows columns bound : Nat} (hr : 0 < rows) (hc : 0 < columns) :
    (∀ i < rows, ∀ j < columns, i * columns + j < bound) ↔ rows * columns ≤ bound := by
  constructor
  · intro all
    obtain ⟨i, rfl⟩ := Nat.exists_eq_add_of_le' hr
    obtain ⟨j, rfl⟩ := Nat.exists_eq_add_of_le' hc
    have last := all i (Nat.lt_succ_self i) j (Nat.lt_succ_self j)
    rw [Nat.succ_mul]
    omega
  · intro le i hi j hj
    have row : (i + 1) * columns ≤ rows * columns := Nat.mul_le_mul_right _ hi
    rw [Nat.succ_mul] at row
    omega

section

variable {elemSize : Nat} {t : ElemType elemSize} {y x w z : Buffer} {mSize nSize kSize : Nat}

/-- A kernel is defined for sizes and values that fit an `int`. -/
theorem all_defined_iff :
    (∀ i < mSize, ∀ j < kSize, CellDefined t y x w nSize kSize i j) ↔
      SizesFit mSize nSize kSize ∧
        ∀ i < mSize, ∀ j < kSize, ∀ k < nSize, StepFits t y x w nSize kSize i j k := by
  unfold SizesFit
  rcases Nat.eq_zero_or_pos mSize with rfl | hm
  · simp
  rcases Nat.eq_zero_or_pos kSize with rfl | hk
  · simp
  constructor
  · intro all
    refine ⟨.inr (.inr ⟨?_, ?_⟩), fun i hi j hj k hn => ((all i hi j hj).step k hn).mac⟩
    · exact (index_lt_iff hm hk).mp fun i hi j hj => (all i hi j hj).zAt
    · rcases Nat.eq_zero_or_pos nSize with none | hn
      · exact .inl none
      · refine .inr ⟨(index_lt_iff hm hn).mp fun i hi k hk' => ?_,
          (index_lt_iff hn hk).mp fun k hk' j hj => ?_⟩
        · exact ((all i hi 0 hk).step k hk').xAt
        · exact ((all 0 hm j hj).step k hk').wAt
  · rintro ⟨sizes, fits⟩ i hi j hj
    obtain ⟨zFits, inner⟩ := (sizes.resolve_left hm.ne').resolve_left hk.ne'
    refine ⟨(index_lt_iff hm hk).mpr zFits i hi j hj, fun k hn => ?_⟩
    have some : 0 < nSize := Nat.zero_lt_of_lt hn
    obtain ⟨xFits, wFits⟩ := inner.resolve_left some.ne'
    exact ⟨(index_lt_iff hm some).mpr xFits i hi k hn, (index_lt_iff some hk).mpr wFits k hn j hj,
      fits i hi j hj k hn⟩

variable (t y x w mSize nSize kSize) in
/-- The kernel overflows nowhere, and stores the sums modulo the width of the elements. -/
def Exact (run : Option Buffer) : Prop :=
  ∃ u, run = some u ∧ ∀ i < mSize, ∀ j < kSize, elem elemSize u (i * kSize + j) =
    BitVec.ofInt (8 * elemSize) (exactSum t y x w nSize kSize i j nSize)

theorem exact_iff : Exact t y x w mSize nSize kSize (kernel t z y x w mSize nSize kSize) ↔
    SizesFit mSize nSize kSize ∧
      ∀ i < mSize, ∀ j < kSize, ∀ k < nSize, StepFits t y x w nSize kSize i j k := by
  rw [← all_defined_iff]
  rcases kernel_run t y x w nSize kSize mSize z with
    ⟨defined, u, run, sums⟩ | ⟨⟨i, hi, undefined⟩, run⟩
  · exact ⟨fun _ => defined, fun _ => ⟨u, run, sums⟩⟩
  · constructor
    · rintro ⟨u, run', -⟩
      exact absurd (run'.symm.trans run) (Option.some_ne_none u)
    · intro defined
      exact absurd (defined i hi) undefined

/-- Values that are small enough never leave the range of `int`. -/
theorem stepFits_of_le {bound : Int} (small : ∀ b, |t.value b| ≤ bound)
    (room : bound + bound * bound < 2 ^ 31) {i j k : Nat} : StepFits t y x w nSize kSize i j k := by
  have product : |t.value (elem elemSize x (i * nSize + k)) *
      t.value (elem elemSize w (k * kSize + j))| ≤ bound * bound := by
    rw [abs_mul]
    exact mul_le_mul (small _) (small _) (abs_nonneg _)
      ((abs_nonneg _).trans (small (elem elemSize x 0)))
  have sum := small (BitVec.ofInt (8 * elemSize) (exactSum t y x w nSize kSize i j k))
  rw [abs_le] at product sum
  unfold StepFits
  dsimp only
  constructor <;> constructor <;> linarith

/-- The sum of unsigned words with a product. -/
theorem stepFits_uint16_iff {i j k : Nat} :
    StepFits (uintType 2) y x w nSize kSize i j k ↔
      exactSum (uintType 2) y x w nSize kSize i j k % 2 ^ 16 +
        (elem 2 x (i * nSize + k)).toNat * (elem 2 w (k * kSize + j)).toNat < 2 ^ 31 := by
  have value : ∀ v : Int, (uintType 2).value (BitVec.ofInt (8 * 2) v) = v % 2 ^ 16 := by
    intro v
    have toNat : (uintType 2).value (BitVec.ofInt (8 * 2) v) =
      ((BitVec.ofInt (8 * 2) v).toNat : Int) := rfl
    rw [toNat, BitVec.toNat_ofInt]
    omega
  have factor : ∀ b : BitVec (8 * 2), (uintType 2).value b = b.toNat := fun _ => rfl
  unfold StepFits
  dsimp only
  rw [value, factor, factor]
  have product : (0 : Int) ≤
      (elem 2 x (i * nSize + k)).toNat * (elem 2 w (k * kSize + j)).toNat :=
    Int.mul_nonneg (Int.natCast_nonneg _) (Int.natCast_nonneg _)
  omega

end

/-- Exactly when the kernels overflow nowhere and store exact sums: the sizes must fit, and for
`matmul_uint16` every product, with the element that it is added to, must be below `2 ^ 31`. -/
theorem kernels_iff (mSize nSize kSize : Nat) (z y x w : Buffer) :
    (Exact (uintType 2) y x w mSize nSize kSize (kernelUint16 z y x w mSize nSize kSize) ↔
      SizesFit mSize nSize kSize ∧ ∀ i < mSize, ∀ j < kSize, ∀ k < nSize,
        exactSum (uintType 2) y x w nSize kSize i j k % 2 ^ 16 +
          (elem 2 x (i * nSize + k)).toNat * (elem 2 w (k * kSize + j)).toNat < 2 ^ 31) ∧
    (Exact (intType 2) y x w mSize nSize kSize (kernelInt16 z y x w mSize nSize kSize) ↔
      SizesFit mSize nSize kSize) ∧
    (Exact (uintType 1) y x w mSize nSize kSize (kernelUint8 z y x w mSize nSize kSize) ↔
      SizesFit mSize nSize kSize) ∧
    (Exact (intType 1) y x w mSize nSize kSize (kernelInt8 z y x w mSize nSize kSize) ↔
      SizesFit mSize nSize kSize) := by
  have signed : ∀ b : BitVec (8 * 2), |(intType 2).value b| ≤ 2 ^ 15 := fun b =>
    abs_le.mpr ⟨BitVec.le_toInt b, (BitVec.toInt_lt (x := b)).le⟩
  have byte : ∀ b : BitVec (8 * 1), |(uintType 1).value b| ≤ 2 ^ 8 := fun b =>
    abs_le.mpr ⟨(by decide : (-2 ^ 8 : Int) ≤ 0).trans (Int.natCast_nonneg _),
      Int.ofNat_le.mpr b.isLt.le⟩
  have signedByte : ∀ b : BitVec (8 * 1), |(intType 1).value b| ≤ 2 ^ 7 := fun b =>
    abs_le.mpr ⟨BitVec.le_toInt b, (BitVec.toInt_lt (x := b)).le⟩
  refine ⟨?_, ?_, ?_, ?_⟩
  · unfold kernelUint16
    rw [exact_iff]
    simp only [stepFits_uint16_iff]
  · exact exact_iff.trans (and_iff_left fun i _ j _ k _ => stepFits_of_le signed (by decide))
  · exact exact_iff.trans (and_iff_left fun i _ j _ k _ => stepFits_of_le byte (by decide))
  · exact exact_iff.trans (and_iff_left fun i _ j _ k _ => stepFits_of_le signedByte (by decide))

/-- The largest words: `65535 * 65535` is not an `int`. -/
theorem uint16_overflow :
    kernelUint16 (fun _ => 0) (fun _ => 0) (fun _ => 0xFF) (fun _ => 0xFF) 1 1 1 = none := by
  decide

/-! ## The product of the model -/

section

variable {elemSize : Nat} {t : ElemType elemSize} {y x w z u : Buffer} {mSize nSize kSize i j : Nat}

theorem ofInt_exactSum (n : Nat) : BitVec.ofInt (8 * elemSize)
    (exactSum t y x w nSize kSize i j n) = elem elemSize y (i * kSize + j) +
      ∑ k ∈ range n, elem elemSize x (i * nSize + k) * elem elemSize w (k * kSize + j) := by
  induction n with
  | zero =>
    unfold exactSum
    rw [range_zero, sum_empty, sum_empty, add_zero, add_zero, t.ofInt_value]
  | succ n ih =>
    rw [exactSum_succ, BitVec.ofInt_add, ih, BitVec.ofInt_mul, t.ofInt_value, t.ofInt_value,
      sum_range_succ, add_assoc]

/-- A kernel that overflows nowhere computes the product of the model, in which Y is the tile that Z
begins with. -/
theorem kernel_eq_matmul
    {mac' : BitVec (8 * elemSize) → BitVec (8 * elemSize) → BitVec (8 * elemSize) →
      BitVec (8 * elemSize)} (mac_eq : ∀ a b c, mac' a b c = a + b * c)
    (run : kernel t z z x w mSize nSize kSize = some u) (hi : i < mSize) (hj : j < kSize) :
    elem elemSize u (i * kSize + j) =
      elem elemSize (matmul elemSize mac' z x w mSize nSize kSize) (i * kSize + j) := by
  rcases kernel_run t z x w nSize kSize mSize z with
    ⟨-, u', run', sums⟩ | ⟨-, failed⟩
  · obtain rfl := Option.some.inj (run.symm.trans run')
    rw [sums i hi j hj, ofInt_exactSum, matmul_sum mac_eq hi hj]
  · exact absurd (run.symm.trans failed) (Option.some_ne_none u)

end

end SoftHier.Redmule
