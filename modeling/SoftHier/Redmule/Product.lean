import SoftHier.Lib.Loops
import SoftHier.Redmule.Blocks

/-!
# The product of two tiles

The integer products, element by element: a tile of Z grows by the product of the tiles of X and W
modulo the width of the elements, whether they are signed or not.

* `macUint_eq`, `macInt_eq`: the products and sums of the modes.
* `matmul_elem`: the loops.
* `compute_elem`: `process_compute` in an integer mode.
-/

namespace SoftHier.Redmule

theorem macUint_eq {width : Nat} (z x w : BitVec width) : macUint z x w = z + x * w := by
  unfold macUint
  rw [BitVec.ofNat_add, BitVec.ofNat_mul, BitVec.ofNat_toNat, BitVec.ofNat_toNat,
    BitVec.ofNat_toNat, BitVec.setWidth_eq, BitVec.setWidth_eq, BitVec.setWidth_eq]

theorem macInt_eq {width : Nat} (z x w : BitVec width) : macInt z x w = z + x * w := by
  unfold macInt
  rw [BitVec.ofInt_add, BitVec.ofInt_mul, BitVec.ofInt_toInt, BitVec.ofInt_toInt,
    BitVec.ofInt_toInt]

section

variable {elemSize : Nat} {z x w : Buffer}

theorem elem_storeLe {index : Nat} {v : BitVec (8 * elemSize)} :
    elem elemSize (storeLe z (index * elemSize) elemSize v) index = v := loadLe_storeLe

theorem elem_storeLe_of_ne {index index' : Nat} {v : BitVec (8 * elemSize)}
    (other : index ≠ index') :
    elem elemSize (storeLe z (index * elemSize) elemSize v) index' = elem elemSize z index' := by
  apply loadLe_storeLe_of_apart
  rcases Nat.lt_or_gt_of_ne other with before | after
  · have next := Nat.mul_le_mul_right elemSize before
    rw [Nat.succ_mul] at next
    exact Or.inr next
  · have next := Nat.mul_le_mul_right elemSize after
    rw [Nat.succ_mul] at next
    exact Or.inl next

/-- An element of a tile has one row and one column. -/
theorem place_inj {width i j i' j' : Nat} (hj : j < width) (hj' : j' < width)
    (same : i * width + j = i' * width + j') : i = i' ∧ j = j' := by
  have column : (i * width + j) % width = (i' * width + j') % width := congrArg (· % width) same
  rw [Nat.mul_add_mod', Nat.mul_add_mod', Nat.mod_eq_of_lt hj, Nat.mod_eq_of_lt hj'] at column
  subst column
  exact ⟨Nat.eq_of_mul_eq_mul_right (Nat.zero_lt_of_lt hj) (Nat.add_right_cancel same), rfl⟩

/-- The innermost loop changes its own element alone. -/
theorem matmul_inner {mac : BitVec (8 * elemSize) → BitVec (8 * elemSize) → BitVec (8 * elemSize) →
      BitVec (8 * elemSize)} {index : Nat} {f g : Nat → BitVec (8 * elemSize)} (l : List Nat)
        (z : Buffer) :
    elem elemSize (l.foldl (fun z k => storeLe z (index * elemSize) elemSize
        (mac (elem elemSize z index) (f k) (g k))) z) index =
      l.foldl (fun acc k => mac acc (f k) (g k)) (elem elemSize z index) := by
  induction l generalizing z with
  | nil => rfl
  | cons k l ih => rw [List.foldl_cons, ih, elem_storeLe, List.foldl_cons]

/-- The element in row `i` and column `j` of a product. -/
theorem matmul_elem {mac : BitVec (8 * elemSize) → BitVec (8 * elemSize) → BitVec (8 * elemSize) →
      BitVec (8 * elemSize)} {mSize nSize kSize i j : Nat} (hi : i < mSize) (hj : j < kSize) :
    elem elemSize (matmul elemSize mac z x w mSize nSize kSize) (i * kSize + j) =
      (List.range nSize).foldl (fun acc k =>
        mac acc (elem elemSize x (i * nSize + k)) (elem elemSize w (k * kSize + j)))
        (elem elemSize z (i * kSize + j)) := by
  have inner : ∀ i' j' z, j' < kSize → (i', j') ≠ (i, j) →
      elem elemSize ((List.range nSize).foldl (fun z k =>
        storeLe z ((i' * kSize + j') * elemSize) elemSize
          (mac (elem elemSize z (i' * kSize + j')) (elem elemSize x (i' * nSize + k))
            (elem elemSize w (k * kSize + j')))) z) (i * kSize + j) =
        elem elemSize z (i * kSize + j) := by
    intro i' j' z less other
    apply foldl_kept fun z => elem elemSize z (i * kSize + j)
    intro k _ z
    apply elem_storeLe_of_ne
    intro same
    obtain ⟨row, column⟩ := place_inj less hj same
    exact other (by rw [row, column])
  unfold matmul
  refine foldl_once (fun z => elem elemSize z (i * kSize + j))
    (fun a => (List.range nSize).foldl (fun acc k =>
      mac acc (elem elemSize x (i * nSize + k)) (elem elemSize w (k * kSize + j))) a)
    List.nodup_range (List.mem_range.mpr hi) ?_ ?_ z
  · intro i' _ other z
    apply foldl_kept fun z => elem elemSize z (i * kSize + j)
    intro j' mem z
    exact inner i' j' z (List.mem_range.mp mem) fun same => other (congrArg Prod.fst same)
  · intro z
    refine foldl_once (fun z => elem elemSize z (i * kSize + j))
      (fun a => (List.range nSize).foldl (fun acc k =>
        mac acc (elem elemSize x (i * nSize + k)) (elem elemSize w (k * kSize + j))) a)
      List.nodup_range (List.mem_range.mpr hj) ?_ ?_ z
    · intro j' mem other z
      exact inner i j' z (List.mem_range.mp mem) fun same => other (congrArg Prod.snd same)
    · intro z
      exact matmul_inner (List.range nSize) z

/-- The element of a product modulo the width of the elements. -/
theorem matmul_sum {mac : BitVec (8 * elemSize) → BitVec (8 * elemSize) → BitVec (8 * elemSize) →
      BitVec (8 * elemSize)} (mac_eq : ∀ a b c, mac a b c = a + b * c) {mSize nSize kSize i j : Nat}
    (hi : i < mSize) (hj : j < kSize) :
    elem elemSize (matmul elemSize mac z x w mSize nSize kSize) (i * kSize + j) =
      elem elemSize z (i * kSize + j) + ∑ k ∈ Finset.range nSize,
        elem elemSize x (i * nSize + k) * elem elemSize w (k * kSize + j) := by
  rw [matmul_elem hi hj]
  simp only [mac_eq]
  exact foldl_add _ _ _

end

/-! ## The computation -/

/-- `compute_able` of an integer mode. -/
def IntegerMode (mode : Nat) : Prop := mode = 1 ∨ mode = 2 ∨ mode = 5 ∨ mode = 6

instance (mode : Nat) : Decidable (IntegerMode mode) := inferInstanceAs (Decidable (_ ∨ _))

theorem IntegerMode.enabled {mode : Nat} (integer : IntegerMode mode) : mode ≠ 0 := by
  rcases integer with rfl | rfl | rfl | rfl <;> nofun

/-- A job in an integer mode, whose tiles fit into the local buffers and whose rows are counted in
32 bits. -/
structure Sized (A : Arch) (R : Regs) (mode : Nat) : Prop where
  integer : IntegerMode mode
  elemSize : R.elemSize = if mode < 4 then 2 else 1
  divides : R.elemSize ∣ A.bandwidth
  height_pos : 0 < A.bufferH
  height_lt : A.bufferH < 2 ^ 16
  width_pos : 0 < A.bufferW
  width_lt : A.bufferW < 2 ^ 16
  depth_pos : 0 < A.bufferN R.elemSize
  depth_lt : A.bufferN R.elemSize < 2 ^ 16
  xFits : A.bufferH * A.bandwidth < 2 ^ 32
  wFits : A.bufferW * A.bandwidth < 2 ^ 32
  zFits : A.bufferH * A.bufferW * R.elemSize < 2 ^ 32
  mFits : R.mSize * R.elemSize < 2 ^ 32
  nFits : R.nSize * R.elemSize < 2 ^ 32
  kFits : R.kSize * R.elemSize < 2 ^ 32

/-- A Z tile grows by the product of the tiles of X and W. -/
theorem compute_elem {A : Arch} {R : Regs} {mode : Nat} (sized : Sized A R mode) (z x w : Buffer)
    {r c : Nat} (hr : r < A.bufferH) (hc : c < A.bufferW) :
    elem R.elemSize (compute A R mode z x w) (r * A.bufferW + c) =
      elem R.elemSize z (r * A.bufferW + c) + ∑ n ∈ Finset.range (A.bufferN R.elemSize),
        elem R.elemSize x (r * A.bufferN R.elemSize + n) *
          elem R.elemSize w (n * A.bufferW + c) := by
  obtain ⟨integer, elemSize, -, -, height, -, width, -, depth, -, -, -, -, -, -⟩ := sized
  obtain ⟨mSize, nSize, kSize, xAddr, wAddr, yAddr, zAddr, es⟩ := R
  dsimp only at elemSize depth ⊢
  unfold compute processCompute
  dsimp only
  rw [u16_of_lt height, u16_of_lt width, u16_of_lt depth]
  rcases integer with rfl | rfl | rfl | rfl
  · obtain rfl : es = 2 := elemSize
    exact matmul_sum macUint_eq hr hc
  · obtain rfl : es = 2 := elemSize
    exact matmul_sum macInt_eq hr hc
  · obtain rfl : es = 1 := elemSize
    exact matmul_sum macUint_eq hr hc
  · obtain rfl : es = 1 := elemSize
    exact matmul_sum macInt_eq hr hc

end SoftHier.Redmule
