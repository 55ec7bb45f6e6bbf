import SoftHier.Redmule.Passes
import SoftHier.Redmule.Product

/-!
# The elements of the tiles

What the rows of a tile that are loaded or stored hold, element by element, also for the tiles at
the borders of the matrices, whose rows are shorter or fewer.

* `cutoff_eq`, `rowBlocks_eq`: the size of a tile.
* `loadXTile_elem`, `loadWTile_elem`, `loadYTile_elem`: a tile that is loaded.
* `zStore_eq`: the size with which a tile is stored.
* `start_contents`: a job whose tiles fit, from the request of a core to its end.
-/

namespace SoftHier.Redmule

section

variable {A : Arch} {R : Regs} {mode : Nat}

namespace Sized

theorem elemSize_pos (sized : Sized A R mode) : 0 < R.elemSize := by
  rw [sized.elemSize]
  split <;> exact Nat.succ_pos _

theorem elemSize_le (sized : Sized A R mode) : R.elemSize ≤ 2 := by
  rw [sized.elemSize]
  split <;> omega

theorem le_mul (sized : Sized A R mode) (n : Nat) : n ≤ n * R.elemSize :=
  Nat.le_mul_of_pos_right n sized.elemSize_pos

theorem mSize_lt (sized : Sized A R mode) : R.mSize < 2 ^ 32 :=
  Nat.lt_of_le_of_lt (sized.le_mul _) sized.mFits

theorem nSize_lt (sized : Sized A R mode) : R.nSize < 2 ^ 32 :=
  Nat.lt_of_le_of_lt (sized.le_mul _) sized.nFits

theorem kSize_lt (sized : Sized A R mode) : R.kSize < 2 ^ 32 :=
  Nat.lt_of_le_of_lt (sized.le_mul _) sized.kFits

theorem bandwidth_eq (sized : Sized A R mode) : A.bandwidth = A.bufferN R.elemSize * R.elemSize :=
  (Nat.div_mul_cancel sized.divides).symm

theorem small {n : Nat} (sized : Sized A R mode) (less : n < 2 ^ 16) : n * R.elemSize < 2 ^ 32 := by
  have le := Nat.mul_le_mul (Nat.le_of_lt less) sized.elemSize_le
  omega

theorem wByte_eq (sized : Sized A R mode) : A.bufferWByte R.elemSize = A.bufferW * R.elemSize :=
  u32_of_lt (sized.small sized.width_lt)

theorem hByte_eq (sized : Sized A R mode) : A.bufferHByte R.elemSize = A.bufferH * R.elemSize :=
  u32_of_lt (sized.small sized.height_lt)

theorem yzByte_eq (sized : Sized A R mode) :
    A.bufferYZByte R.elemSize = A.bufferH * (A.bufferW * R.elemSize) := by
  have fits := sized.zFits
  have tile : A.bufferH * A.bufferW ≤ A.bufferH * A.bufferW * R.elemSize := sized.le_mul _
  have inner : u32 (A.bufferH * A.bufferW) = A.bufferH * A.bufferW := u32_of_lt (by omega)
  have whole : A.bufferYZByte R.elemSize = u32 (u32 (A.bufferH * A.bufferW) * R.elemSize) := rfl
  rw [whole, inner, u32_of_lt fits, Nat.mul_assoc]

/-- The place of a row of a Z tile in its buffer. -/
theorem rowAt_eq (sized : Sized A R mode) {r : Nat} (hr : r < A.bufferH) :
    rowAt 0 (A.bufferWByte R.elemSize) r = r * (A.bufferW * R.elemSize) := by
  have fits := sized.zFits
  have row := Nat.mul_le_mul_right (A.bufferW * R.elemSize) (Nat.le_of_lt hr)
  rw [Nat.mul_assoc] at fits
  unfold rowAt
  rw [sized.wByte_eq, Nat.zero_add, u32_of_lt (Nat.lt_of_le_of_lt row fits)]

end Sized

/-! ## Sizes -/

/-- A partial block at the end of a matrix. -/
theorem cutoff_eq {size index block elemSize : Nat} (inside : index * block ≤ size)
    (small : size * elemSize < 2 ^ 32) :
    cutoff (size * elemSize) index (block * elemSize) =
      min (size - index * block) block * elemSize := by
  have before : index * (block * elemSize) ≤ size * elemSize := by
    rw [← Nat.mul_assoc]
    exact Nat.mul_le_mul_right _ inside
  unfold cutoff
  rw [u32_of_lt small, u32_of_lt (Nat.lt_of_le_of_lt before small), sub32_of_le before small,
    ← Nat.mul_assoc, ← Nat.sub_mul, Nat.mul_min_mul_right]

theorem rowBlocks_eq {i : Nat} (inside : i * A.bufferH ≤ R.mSize) (small : R.mSize < 2 ^ 32) :
    rowBlocks A R i = min (R.mSize - i * A.bufferH) A.bufferH := by
  have row : i * A.ceHeight ≤ R.mSize := inside
  unfold rowBlocks
  rw [u32_of_lt (Nat.lt_of_le_of_lt row small), sub32_of_le row small]
  rfl

/-- The index of a tile is that of a tile of the matrix. -/
theorem mul_le_of_lt_tileCount {index size block : Nat} (pos : 0 < block)
    (less : index < tileCount size block) : index * block < size := by
  have product := Nat.div_add_mod size block
  have rest := Nat.mod_lt size pos
  unfold tileCount at less
  split at less
  · have le : index * block ≤ size / block * block :=
      Nat.mul_le_mul_right _ (Nat.le_of_lt_succ less)
    rw [Nat.mul_comm (size / block)] at le
    omega
  · have next : (index + 1) * block ≤ size / block * block := Nat.mul_le_mul_right _ less
    rw [Nat.succ_mul, Nat.mul_comm (size / block)] at next
    omega

/-- The number of tiles in a direction and the size of the last one. -/
theorem last_tile_size {index size block : Nat} (pos : 0 < block)
    (last : index + 1 = tileCount size block) :
    min (size - index * block) block = if size % block > 0 then size % block else block := by
  have product := Nat.div_add_mod size block
  have rest := Nat.mod_lt size pos
  unfold tileCount at last
  split at last
  · rename_i left
    have index_eq : index = size / block := Nat.succ.inj last
    rw [if_pos left, index_eq, Nat.mul_comm]
    omega
  · rename_i whole
    have size_eq : size / block * block = index * block + block := by
      rw [← Nat.succ_mul]
      exact congrArg (· * block) last.symm
    rw [Nat.mul_comm] at product
    rw [if_neg whole]
    omega

/-- The number of rows of a W tile. -/
theorem wRows_eq (sized : Sized A R mode) {it : Iter} (inside : it.k < (initTiles A R).xRowTiles) :
    wRows A R (initTiles A R) it =
      min (R.nSize - it.k * A.bufferN R.elemSize) (A.bufferN R.elemSize) := by
  have pos := sized.depth_pos
  have tiles : (initTiles A R).xRowTiles = tileCount R.nSize (A.bufferN R.elemSize) := rfl
  have lefts : (initTiles A R).xRowLefts = R.nSize % A.bufferN R.elemSize := rfl
  have le := tileCount_le R.nSize (A.bufferN R.elemSize)
  have small := sized.nSize_lt
  rw [tiles] at inside
  have wrap : sub32 (tileCount R.nSize (A.bufferN R.elemSize)) 1 =
      tileCount R.nSize (A.bufferN R.elemSize) - 1 := sub32_of_le (by omega) (by omega)
  unfold wRows
  rw [tiles, lefts, wrap]
  rcases Nat.lt_or_ge (it.k + 1) (tileCount R.nSize (A.bufferN R.elemSize)) with more | last
  · have next := mul_le_of_lt_tileCount pos more
    have other : (it.k == tileCount R.nSize (A.bufferN R.elemSize) - 1) = false :=
      beq_false_of_ne (by omega)
    rw [Nat.succ_mul] at next
    rw [other, Bool.false_and, if_neg Bool.false_ne_true]
    omega
  · have same : (it.k == tileCount R.nSize (A.bufferN R.elemSize) - 1) = true :=
      beq_iff_eq.mpr (by omega)
    rw [last_tile_size pos (by omega), same, Bool.true_and]
    simp only [decide_eq_true_eq]

/-! ## Rows of elements -/

/-- A buffer into which rows of elements are copied. -/
theorem copyRows_elem {dst src : Buffer} {start : Nat → Nat} {elemSize pitch rows cols r c : Nat}
    (fits : cols ≤ pitch) (small : rows * (pitch * elemSize) ≤ 2 ^ 32) (column : c < pitch) :
    elem elemSize (copyRows dst (rowAt 0 (pitch * elemSize)) src start (cols * elemSize) rows)
        (r * pitch + c) =
      if r < rows ∧ c < cols then loadLe src (start r + c * elemSize) elemSize
      else elem elemSize dst (r * pitch + c) := by
  have places : ∀ i < rows, rowAt 0 (pitch * elemSize) i =
      0 + ((0 + i) * pitch + 0) * elemSize := by
    intro i less
    have le := Nat.mul_le_mul_right (pitch * elemSize) (Nat.succ_le_of_lt less)
    rw [Nat.succ_mul] at le
    rw [Nat.zero_add, Nat.zero_add, Nat.add_zero, Nat.mul_assoc]
    unfold rowAt
    rw [Nat.zero_add]
    rcases Nat.eq_zero_or_pos (pitch * elemSize) with zero | pos
    · rw [zero, Nat.mul_zero]
      rfl
    · exact u32_of_lt (by omega)
  have within : 0 + cols ≤ pitch := (Nat.zero_add cols).symm ▸ fits
  have block := copyRows_block dst src start (i := r) places within column
  simp only [entry, Nat.zero_add, Nat.sub_zero, Nat.zero_le, true_and] at block
  exact block

/-- An X tile that is loaded. -/
theorem loadXTile_elem (sized : Sized A R mode) {it : Iter} (hi : it.i * A.bufferH ≤ R.mSize)
    (hk : it.k * A.bufferN R.elemSize ≤ R.nSize) {x mem : Buffer} {r c : Nat}
    (hc : c < A.bufferN R.elemSize) :
    elem R.elemSize (loadXTile A R it x mem) (r * A.bufferN R.elemSize + c) =
      if r < min (R.mSize - it.i * A.bufferH) A.bufferH ∧
          c < min (R.nSize - it.k * A.bufferN R.elemSize) (A.bufferN R.elemSize) then
        loadLe mem
          (rowAt (calculateTileBaseAddress A R R.xAddr R.nSize A.bufferH (A.bufferN R.elemSize)
          it.i it.k) (rowStep A R R.nSize (A.bufferN R.elemSize)) r + c * R.elemSize) R.elemSize
      else elem R.elemSize x (r * A.bufferN R.elemSize + c) := by
  have nByte : A.bufferNByte = A.bufferN R.elemSize * R.elemSize := sized.bandwidth_eq
  have fits := sized.xFits
  rw [sized.bandwidth_eq] at fits
  unfold loadXTile
  rw [nByte, cutoff_eq hk sized.nFits, rowBlocks_eq hi sized.mSize_lt]
  apply copyRows_elem (Nat.min_le_right _ _) _ hc
  exact Nat.le_trans (Nat.mul_le_mul_right _ (Nat.min_le_right _ _)) (Nat.le_of_lt fits)

/-- A W tile that is loaded. -/
theorem loadWTile_elem (sized : Sized A R mode) {it : Iter} (hj : it.j * A.bufferW ≤ R.kSize)
    (hk : it.k < (initTiles A R).xRowTiles) {w mem : Buffer} {r c : Nat} (hc : c < A.bufferW) :
    elem R.elemSize (loadWTile A R (initTiles A R) it w mem) (r * A.bufferW + c) =
      if r < min (R.nSize - it.k * A.bufferN R.elemSize) (A.bufferN R.elemSize) ∧
          c < min (R.kSize - it.j * A.bufferW) A.bufferW then
        loadLe mem
          (rowAt (calculateTileBaseAddress A R R.wAddr R.kSize (A.bufferN R.elemSize) A.bufferW
          it.k it.j) (rowStep A R R.kSize A.bufferW) r + c * R.elemSize) R.elemSize
      else elem R.elemSize w (r * A.bufferW + c) := by
  have fits := sized.wFits
  have size : A.bufferN R.elemSize * (A.bufferW * R.elemSize) = A.bufferW * A.bandwidth := by
    rw [sized.bandwidth_eq]
    ring
  unfold loadWTile wCutoff
  rw [sized.wByte_eq, cutoff_eq hj sized.kFits, wRows_eq sized hk]
  apply copyRows_elem (Nat.min_le_right _ _) _ hc
  apply Nat.le_trans (Nat.mul_le_mul_right _ (Nat.min_le_right _ _))
  rw [size]
  exact Nat.le_of_lt fits

/-- A Y tile that is loaded. -/
theorem loadYTile_elem (sized : Sized A R mode) {t : Nat × Nat} (hi : t.1 * A.bufferH ≤ R.mSize)
    (hj : t.2 * A.bufferW ≤ R.kSize) {y mem : Buffer} {r c : Nat} (hc : c < A.bufferW) :
    elem R.elemSize (loadYTile A R t y mem) (r * A.bufferW + c) =
      if r < min (R.mSize - t.1 * A.bufferH) A.bufferH ∧
          c < min (R.kSize - t.2 * A.bufferW) A.bufferW then
        loadLe mem (rowAt (calculateTileBaseAddress A R R.yAddr R.kSize A.bufferH A.bufferW t.1 t.2)
          (rowStep A R R.kSize A.bufferW) r + c * R.elemSize) R.elemSize
      else elem R.elemSize y (r * A.bufferW + c) := by
  have fits := sized.zFits
  rw [Nat.mul_assoc] at fits
  unfold loadYTile
  rw [sized.wByte_eq, cutoff_eq hj sized.kFits, rowBlocks_eq hi sized.mSize_lt]
  apply copyRows_elem (Nat.min_le_right _ _) _ hc
  exact Nat.le_trans (Nat.mul_le_mul_right _ (Nat.min_le_right _ _)) (Nat.le_of_lt fits)

/-- The size of a Z tile that is stored. -/
theorem zStore_eq (sized : Sized A R mode) (it : Iter) (hi : it.i * A.bufferH ≤ R.mSize)
    (hj : it.j * A.bufferW ≤ R.kSize) :
    zWidthCutoff A R it.j / R.elemSize = min (R.kSize - it.j * A.bufferW) A.bufferW ∧
      zHeightCutoff A R it.i / R.elemSize = min (R.mSize - it.i * A.bufferH) A.bufferH := by
  unfold zWidthCutoff zHeightCutoff
  rw [sized.wByte_eq, sized.hByte_eq, cutoff_eq hj sized.kFits, cutoff_eq hi sized.mFits,
    Nat.mul_div_cancel _ sized.elemSize_pos, Nat.mul_div_cancel _ sized.elemSize_pos]
  exact ⟨rfl, rfl⟩

end

/-! ## Jobs -/

section

variable {Q : Type*} {A : Arch} {s : Machine Q} {r : IoReq}

theorem Sized.regular {R : Regs} {mode : Nat} (sized : Sized A R mode) (x : R.xAddr < 2 ^ 32)
    (y : R.yAddr < 2 ^ 32) : Regular A R where
  rows := sized.depth_pos
  counts := by
    have depth := sized.depth_lt
    have height := sized.height_lt
    omega
  xAddr := x
  yAddr := y

/-- No division of the tiling is by zero. -/
theorem Sized.divisors {R : Regs} {mode : Nat} (sized : Sized A R mode) : ¬ DividesByZero A R := by
  rintro (elem | depth | height | width)
  · exact sized.elemSize_pos.ne' elem
  · exact sized.depth_pos.ne' depth
  · exact sized.height_pos.ne' height
  · exact sized.width_pos.ne' width

/-- A job that a core starts, and what it leaves. -/
theorem start_contents (start : r.offset = 4) (idle : s.fsm.state = .idle)
    (bounded : Bounded s.fsm s.regs s.data) (m : 0 < s.regs.mSize) (n : 0 < s.regs.nSize)
    (k : 0 < s.regs.kSize) (sized : Sized A (configureXWY r s).regs (configureXWY r s).computeAble)
    (latency : Nat → Nat) :
    ∃ e u, coreAccReq A r s = some e ∧ Finishes A latency e.machine u ∧
      (∀ v, Finishes A latency e.machine v → v = u) ∧
      u.contents = s.contents.passes A (configureXWY r s).regs
        (initTiles A (configureXWY r s).regs) (configureXWY r s).computeAble
        ((initTiles A (configureXWY r s).regs).total + 2) := by
  have sizes : ¬ (s.regs.mSize = 0 ∨ s.regs.nSize = 0 ∨ s.regs.kSize = 0) := by omega
  obtain ⟨t, triggered⟩ : ∃ t, trigger A (configureXWY r s) = some t :=
    ⟨_, (if_neg sizes).trans (if_neg sized.divisors)⟩
  have bounded' : Bounded (configureXWY r s).fsm (configureXWY r s).regs
      (configureXWY r s).data :=
    ⟨bounded.fsm, bounded.mSize, bounded.nSize, bounded.kSize, bounded.height⟩
  have regular : Regular A (configureXWY r s).regs :=
    sized.regular (loadLe r.data 0 4).isLt (loadLe r.data 8 4).isLt
  obtain ⟨u, finished, contents⟩ :=
    job_contents bounded' triggered sized.integer.enabled regular latency
  have located := (trigger_located (configureXWY r s).computeAble bounded' triggered).1
  have mode : t.computeAble = (configureXWY r s).computeAble := by
    obtain ⟨-, -, -, rfl⟩ := trigger_eq triggered
    rfl
  refine ⟨⟨t, some 1, .ok⟩, u, ?_, finished, fun v finished' => ?_, contents⟩
  · unfold coreAccReq
    rw [if_neg (by rw [start]; decide), if_pos start, if_pos idle, triggered]
    rfl
  · rw [← mode] at located
    have ran := (finishes_iff latency located).mp finished
    have ran' := (finishes_iff latency located).mp finished'
    exact Option.some.inj (ran'.symm.trans ran)

end

end SoftHier.Redmule
