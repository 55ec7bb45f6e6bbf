import Mathlib.Algebra.BigOperators.Fin
import Mathlib.Data.Matrix.Mul
import SoftHier.Redmule.Leftovers
import SoftHier.Redmule.Stores

/-!
# The product of a job

A job adds to each tile of Y the products of the tiles of X and W, one in each iteration, and
stores the sums.

* `partialSum`: an element after the first terms of its sum.
* `Accumulated`: the buffers and the TCDM before an iteration.
* `accumulated_succ`, `passes_accumulated`: an iteration, and all of them.
* `matmul_job`: a job leaves Y + X W in the place of Y.
-/

namespace SoftHier.Redmule

/-! ## Matrices -/

/-- The matrices do not wrap, Z is in the place of Y, and apart from X and W. -/
structure Placed (R : Regs) : Prop where
  xFits : R.xAddr + R.mSize * R.nSize * R.elemSize ≤ 2 ^ 32
  wFits : R.wAddr + R.nSize * R.kSize * R.elemSize ≤ 2 ^ 32
  yFits : R.yAddr + R.mSize * R.kSize * R.elemSize ≤ 2 ^ 32
  zAddr : R.zAddr = R.yAddr
  xApart : R.xAddr + R.mSize * R.nSize * R.elemSize ≤ R.yAddr ∨
    R.yAddr + R.mSize * R.kSize * R.elemSize ≤ R.xAddr
  wApart : R.wAddr + R.nSize * R.kSize * R.elemSize ≤ R.yAddr ∨
    R.yAddr + R.mSize * R.kSize * R.elemSize ≤ R.wAddr

section

variable (R : Regs) (mem : Buffer)

/-- An element of X. -/
def xAt (i n : Nat) : BitVec (8 * R.elemSize) := entry R.elemSize mem R.xAddr R.nSize i n

/-- An element of W. -/
def wAt (n j : Nat) : BitVec (8 * R.elemSize) := entry R.elemSize mem R.wAddr R.kSize n j

/-- An element of Y. -/
def yAt (i j : Nat) : BitVec (8 * R.elemSize) := entry R.elemSize mem R.yAddr R.kSize i j

/-- An element of the sum after `n` terms, of which those beyond the matrices are zero. -/
def partialSum (i j n : Nat) : BitVec (8 * R.elemSize) :=
  yAt R mem i j + ∑ l ∈ Finset.range n, if l < R.nSize then xAt R mem i l * wAt R mem l j else 0

theorem partialSum_zero (i j : Nat) : partialSum R mem i j 0 = yAt R mem i j := by
  unfold partialSum
  rw [Finset.sum_range_zero, add_zero]

theorem partialSum_add (i j n m : Nat) :
    partialSum R mem i j (n + m) = partialSum R mem i j n + ∑ l ∈ Finset.range m,
      if n + l < R.nSize then xAt R mem i (n + l) * wAt R mem (n + l) j else 0 := by
  unfold partialSum
  rw [Finset.sum_range_add, add_assoc]

/-- The sum is complete after all terms of the matrices. -/
theorem partialSum_full {i j n : Nat} (full : R.nSize ≤ n) :
    partialSum R mem i j n = partialSum R mem i j R.nSize := by
  obtain ⟨m, rfl⟩ := Nat.exists_eq_add_of_le full
  rw [partialSum_add, Finset.sum_eq_zero, add_zero]
  intro l _
  exact if_neg (Nat.not_lt.mpr (Nat.le_add_right _ _))

theorem partialSum_nSize (i j : Nat) : partialSum R mem i j R.nSize =
    yAt R mem i j + ∑ l ∈ Finset.range R.nSize, xAt R mem i l * wAt R mem l j := by
  unfold partialSum
  congr 1
  exact Finset.sum_congr rfl fun l less => if_pos (Finset.mem_range.mp less)

end

/-! ## Tiles of matrices -/

section

variable {A : Arch} {R : Regs} {mode : Nat} {mem₀ mem : Buffer} {it : Iter}

/-- A row of a tile, if the tiles are not folded. -/
theorem rowAt_unfolded (unfolded : A.foldTilesMapping = false)
    {base stride tileCol tileRow i j r : Nat}
    (small : base + ((i * tileCol + r) * stride + j * tileRow) * R.elemSize < 2 ^ 32) :
    rowAt (calculateTileBaseAddress A R base stride tileCol tileRow i j)
      (rowStep A R stride tileRow) r =
      base + ((i * tileCol + r) * stride + j * tileRow) * R.elemSize := by
  rw [rowAt_tile]
  unfold tileOffset
  rw [unfolded, if_neg Bool.false_ne_true]
  exact u32_of_lt small

/-- An element of a tile is one of the matrix. -/
theorem entry_of_tile (sized : Sized A R mode) (unfolded : A.foldTilesMapping = false)
    {base rows stride tileCol tileRow i j r c : Nat}
    (fits : base + rows * stride * R.elemSize ≤ 2 ^ 32) (hr : i * tileCol + r < rows)
    (hc : j * tileRow + c < stride) :
    loadLe mem (rowAt (calculateTileBaseAddress A R base stride tileCol tileRow i j)
        (rowStep A R stride tileRow) r + c * R.elemSize) R.elemSize =
      entry R.elemSize mem base stride (i * tileCol + r) (j * tileRow + c) := by
  have inside := place_le R.elemSize hr hc
  have pos := sized.elemSize_pos
  have sum : ((i * tileCol + r) * stride + (j * tileRow + c) + 1) * R.elemSize =
      ((i * tileCol + r) * stride + j * tileRow) * R.elemSize + c * R.elemSize + R.elemSize := by
        ring
  rw [← Nat.mul_assoc, sum] at inside
  rw [rowAt_unfolded unfolded (by omega)]
  unfold entry
  congr 1
  ring

/-- The memory outside of Y. -/
def Framed (R : Regs) (mem₀ mem : Buffer) : Prop :=
  ∀ a, a < R.yAddr ∨ R.yAddr + R.mSize * R.kSize * R.elemSize ≤ a → mem a = mem₀ a

theorem xAt_framed (placed : Placed R) (framed : Framed R mem₀ mem) {i n : Nat} (hi : i < R.mSize)
    (hn : n < R.nSize) : xAt R mem i n = xAt R mem₀ i n := by
  have apart := placed.xApart
  apply entry_congr hi hn
  intro a first last
  exact framed a (by omega)

theorem wAt_framed (placed : Placed R) (framed : Framed R mem₀ mem) {n j : Nat} (hn : n < R.nSize)
    (hj : j < R.kSize) : wAt R mem n j = wAt R mem₀ n j := by
  have apart := placed.wApart
  apply entry_congr hn hj
  intro a first last
  exact framed a (by omega)

/-- The X tile of an iteration, and what was in the buffer beyond the matrix. -/
theorem loadXTile_at (sized : Sized A R mode) (unfolded : A.foldTilesMapping = false)
    (placed : Placed R) (inside : it.Inside (initTiles A R)) (framed : Framed R mem₀ mem)
    {x : Buffer} {r c : Nat} (hr : r < A.bufferH) (hc : c < A.bufferN R.elemSize) :
    elem R.elemSize (loadXTile A R it x mem) (r * A.bufferN R.elemSize + c) =
      if it.i * A.bufferH + r < R.mSize ∧ it.k * A.bufferN R.elemSize + c < R.nSize then
        xAt R mem₀ (it.i * A.bufferH + r) (it.k * A.bufferN R.elemSize + c)
      else elem R.elemSize x (r * A.bufferN R.elemSize + c) := by
  obtain ⟨i, -, k⟩ := inside.le sized
  rw [loadXTile_elem sized (Nat.le_of_lt i) (Nat.le_of_lt k) hc]
  apply ite_congr (propext (by omega))
  · intro within
    rw [entry_of_tile sized unfolded placed.xFits within.1 within.2]
    exact xAt_framed placed framed within.1 within.2
  · exact fun _ => rfl

/-- The W tile of an iteration. -/
theorem loadWTile_at (sized : Sized A R mode) (unfolded : A.foldTilesMapping = false)
    (placed : Placed R) (inside : it.Inside (initTiles A R)) (framed : Framed R mem₀ mem)
    {w : Buffer} {n c : Nat} (hn : n < A.bufferN R.elemSize) (hc : c < A.bufferW) :
    elem R.elemSize (loadWTile A R (initTiles A R) it w mem) (n * A.bufferW + c) =
      if it.k * A.bufferN R.elemSize + n < R.nSize ∧ it.j * A.bufferW + c < R.kSize then
        wAt R mem₀ (it.k * A.bufferN R.elemSize + n) (it.j * A.bufferW + c)
      else elem R.elemSize w (n * A.bufferW + c) := by
  obtain ⟨-, j, k⟩ := inside.le sized
  rw [loadWTile_elem sized (Nat.le_of_lt j) inside.k hc]
  apply ite_congr (propext (by omega))
  · intro within
    rw [entry_of_tile sized unfolded placed.wFits within.1 within.2]
    exact wAt_framed placed framed within.1 within.2
  · exact fun _ => rfl

/-- A Y tile inside of the matrix. -/
theorem loadYTile_at (sized : Sized A R mode) (unfolded : A.foldTilesMapping = false)
    (placed : Placed R) (inside : it.Inside (initTiles A R)) {y : Buffer} {r c : Nat}
    (hr : r < A.bufferH) (hc : c < A.bufferW) (row : it.i * A.bufferH + r < R.mSize)
    (column : it.j * A.bufferW + c < R.kSize) :
    elem R.elemSize (loadYTile A R (it.i, it.j) y mem) (r * A.bufferW + c) =
      yAt R mem (it.i * A.bufferH + r) (it.j * A.bufferW + c) := by
  obtain ⟨i, j, -⟩ := inside.le sized
  rw [loadYTile_elem sized (Nat.le_of_lt i) (Nat.le_of_lt j) hc, if_pos (by dsimp only; omega)]
  exact entry_of_tile sized unfolded placed.yFits row column

end

/-! ## Z tiles -/

/-- A buffer holds the sums of a tile after `n` terms. -/
def HoldsTile (A : Arch) (R : Regs) (mem₀ : Buffer) (t : Nat × Nat) (n : Nat) (z : Buffer) : Prop :=
  ∀ r < A.bufferH, ∀ c < A.bufferW, t.1 * A.bufferH + r < R.mSize → t.2 * A.bufferW + c < R.kSize →
    elem R.elemSize z (r * A.bufferW + c) =
      partialSum R mem₀ (t.1 * A.bufferH + r) (t.2 * A.bufferW + c) n

/-- The sums of the first `q` tiles are stored in the place of Y. -/
structure Stored (A : Arch) (R : Regs) (mem₀ : Buffer) (q : Nat) (mem : Buffer) : Prop where
  framed : Framed R mem₀ mem
  elements : ∀ i < R.mSize, ∀ j < R.kSize, yAt R mem i j =
    if i / A.bufferH * (initTiles A R).zRowTiles + j / A.bufferW < q then
      partialSum R mem₀ i j R.nSize
    else yAt R mem₀ i j

section

variable {A : Arch} {R : Regs} {mode t : Nat} {mem₀ mem z : Buffer}

theorem div_eq_iff_block {a n block : Nat} (pos : 0 < block) :
    a / block = n ↔ n * block ≤ a ∧ a < n * block + block := by
  rw [← Nat.le_div_iff_mul_le pos, ← Nat.succ_mul, ← Nat.div_lt_iff_lt_mul pos]
  omega

theorem div_lt_tileCount {i size block : Nat} (pos : 0 < block) (less : i < size) :
    i / block < tileCount size block := by
  rw [Nat.div_lt_iff_lt_mul pos]
  exact Nat.lt_of_lt_of_le less (le_tileCount_mul pos size)

/-- The tile of an element. -/
theorem tile_iff (sized : Sized A R mode) {i j : Nat} (hj : j < R.kSize) :
    i / A.bufferH * (initTiles A R).zRowTiles + j / A.bufferW = t ↔
      i / A.bufferH = (tileAt (initTiles A R) t).1 ∧
        j / A.bufferW = (tileAt (initTiles A R) t).2 := by
  have column : j / A.bufferW < (initTiles A R).zRowTiles := div_lt_tileCount sized.width_pos hj
  have pos := Nat.zero_lt_of_lt column
  constructor
  · intro same
    have split : j / A.bufferW + (initTiles A R).zRowTiles * (i / A.bufferH) = t := by
      rw [← same, Nat.mul_comm, Nat.add_comm]
    obtain ⟨row, rest⟩ := (Nat.div_mod_unique pos).mpr ⟨split, column⟩
    exact ⟨row.symm, rest.symm⟩
  · intro same
    rw [same.1, same.2]
    exact Nat.div_add_mod' t _

/-- The place of a row of a tile that is stored. -/
theorem rowAt_stored (sized : Sized A R mode) (unfolded : A.foldTilesMapping = false)
    (placed : Placed R) {tile : Nat × Nat} {r : Nat} (hj : tile.2 * A.bufferW < R.kSize)
    (hr : r < min (R.mSize - tile.1 * A.bufferH) A.bufferH) :
    rowAt (calculateTileBaseAddress A R R.zAddr R.kSize A.bufferH A.bufferW tile.1 tile.2)
        (rowStep A R R.kSize A.bufferW) r =
      R.yAddr + ((tile.1 * A.bufferH + r) * R.kSize + tile.2 * A.bufferW) * R.elemSize := by
  have row : tile.1 * A.bufferH + r < R.mSize := by omega
  have inside := place_le R.elemSize row hj
  have pos := sized.elemSize_pos
  have yFits := placed.yFits
  rw [Nat.succ_mul, ← Nat.mul_assoc] at inside
  rw [placed.zAddr]
  exact rowAt_unfolded unfolded (by omega)

/-- The width of a tile that is stored, in bytes. -/
theorem width_stored (sized : Sized A R mode) (n : Nat) :
    u32 (min n A.bufferW * R.elemSize) = min n A.bufferW * R.elemSize := by
  have le := Nat.mul_le_mul_right R.elemSize (Nat.min_le_right n A.bufferW)
  exact u32_of_lt (Nat.lt_of_le_of_lt le (sized.small sized.width_lt))

/-- A tile is stored in the place of Y. -/
theorem storeZTile_framed (sized : Sized A R mode) (unfolded : A.foldTilesMapping = false)
    (placed : Placed R) {tile : Nat × Nat} (hj : tile.2 * A.bufferW < R.kSize) :
    Framed R mem (storeZTile A R tile (min (R.kSize - tile.2 * A.bufferW) A.bufferW,
      min (R.mSize - tile.1 * A.bufferH) A.bufferH) z mem) := by
  intro a outside
  unfold storeZTile
  dsimp only
  rw [width_stored sized]
  apply copyRows_of_outside
  intro r hr
  have row : tile.1 * A.bufferH + r < R.mSize := by omega
  have below : (tile.1 * A.bufferH + r) * R.kSize + tile.2 * A.bufferW +
      min (R.kSize - tile.2 * A.bufferW) A.bufferW ≤ R.mSize * R.kSize := by
    have le := Nat.mul_le_mul_right R.kSize (Nat.succ_le_of_lt row)
    rw [Nat.succ_mul] at le
    omega
  have inside := Nat.mul_le_mul_right R.elemSize below
  rw [Nat.add_mul _ (min _ _)] at inside
  rw [rowAt_stored sized unfolded placed hj hr]
  omega

/-- The elements of a tile that is stored, and the others. -/
theorem storeZTile_entry (sized : Sized A R mode) (unfolded : A.foldTilesMapping = false)
    (placed : Placed R) {tile : Nat × Nat} (hj : tile.2 * A.bufferW < R.kSize) {i j : Nat}
    (rowM : i < R.mSize) (colK : j < R.kSize) :
    yAt R (storeZTile A R tile (min (R.kSize - tile.2 * A.bufferW) A.bufferW,
        min (R.mSize - tile.1 * A.bufferH) A.bufferH) z mem) i j =
      if i / A.bufferH = tile.1 ∧ j / A.bufferW = tile.2 then
        elem R.elemSize z ((i - tile.1 * A.bufferH) * A.bufferW + (j - tile.2 * A.bufferW))
      else yAt R mem i j := by
  have h := sized.height_pos
  have w := sized.width_pos
  have fits : tile.2 * A.bufferW + min (R.kSize - tile.2 * A.bufferW) A.bufferW ≤ R.kSize := by
    omega
  have block := copyRows_block mem z (rowAt 0 (A.bufferWByte R.elemSize)) (i := i)
    (fun r hr => rowAt_stored sized unfolded placed hj hr) fits colK
  unfold storeZTile
  dsimp only
  rw [width_stored sized]
  refine block.trans (ite_congr (propext ?_) (fun inside => ?_) fun _ => rfl)
  · rw [div_eq_iff_block h, div_eq_iff_block w]
    omega
  · rw [div_eq_iff_block h, div_eq_iff_block w] at inside
    rw [sized.rowAt_eq (by omega), ← Nat.mul_assoc, ← Nat.add_mul]
    rfl

/-- One more tile is stored. -/
theorem Stored.next (stored : Stored A R mem₀ t mem) (sized : Sized A R mode)
    (unfolded : A.foldTilesMapping = false) (placed : Placed R) (sound : (initTiles A R).Sound)
    (less : t < (initTiles A R).zColTiles * (initTiles A R).zRowTiles)
    (holds : HoldsTile A R mem₀ (tileAt (initTiles A R) t) R.nSize z) :
    Stored A R mem₀ (t + 1)
      (storeZTile A R (tileAt (initTiles A R) t) (tileSize A R (initTiles A R) t) z mem) := by
  obtain ⟨-, hj, size⟩ := tileSize_eq sized sound less
  rw [size]
  constructor
  · intro a outside
    exact (storeZTile_framed sized unfolded placed hj a outside).trans (stored.framed a outside)
  · intro i rowM j colK
    rw [storeZTile_entry sized unfolded placed hj rowM colK,
      if_congr (tile_iff sized colK).symm rfl rfl]
    split
    · rename_i here
      obtain ⟨row, column⟩ := (tile_iff sized colK).mp here
      rw [div_eq_iff_block sized.height_pos] at row
      rw [div_eq_iff_block sized.width_pos] at column
      obtain ⟨r, rfl⟩ := Nat.exists_eq_add_of_le row.1
      obtain ⟨c, rfl⟩ := Nat.exists_eq_add_of_le column.1
      rw [if_pos (by omega), Nat.add_sub_cancel_left, Nat.add_sub_cancel_left]
      exact holds r (by omega) c (by omega) rowM colK
    · rename_i other
      refine (stored.elements i rowM j colK).trans (if_congr ?_ rfl rfl)
      omega

end

/-! ## Iterations -/

/-- The buffers and the memory before iteration `p`, and after all of them. -/
structure Accumulated (A : Arch) (R : Regs) (mem₀ : Buffer) (p : Nat) (b : Contents) : Prop where
  x : p < (initTiles A R).total → ∀ r < A.bufferH, ∀ c < A.bufferN R.elemSize,
    elem R.elemSize b.x (r * A.bufferN R.elemSize + c) =
      if (iterAt (initTiles A R) p).i * A.bufferH + r < R.mSize ∧
          (iterAt (initTiles A R) p).k * A.bufferN R.elemSize + c < R.nSize then
        xAt R mem₀ ((iterAt (initTiles A R) p).i * A.bufferH + r)
          ((iterAt (initTiles A R) p).k * A.bufferN R.elemSize + c)
      else 0
  w : ∀ n < A.bufferN R.elemSize, ∀ c < A.bufferW, elem R.elemSize b.w (n * A.bufferW + c) = 0
  z : p < (initTiles A R).total →
    HoldsTile A R mem₀ ((iterAt (initTiles A R) p).i, (iterAt (initTiles A R) p).j)
      ((iterAt (initTiles A R) p).k * A.bufferN R.elemSize) b.z
  previous : (initTiles A R).xRowTiles ≤ p →
    b.zStore = tileSize A R (initTiles A R) (p / (initTiles A R).xRowTiles - 1) ∧
      HoldsTile A R mem₀ (tileAt (initTiles A R) (p / (initTiles A R).xRowTiles - 1)) R.nSize
        b.zPrevios
  mem : Stored A R mem₀ ((p - 1) / (initTiles A R).xRowTiles) b.mem

section

variable {A : Arch} {R : Regs} {mode p : Nat} {mem₀ : Buffer} {b : Contents}

theorem pred_div {n : Nat} (pos : 0 < n) :
    (p - 1) / n = if 0 < p ∧ p % n = 0 then p / n - 1 else p / n := by
  have product := Nat.div_add_mod p n
  have rest := Nat.mod_lt p pos
  split
  · rename_i whole
    have some : 1 ≤ p / n :=
      Nat.div_pos (Nat.le_of_dvd whole.1 (Nat.dvd_of_mod_eq_zero whole.2)) pos
    have le := Nat.mul_le_mul_left n some
    have split : n - 1 + n * (p / n - 1) = p - 1 := by
      rw [Nat.mul_sub]
      omega
    exact ((Nat.div_mod_unique pos).mpr ⟨split, Nat.sub_lt pos Nat.one_pos⟩).1
  · rename_i inner
    rcases Nat.eq_zero_or_pos p with rfl | some
    · rfl
    · have split : p % n - 1 + n * (p / n) = p - 1 := by omega
      exact ((Nat.div_mod_unique pos).mpr ⟨split, by omega⟩).1

/-- The iteration after the last one of a tile, and after another one. -/
theorem iterAt_succ (sound : (initTiles A R).Sound) (less : p + 1 < (initTiles A R).total) :
    iterAt (initTiles A R) (p + 1) =
      if (p + 1) % (initTiles A R).xRowTiles = 0 then
        ⟨(iterAt (initTiles A R) (p + 1)).i, (iterAt (initTiles A R) (p + 1)).j, 0⟩
      else ⟨(iterAt (initTiles A R) p).i, (iterAt (initTiles A R) p).j,
        (iterAt (initTiles A R) p).k + 1⟩ := by
  split
  · rename_i whole
    unfold iterAt
    rw [whole]
  · rename_i inner
    have k : (iterAt (initTiles A R) p).k < (initTiles A R).xRowTiles := Nat.mod_lt p sound.xRow_pos
    have small := sound.xRow_lt
    rw [← nextTile_iterAt sound less]
    unfold nextTile
    rw [if_neg ((not_congr (wrapK_iff sound)).mpr inner), u32_of_lt (by omega)]

/-- A tile is stored by the first iteration of the next one. -/
theorem pass_stored (acc : Accumulated A R mem₀ p b) (sized : Sized A R mode)
    (unfolded : A.foldTilesMapping = false) (placed : Placed R) (sound : (initTiles A R).Sound)
    (le : p ≤ (initTiles A R).total) :
    Stored A R mem₀ (p / (initTiles A R).xRowTiles)
      (b.pass A R (initTiles A R) mode (p + 1)).mem := by
  have stored := acc.mem
  have pos := sound.xRow_pos
  rw [pass_mem sound le]
  rw [pred_div pos] at stored
  split
  · rename_i stores
    have multiple := Nat.le_of_dvd stores.1 (Nat.dvd_of_mod_eq_zero stores.2)
    have some := Nat.div_pos multiple pos
    have tiles : p / (initTiles A R).xRowTiles ≤
        (initTiles A R).zColTiles * (initTiles A R).zRowTiles := by
      rw [← Nat.mul_div_cancel (_ * _) pos]
      exact Nat.div_le_div_right le
    obtain ⟨size, holds⟩ := acc.previous multiple
    rw [if_pos stores] at stored
    have next := stored.next sized unfolded placed sound (by omega) holds
    rw [Nat.sub_add_cancel some] at next
    rw [size]
    exact next
  · rename_i none
    rw [if_neg none] at stored
    exact stored

/-- The product of the tiles of X and W is added. -/
theorem iterate_z (acc : Accumulated A R mem₀ p b) (sized : Sized A R mode)
    (unfolded : A.foldTilesMapping = false) (placed : Placed R) (sound : (initTiles A R).Sound)
    (less : p < (initTiles A R).total) :
    HoldsTile A R mem₀ ((iterAt (initTiles A R) p).i, (iterAt (initTiles A R) p).j)
      (((iterAt (initTiles A R) p).k + 1) * A.bufferN R.elemSize)
      (b.iterate A R (initTiles A R) mode (iterAt (initTiles A R) p)).z := by
  obtain ⟨inside, -⟩ := iterAt_inside sound less
  intro r hr c hc row column
  unfold Contents.iterate
  dsimp only at row column ⊢
  have terms := Nat.succ_mul (iterAt (initTiles A R) p).k (A.bufferN R.elemSize)
  rw [compute_elem sized _ _ _ hr hc, acc.z less r hr c hc row column, terms, partialSum_add]
  congr 1
  apply Finset.sum_congr rfl
  intro n mem
  have depth := Finset.mem_range.mp mem
  rw [acc.x less r hr n depth, loadWTile_at sized unfolded placed inside acc.mem.framed depth hc,
    acc.w n depth c hc]
  rcases Nat.lt_or_ge ((iterAt (initTiles A R) p).k * A.bufferN R.elemSize + n) R.nSize with
    loaded | beyond
  · rw [if_pos ⟨row, loaded⟩, if_pos ⟨loaded, column⟩, if_pos loaded]
  · have outside := Nat.not_lt.mpr beyond
    rw [if_neg fun both => outside both.2, if_neg outside, zero_mul]

/-- The X tile of the next iteration is loaded. -/
theorem iterate_x (acc : Accumulated A R mem₀ p b) (sized : Sized A R mode)
    (unfolded : A.foldTilesMapping = false) (placed : Placed R) (sound : (initTiles A R).Sound)
    (less : p + 1 < (initTiles A R).total) {r c : Nat} (hr : r < A.bufferH)
    (hc : c < A.bufferN R.elemSize) :
    elem R.elemSize (b.iterate A R (initTiles A R) mode (iterAt (initTiles A R) p)).x
        (r * A.bufferN R.elemSize + c) =
      if (iterAt (initTiles A R) (p + 1)).i * A.bufferH + r < R.mSize ∧
          (iterAt (initTiles A R) (p + 1)).k * A.bufferN R.elemSize + c < R.nSize then
        xAt R mem₀ ((iterAt (initTiles A R) (p + 1)).i * A.bufferH + r)
          ((iterAt (initTiles A R) (p + 1)).k * A.bufferN R.elemSize + c)
      else 0 := by
  obtain ⟨inside, -⟩ := iterAt_inside sound less
  have more : (!isLastIteration (initTiles A R) (iterAt (initTiles A R) p)) = true := by
    rw [Bool.not_eq_true', ← Bool.not_eq_true, isLastIteration_iff sound (Nat.lt_of_succ_lt less)]
    omega
  unfold Contents.iterate
  dsimp only
  rw [if_pos more, nextTile_iterAt sound less,
    loadXTile_at sized unfolded placed inside acc.mem.framed hr hc, cleared_x sized _ hr hc]

/-- The Y tile of the next iteration is loaded, if that begins a tile. -/
theorem iterate_y (acc : Accumulated A R mem₀ p b) (sized : Sized A R mode)
    (unfolded : A.foldTilesMapping = false) (placed : Placed R) (sound : (initTiles A R).Sound)
    (less : p + 1 < (initTiles A R).total) (last : (p + 1) % (initTiles A R).xRowTiles = 0) :
    HoldsTile A R mem₀ ((iterAt (initTiles A R) (p + 1)).i, (iterAt (initTiles A R) (p + 1)).j) 0
      (b.iterate A R (initTiles A R) mode (iterAt (initTiles A R) p)).y := by
  obtain ⟨inside, -⟩ := iterAt_inside sound less
  have loads : ((iterAt (initTiles A R) p).k == sub32 (initTiles A R).xRowTiles 1 &&
      !isLastIteration (initTiles A R) (iterAt (initTiles A R) p)) = true := by
    rw [Bool.and_eq_true, Bool.not_eq_true', ← Bool.not_eq_true, lastK_iff sound,
      isLastIteration_iff sound (Nat.lt_of_succ_lt less)]
    exact ⟨last, by omega⟩
  intro r hr c hc row column
  unfold Contents.iterate
  dsimp only at row column ⊢
  rw [if_pos loads, nextYTile_iterAt sound less last,
    loadYTile_at sized unfolded placed inside hr hc row column, partialSum_zero,
    acc.mem.elements _ row _ column, if_neg]
  -- the tile that is loaded has not been stored
  have i : ((iterAt (initTiles A R) (p + 1)).i * A.bufferH + r) / A.bufferH =
      (iterAt (initTiles A R) (p + 1)).i := (div_eq_iff_block sized.height_pos).mpr (by omega)
  have j : ((iterAt (initTiles A R) (p + 1)).j * A.bufferW + c) / A.bufferW =
      (iterAt (initTiles A R) (p + 1)).j := (div_eq_iff_block sized.width_pos).mpr (by omega)
  have index := (tile_iff (t := (p + 1) / (initTiles A R).xRowTiles) sized column).mpr ⟨i, j⟩
  have later : (p - 1) / (initTiles A R).xRowTiles ≤ (p + 1) / (initTiles A R).xRowTiles :=
    Nat.div_le_div_right (by omega)
  rw [index]
  exact Nat.not_lt.mpr later

/-- An element of a tile that `INSTR_FORWARD_YZ` moves. -/
theorem HoldsTile.moved {t : Nat × Nat} {n : Nat} {z z' : Buffer} (holds : HoldsTile A R mem₀ t n z)
    (sized : Sized A R mode) :
    HoldsTile A R mem₀ t n (memcpy z' 0 z 0 (A.bufferYZByte R.elemSize)) := by
  intro r hr c hc row column
  have inside : (r * A.bufferW + c + 1) * R.elemSize ≤ A.bufferYZByte R.elemSize := by
    rw [sized.yzByte_eq]
    exact place_le _ hr hc
  exact (memcpy_elem inside).trans (holds r hr c hc row column)

/-- An iteration. -/
theorem accumulated_succ (acc : Accumulated A R mem₀ p b) (sized : Sized A R mode)
    (unfolded : A.foldTilesMapping = false) (placed : Placed R) (sound : (initTiles A R).Sound)
    (less : p < (initTiles A R).total) :
    Accumulated A R mem₀ (p + 1) (b.pass A R (initTiles A R) mode (p + 1)) := by
  have z := iterate_z acc sized unfolded placed sound less
  have pos := sound.xRow_pos
  have stored := pass_stored acc sized unfolded placed sound (Nat.le_of_lt less)
  have mem : Stored A R mem₀ ((p + 1 - 1) / (initTiles A R).xRowTiles)
      (b.pass A R (initTiles A R) mode (p + 1)).mem := stored
  have count := pred_div (p := p + 1) pos
  rw [Nat.add_sub_cancel] at count
  rw [pass_routine less] at mem ⊢
  unfold Contents.routine at mem ⊢
  dsimp only at mem ⊢
  rw [if_congr (wrapK_iff sound) rfl rfl] at mem ⊢
  split at mem
  · rename_i whole
    rw [if_pos ⟨Nat.succ_pos p, whole⟩] at count
    rw [if_pos whole]
    have k : (iterAt (initTiles A R) (p + 1)).k = 0 := whole
    have last := (wrapK_iff sound).mpr whole
    refine ⟨fun less' r hr c hc => iterate_x acc sized unfolded placed sound less' hr hc,
      fun n hn c hc => cleared_w sized _ hn hc, fun less' => ?_, fun _ => ?_, mem⟩
    · rw [k, Nat.zero_mul]
      exact (iterate_y acc sized unfolded placed sound less' whole).moved sized
    · rw [← count]
      have less' : (iterAt (initTiles A R) p).k < (initTiles A R).xRowTiles := Nat.mod_lt p pos
      have small := sound.xRow_lt
      rw [u32_of_lt (by omega)] at last
      have full : R.nSize ≤ ((iterAt (initTiles A R) p).k + 1) * A.bufferN R.elemSize := by
        rw [last]
        exact le_tileCount_mul sized.depth_pos R.nSize
      have complete : HoldsTile A R mem₀ (tileAt (initTiles A R) (p / (initTiles A R).xRowTiles))
          R.nSize (b.iterate A R (initTiles A R) mode (iterAt (initTiles A R) p)).z :=
        fun r hr c hc row column => (z r hr c hc row column).trans (partialSum_full R mem₀ full)
      exact ⟨rfl, complete.moved sized⟩
  · rename_i inner
    rw [if_neg fun both => inner both.2] at count
    rw [if_neg inner]
    refine ⟨fun less' r hr c hc => iterate_x acc sized unfolded placed sound less' hr hc,
      fun n hn c hc => cleared_w sized _ hn hc, fun less' => ?_, fun complete => ?_, mem⟩
    · rw [iterAt_succ sound less', if_neg inner]
      exact z
    · rw [← count]
      apply acc.previous
      rcases Nat.eq_or_lt_of_le complete with one | before
      · rw [← one, Nat.mod_self] at inner
        exact absurd rfl inner
      · exact Nat.le_of_lt_succ before

/-- The first phase. -/
theorem accumulated_zero (sized : Sized A R mode) (unfolded : A.foldTilesMapping = false)
    (placed : Placed R) (sound : (initTiles A R).Sound)
    (x : ∀ i < A.bufferH * A.bandwidth, b.x i = 0) (w : ∀ i < A.bufferW * A.bandwidth, b.w i = 0) :
    Accumulated A R b.mem 0 (b.passes A R (initTiles A R) mode 1) := by
  have inside : Iter.Inside (initTiles A R) ⟨0, 0, 0⟩ :=
    ⟨sound.zCol_pos, sound.zRow_pos, sound.xRow_pos⟩
  have framed : Framed R b.mem b.mem := fun _ _ => rfl
  have first : b.passes A R (initTiles A R) mode 1 = (b.preload A R).forward A R ⟨0, 0, 0⟩ := rfl
  rw [first]
  refine ⟨fun _ r hr c hc => ?_, fun n hn c hc => ?_, fun _ => ?_, fun complete => ?_, framed, ?_⟩
  · have zero : elem R.elemSize b.x (r * A.bufferN R.elemSize + c) = 0 := by
      have place := place_le R.elemSize hr hc
      rw [← sized.bandwidth_eq, Nat.succ_mul] at place
      exact loadLe_zero fun k hk => x _ (by omega)
    rw [iterAt_zero, ← zero]
    exact loadXTile_at sized unfolded placed inside framed hr hc
  · have place := place_le R.elemSize hn hc
    have size : A.bufferN R.elemSize * (A.bufferW * R.elemSize) = A.bufferW * A.bandwidth := by
      rw [sized.bandwidth_eq]
      ring
    rw [size, Nat.succ_mul] at place
    exact loadLe_zero fun k hk => w _ (by omega)
  · rw [iterAt_zero, Nat.zero_mul]
    apply HoldsTile.moved _ sized
    intro r hr c hc row column
    rw [partialSum_zero]
    exact loadYTile_at sized unfolded placed inside hr hc row column
  · exact absurd complete (Nat.not_le_of_gt sound.xRow_pos)
  · intro i hi j hj
    rw [Nat.zero_div, if_neg (Nat.not_lt_zero _)]
    rfl

/-- All iterations. -/
theorem passes_accumulated (sized : Sized A R mode) (unfolded : A.foldTilesMapping = false)
    (placed : Placed R) (sound : (initTiles A R).Sound)
    (x : ∀ i < A.bufferH * A.bandwidth, b.x i = 0) (w : ∀ i < A.bufferW * A.bandwidth, b.w i = 0) :
    ∀ p ≤ (initTiles A R).total,
      Accumulated A R b.mem p (b.passes A R (initTiles A R) mode (p + 1)) := by
  intro p
  induction p with
  | zero => exact fun _ => accumulated_zero sized unfolded placed sound x w
  | succ p ih =>
    intro less
    exact accumulated_succ (ih (Nat.le_of_succ_le less)) sized unfolded placed sound less

/-- The sums are stored in the place of Y. -/
theorem passes_stored (sized : Sized A R mode) (unfolded : A.foldTilesMapping = false)
    (placed : Placed R) (sound : (initTiles A R).Sound)
    (x : ∀ i < A.bufferH * A.bandwidth, b.x i = 0) (w : ∀ i < A.bufferW * A.bandwidth, b.w i = 0) :
    Stored A R b.mem ((initTiles A R).zColTiles * (initTiles A R).zRowTiles)
      (b.passes A R (initTiles A R) mode ((initTiles A R).total + 2)).mem := by
  have acc := passes_accumulated sized unfolded placed sound x w _ (Nat.le_refl _)
  have stored := pass_stored acc sized unfolded placed sound (Nat.le_refl _)
  have tiles : (initTiles A R).total / (initTiles A R).xRowTiles =
      (initTiles A R).zColTiles * (initTiles A R).zRowTiles := Nat.mul_div_cancel _ sound.xRow_pos
  rw [tiles] at stored
  exact stored

end

/-! ## Jobs -/

/-- A matrix in memory, row by row. -/
def matrixAt (elemSize : Nat) (mem : Buffer) (base rows cols : Nat) :
    Matrix (Fin rows) (Fin cols) (BitVec (8 * elemSize)) :=
      fun i j => entry elemSize mem base cols i j

section

variable {Q : Type*} {A : Arch} {s : Machine Q} {r : IoReq}

/-- A job in an integer mode that finds the buffers of X and W clear leaves Y + X W in the place of
Y, modulo the width of the elements, and every other byte as it was. -/
theorem matmul_job {R : Regs} (start : r.offset = 4) (idle : s.fsm.state = .idle)
    (bounded : Bounded s.fsm s.regs s.data) (regs : (configureXWY r s).regs = R) (m : 0 < R.mSize)
    (n : 0 < R.nSize) (k : 0 < R.kSize) (sized : Sized A R (configureXWY r s).computeAble)
    (unfolded : A.foldTilesMapping = false) (placed : Placed R)
    (x : ∀ i < A.bufferH * A.bandwidth, s.data.xBuffer i = 0)
    (w : ∀ i < A.bufferW * A.bandwidth, s.data.wBuffer i = 0) (latency : Nat → Nat) :
    ∃ e u, coreAccReq A r s = some e ∧ Finishes A latency e.machine u ∧
      matrixAt R.elemSize u.mem R.zAddr R.mSize R.kSize =
        matrixAt R.elemSize s.mem R.yAddr R.mSize R.kSize +
          matrixAt R.elemSize s.mem R.xAddr R.mSize R.nSize *
            matrixAt R.elemSize s.mem R.wAddr R.nSize R.kSize ∧
      ∀ a, a < R.zAddr ∨ R.zAddr + R.mSize * R.kSize * R.elemSize ≤ a → u.mem a = s.mem a := by
  subst regs
  obtain ⟨e, u, started, finished, -, contents⟩ :=
    start_contents start idle bounded m n k sized latency
  have sound := initTiles_sound sized m n k
  have stored := passes_stored (b := s.contents) sized unfolded placed sound x w
  rw [← contents] at stored
  refine ⟨e, u, started, finished, ?_, ?_⟩
  · apply Matrix.ext
    intro i j
    have tile : (i : Nat) / A.bufferH * (initTiles A (configureXWY r s).regs).zRowTiles +
        (j : Nat) / A.bufferW < (initTiles A (configureXWY r s).regs).zColTiles *
          (initTiles A (configureXWY r s).regs).zRowTiles := by
      have row : (i : Nat) / A.bufferH < (initTiles A (configureXWY r s).regs).zColTiles :=
        div_lt_tileCount sized.height_pos i.isLt
      have column : (j : Nat) / A.bufferW < (initTiles A (configureXWY r s).regs).zRowTiles :=
        div_lt_tileCount sized.width_pos j.isLt
      have le := Nat.mul_le_mul_right (initTiles A (configureXWY r s).regs).zRowTiles
        (Nat.succ_le_of_lt row)
      rw [Nat.succ_mul] at le
      omega
    have sum := stored.elements i i.isLt j j.isLt
    rw [if_pos tile, partialSum_nSize, Finset.sum_range] at sum
    rw [Matrix.add_apply, Matrix.mul_apply]
    unfold matrixAt
    rw [placed.zAddr]
    exact sum
  · rw [placed.zAddr]
    exact stored.framed

end

/-- A TCDM that holds its addresses, before a job on matrices of four rows and columns. -/
def addressMachine : Machine Unit := { tinySystem.machine with mem := fun a => BitVec.ofNat 8 a }

/-- The request of a core that starts a job in mode 1, with X at 0, W at 32 and Y at 64. -/
def startFour : IoReq :=
  ⟨4, true, fun i => if i = 4 then 32 else if i = 8 then 64 else if i = 12 then 1 else 0⟩

theorem matmul_job_addressMachine : ∃ e u, coreAccReq tinyArch startFour addressMachine = some e ∧
    Finishes tinyArch (fun n => n) e.machine u ∧
    matrixAt 2 u.mem 64 4 4 = matrixAt 2 addressMachine.mem 64 4 4 +
      matrixAt 2 addressMachine.mem 0 4 4 * matrixAt 2 addressMachine.mem 32 4 4 ∧
    ∀ a, a < 64 ∨ 64 + 4 * 4 * 2 ≤ a → u.mem a = addressMachine.mem a := by
  have sound : tinySystem.machine.Sound := initial_sound.machine
  have sized : Sized tinyArch (configureXWY startFour addressMachine).regs
      (configureXWY startFour addressMachine).computeAble := by
    constructor <;> decide
  have placed : Placed (configureXWY startFour addressMachine).regs := by
    constructor <;> decide
  exact matmul_job (s := addressMachine) rfl rfl sound.bounded rfl (by decide) (by decide)
    (by decide) sized rfl placed (fun _ _ => rfl) (fun _ _ => rfl) fun n => n

end SoftHier.Redmule
