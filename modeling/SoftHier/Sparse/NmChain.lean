import SoftHier.Lib.Positions
import SoftHier.Lib.Word
import Mathlib.Logic.Function.Basic
import Mathlib.Data.List.Nodup

/-!
# N:M sparse matrices from Python to the vector unit

`extract_nm_sparsity` compresses a matrix to its non-zero values and the index of each in its block,
`write_index_to_header` packs four two-bit indices into a byte, and the instruction
`lib_FWXMULVF` reads them back with `myAbsINDEX` to place the products.

* `extractNmSparsity_eq`: the compressed matrix.
* `myAbsINDEX_packNm2bit`: the index read back.
* `nm_chain`: the elements are placed where they stood.

What a matrix element is does not matter; `nonzero` is the test of `np.nonzero`.
-/

namespace SoftHier.Sparse

variable {α : Type*}

/-- A two-dimensional array. -/
structure DenseMatrix (α : Type*) where
  cols : Nat
  rows : List (List α)
  shape : ∀ row ∈ rows, row.length = cols

/-- `matrix.flatten()` -/
def DenseMatrix.flatten (matrix : DenseMatrix α) : List α := matrix.rows.flatten

/-! ## `flex_libfp8.py` -/

/-- The blocks `matrix[i, j:j+M]` of a row, for `j` in `range(0, cols, M)`. -/
def rowBlocks (M cols : Nat) (row : List α) : List (List α) :=
  (List.range (cols / M)).map fun b => (row.drop (b * M)).take M

/-- The body of the loops of `extract_nm_sparsity`: the non-zero values of a block and their
indices. -/
def extractBlock (nonzero : α → Bool) (N : Nat) (block : List α) : Option (List α × List Nat) :=
  let nzIndices := positions nonzero block
  let nzValues := nzIndices.filterMap (block[·]?)
  if nzIndices.length = N then some (nzValues, nzIndices.map u8) else none

/-- `extract_nm_sparsity(matrix, N, M)`; `none` is a failed assertion. -/
def extractNmSparsity (nonzero : α → Bool) (matrix : DenseMatrix α) (N M : Nat) :
    Option (List α × List (List Nat)) :=
  if matrix.cols % M = 0 then
    (matrix.rows.mapM fun row => (rowBlocks M matrix.cols row).mapM (extractBlock nonzero N)).map
      fun rows =>
        let compactVals := rows.flatMap fun row => row.flatMap Prod.fst
        let indexMatrix := rows.map fun row => row.flatMap Prod.snd
        (compactVals, indexMatrix)
  else none

/-- Four two-bit indices in a byte. -/
def packByte (flat : List Nat) (i : Nat) : Nat :=
  let b0 := flat.getD i 0 &&& 0x03
  let b1 := flat.getD (i + 1) 0 &&& 0x03
  let b2 := flat.getD (i + 2) 0 &&& 0x03
  let b3 := flat.getD (i + 3) 0 &&& 0x03
  (b3 <<< 6) ||| (b2 <<< 4) ||| (b1 <<< 2) ||| b0

/-- The bytes that `write_index_to_header` writes for the format `nm2bit`, for `i` in
`range(0, len(flat), 4)`; `none` is a failed assertion. -/
def packNm2bit (flat : List Nat) : Option (List Nat) :=
  if flat.length % 4 = 0 then
    some ((List.range (flat.length / 4)).map fun k => packByte flat (k * 4))
  else none

/-! ## The vector instruction -/

/-- `myAbsINDEX(size, vs, i, data)`: the new `*data`. -/
def myAbsINDEX (size : Nat) (vs : Nat → Nat) (i : Nat) (data : Nat) : Nat :=
  let numIdxPerByte := 8 / size
  let byteOffset := i / numIdxPerByte
  let indexOffset := i % numIdxPerByte * size
  if ¬ (size = 1 ∨ size = 2 ∨ size = 4) then data
  else (vs byteOffset >>> indexOffset) &&& ((1 <<< size) - 1)

/-- `INDEX_BITS` -/
def indexBits : Nat := 2

/-- `SP_N` -/
def spN : Nat := 2

/-- `SP_M` -/
def spM : Nat := 4

/-- The element that `lib_FWXMULVF` writes for element `i`: `block_idx + index`. -/
def destination (vs1 : Nat → Nat) (i : Nat) : Nat :=
  let index := myAbsINDEX indexBits vs1 i 0
  let blockIdx := i / spN * spM
  blockIdx + index

/-- `lib_FWXMULVF`, unmasked and with `VSTART` 0: `mul` is the product with the scalar. -/
def libFWXMULVF {γ : Type*} (mul : α → γ) (vl : Nat) (vs2 : Nat → α) (vs1 : Nat → Nat)
    (vd : Nat → γ) : Nat → γ :=
  (List.range vl).foldl (fun vd i => Function.update vd (destination vs1 i) (mul (vs2 i))) vd

/-! ## Compression -/

/-- A row of `k` blocks in one piece. -/
theorem flatten_blocks (M : Nat) : ∀ (k : Nat) (row : List α), row.length = k * M →
    ((List.range k).map fun b => (row.drop (b * M)).take M).flatten = row := by
  intro k
  induction k with
  | zero =>
      intro row len
      rw [Nat.zero_mul] at len
      rw [List.length_eq_zero_iff.mp len]
      rfl
  | succ k ih =>
      intro row len
      have rest : (row.drop M).length = k * M := by
        rw [List.length_drop, len, Nat.succ_mul]
        omega
      have shifted : (List.range k).map (fun b => (row.drop ((b + 1) * M)).take M) =
          (List.range k).map fun b => ((row.drop M).drop (b * M)).take M := by
        apply List.map_congr_left
        intro b _
        rw [List.drop_drop, Nat.succ_mul, Nat.add_comm]
      rw [List.range_succ_eq_map, List.map_cons, List.map_map, List.flatten_cons, Nat.zero_mul,
        List.drop_zero]
      have tail := ih (row.drop M) rest
      rw [← shifted] at tail
      exact (congrArg (row.take M ++ ·) tail).trans (List.take_append_drop M row)

theorem flatten_rowBlocks {M cols : Nat} {row : List α} (whole : cols % M = 0)
    (len : row.length = cols) : (rowBlocks M cols row).flatten = row := by
  apply flatten_blocks
  rw [len, Nat.div_mul_cancel (Nat.dvd_of_mod_eq_zero whole)]

theorem length_of_mem_rowBlocks {M cols : Nat} {row block : List α} (len : row.length = cols)
    (mem : block ∈ rowBlocks M cols row) : block.length = M := by
  obtain ⟨b, hb, rfl⟩ := List.mem_map.mp mem
  have inside : (b + 1) * M ≤ cols := Nat.le_trans
    (Nat.mul_le_mul_right M (List.mem_range.mp hb)) (Nat.div_mul_le_self cols M)
  rw [Nat.succ_mul] at inside
  rw [List.length_take, List.length_drop, len]
  omega

/-- Every aligned block of `M` columns has exactly `N` non-zero entries. -/
def NmSparse (nonzero : α → Bool) (matrix : DenseMatrix α) (N M : Nat) : Prop :=
  ∀ row ∈ matrix.rows, ∀ b < matrix.cols / M,
    ((row.drop (b * M)).take M).countP nonzero = N

/-- All blocks of a matrix. -/
def blocks (matrix : DenseMatrix α) (M : Nat) : List (List α) :=
  matrix.rows.flatMap (rowBlocks M matrix.cols)

theorem flatten_blocks_eq {matrix : DenseMatrix α} {M : Nat} (whole : matrix.cols % M = 0) :
    (blocks matrix M).flatten = matrix.flatten := by
  have rows : matrix.rows.map (fun row => (rowBlocks M matrix.cols row).flatten) = matrix.rows := by
    conv_rhs => rw [← List.map_id matrix.rows]
    exact List.map_congr_left fun row hrow => flatten_rowBlocks whole (matrix.shape row hrow)
  unfold blocks DenseMatrix.flatten
  rw [List.flatMap_def, List.flatten_flatten, List.map_map]
  exact congrArg List.flatten rows

/-- A loop that does not fail. -/
theorem mapM_some {β γ : Type*} {f : β → Option γ} {g : β → γ} :
    ∀ xs : List β, (∀ x ∈ xs, f x = some (g x)) → xs.mapM f = some (xs.map g)
  | [], _ => rfl
  | x :: xs, all => by
      have rest := mapM_some xs fun y hy => all y (List.mem_cons_of_mem _ hy)
      rw [List.mapM_cons, all x List.mem_cons_self, rest]
      rfl

theorem extractBlock_eq {nonzero : α → Bool} {N : Nat} {block : List α}
    (marks : (block.filter nonzero).length = N) (short : block.length ≤ 2 ^ 8) :
    extractBlock nonzero N block = some (block.filter nonzero, positions nonzero block) := by
  have indices : (positions nonzero block).map u8 = positions nonzero block := by
    conv_rhs => rw [← List.map_id (positions nonzero block)]
    apply List.map_congr_left
    intro k hk
    exact u8_of_lt (Nat.lt_of_lt_of_le (lt_of_mem_positions nonzero hk) short)
  unfold extractBlock
  dsimp only
  rw [if_pos ((length_positions nonzero block).trans marks), filterMap_positions, indices]

/-- The compressed matrix: the non-zero values in row-major order, and the indices of each row. -/
theorem extractNmSparsity_eq {nonzero : α → Bool} {matrix : DenseMatrix α} {N M : Nat}
    (sparse : NmSparse nonzero matrix N M) (whole : matrix.cols % M = 0) (short : M ≤ 2 ^ 8) :
    extractNmSparsity nonzero matrix N M = some (matrix.flatten.filter nonzero,
      matrix.rows.map fun row => (rowBlocks M matrix.cols row).flatMap (positions nonzero)) := by
  have row : ∀ row ∈ matrix.rows,
      (rowBlocks M matrix.cols row).mapM (extractBlock nonzero N) =
        some ((rowBlocks M matrix.cols row).map fun block =>
          (block.filter nonzero, positions nonzero block)) := by
    intro row hrow
    apply mapM_some
    intro block hblock
    have len := length_of_mem_rowBlocks (matrix.shape row hrow) hblock
    apply extractBlock_eq
    · obtain ⟨b, hb, rfl⟩ := List.mem_map.mp hblock
      rw [← List.countP_eq_length_filter]
      exact sparse row hrow b (List.mem_range.mp hb)
    · rw [len]
      exact short
  have values : matrix.flatten.filter nonzero = matrix.rows.flatMap fun row =>
      (rowBlocks M matrix.cols row).flatMap (List.filter nonzero) := by
    rw [← flatten_blocks_eq whole, List.filter_flatten, ← List.flatMap_def]
    exact List.flatMap_assoc
  unfold extractNmSparsity
  rw [if_pos whole, mapM_some matrix.rows row, Option.map_some, values]
  dsimp only
  rw [List.flatMap_map, List.map_map]
  simp only [List.flatMap_map, Function.comp_def]

/-! ## Reading the indices back -/

theorem byte_fields : ∀ b0 < 4, ∀ b1 < 4, ∀ b2 < 4, ∀ b3 < 4,
    (b3 <<< 6 ||| b2 <<< 4 ||| b1 <<< 2 ||| b0) &&& 3 = b0 ∧
      ((b3 <<< 6 ||| b2 <<< 4 ||| b1 <<< 2 ||| b0) >>> 2) &&& 3 = b1 ∧
      ((b3 <<< 6 ||| b2 <<< 4 ||| b1 <<< 2 ||| b0) >>> 4) &&& 3 = b2 ∧
      ((b3 <<< 6 ||| b2 <<< 4 ||| b1 <<< 2 ||| b0) >>> 6) &&& 3 = b3 := by
  decide +kernel

theorem and_three (k : Nat) : k &&& 0x03 = k % 4 := Nat.and_two_pow_sub_one_eq_mod k 2

/-- A field of a packed byte. -/
theorem packByte_field (flat : List Nat) (i : Nat) {r : Nat} (hr : r < 4) :
    (packByte flat i >>> (r * 2)) &&& 3 = flat.getD (i + r) 0 % 4 := by
  have bound : ∀ j, flat.getD j 0 &&& 0x03 < 4 := fun j => Nat.lt_succ_of_le Nat.and_le_right
  obtain ⟨h0, h1, h2, h3⟩ := byte_fields _ (bound i) _ (bound (i + 1)) _ (bound (i + 2)) _
    (bound (i + 3))
  rw [← and_three]
  match r, hr with
  | 0, _ => exact h0
  | 1, _ => exact h1
  | 2, _ => exact h2
  | 3, _ => exact h3

/-- The index read back is the one packed. -/
theorem myAbsINDEX_packNm2bit {flat packed : List Nat} (packs : packNm2bit flat = some packed)
    (small : ∀ k ∈ flat, k < 4) {i : Nat} (hi : i < flat.length) :
    myAbsINDEX indexBits (packed.getD · 0) i 0 = flat[i] := by
  unfold packNm2bit at packs
  split at packs
  · obtain rfl := Option.some.inj packs
    have inside : i / 4 < ((List.range (flat.length / 4)).map fun k =>
        packByte flat (k * 4)).length := by
      rw [List.length_map, List.length_range]
      omega
    have byte := List.getD_eq_getElem _ 0 inside
    rw [List.getElem_map, List.getElem_range] at byte
    have place : i / 4 * 4 + i % 4 = i := by omega
    have field := packByte_field flat (i / 4 * 4) (Nat.mod_lt i (by decide))
    rw [← byte, place, List.getD_eq_getElem _ _ hi,
      Nat.mod_eq_of_lt (small _ (List.getElem_mem hi))] at field
    exact field
  · cases packs

/-! ## The chain -/

/-- The loop of the instruction writes each product where it belongs. -/
theorem libFWXMULVF_eq {γ : Type*} (mul : α → γ) (vs2 : Nat → α) (vs1 : Nat → Nat) (vd : Nat → γ)
    {vl : Nat} (apart : ∀ i < vl, ∀ j < i, destination vs1 j ≠ destination vs1 i) :
    (∀ i < vl, libFWXMULVF mul vl vs2 vs1 vd (destination vs1 i) = mul (vs2 i)) ∧
      ∀ k, (∀ i < vl, destination vs1 i ≠ k) → libFWXMULVF mul vl vs2 vs1 vd k = vd k := by
  induction vl with
  | zero => exact ⟨fun _ h => absurd h (Nat.not_lt_zero _), fun _ _ => rfl⟩
  | succ n ih =>
      obtain ⟨written, kept⟩ := ih fun i hi j hj => apart i (Nat.lt_succ_of_lt hi) j hj
      have last : libFWXMULVF mul (n + 1) vs2 vs1 vd =
          Function.update (libFWXMULVF mul n vs2 vs1 vd) (destination vs1 n) (mul (vs2 n)) := by
        unfold libFWXMULVF
        rw [List.range_succ, List.foldl_append]
        rfl
      rw [last]
      constructor
      · intro i hi
        rcases Nat.lt_or_eq_of_le (Nat.le_of_lt_succ hi) with before | rfl
        · rw [Function.update_of_ne (apart n (Nat.lt_succ_self n) i before)]
          exact written i before
        · exact Function.update_self _ _ _
      · intro k away
        rw [Function.update_of_ne (away n (Nat.lt_succ_self n)).symm]
        exact kept k fun i hi => away i (Nat.lt_succ_of_lt hi)

theorem length_flatMap_const {β γ : Type*} {f : β → List γ} {c : Nat} :
    ∀ xs : List β, (∀ x ∈ xs, (f x).length = c) → (xs.flatMap f).length = xs.length * c
  | [], _ => (Nat.zero_mul c).symm
  | x :: xs, all => by
      have rest := length_flatMap_const xs fun y hy => all y (List.mem_cons_of_mem _ hy)
      rw [List.flatMap_cons, List.length_append, all x List.mem_cons_self, rest, List.length_cons,
        Nat.succ_mul, Nat.add_comm]

section

variable {nonzero : α → Bool} {matrix : DenseMatrix α}

theorem length_of_mem_blocks {M : Nat} : ∀ block ∈ blocks matrix M, block.length = M := by
  intro block mem
  obtain ⟨row, hrow, mem⟩ := List.mem_flatMap.mp mem
  exact length_of_mem_rowBlocks (matrix.shape row hrow) mem

theorem NmSparse.marks {N M : Nat} (sparse : NmSparse nonzero matrix N M) :
    ∀ block ∈ blocks matrix M, (block.filter nonzero).length = N := by
  intro block mem
  obtain ⟨row, hrow, mem⟩ := List.mem_flatMap.mp mem
  obtain ⟨b, hb, rfl⟩ := List.mem_map.mp mem
  rw [← List.countP_eq_length_filter]
  exact sparse row hrow b (List.mem_range.mp hb)

/-- The entries of the index matrix. -/
theorem NmSparse.length_indices {N M : Nat} (sparse : NmSparse nonzero matrix N M) :
    ((blocks matrix M).flatMap (positions nonzero)).length =
      matrix.rows.length * (matrix.cols / M * N) := by
  have perBlock : ∀ block ∈ blocks matrix M, (positions nonzero block).length = N := by
    intro block mem
    rw [length_positions]
    exact sparse.marks block mem
  have perRow : ∀ row ∈ matrix.rows, (rowBlocks M matrix.cols row).length = matrix.cols / M := by
    intro row _
    rw [rowBlocks, List.length_map, List.length_range]
  rw [length_flatMap_const _ perBlock, blocks, length_flatMap_const _ perRow, Nat.mul_assoc]

/-- Where the elements go, from what the index register holds. -/
theorem NmSparse.destinations (sparse : NmSparse nonzero matrix 2 4)
    (columns : matrix.cols % 4 = 0) {packed : List Nat}
    (packs : packNm2bit ((blocks matrix 4).flatMap (positions nonzero)) = some packed) :
    (List.range (matrix.flatten.filter nonzero).length).map (destination (packed.getD · 0)) =
      positions nonzero matrix.flatten := by
  have small : ∀ k ∈ (blocks matrix 4).flatMap (positions nonzero), k < 4 := by
    intro k hk
    obtain ⟨block, mem, hk⟩ := List.mem_flatMap.mp hk
    rw [← length_of_mem_blocks block mem]
    exact lt_of_mem_positions nonzero hk
  have places := positions_flatten nonzero (show 0 < 2 by decide) (blocks matrix 4)
    length_of_mem_blocks sparse.marks
  rw [flatten_blocks_eq columns] at places
  have count : (matrix.flatten.filter nonzero).length =
      ((blocks matrix 4).flatMap (positions nonzero)).length := by
    rw [← length_positions, places, List.length_mapIdx]
  rw [places]
  apply List.ext_getElem
  · rw [List.length_map, List.length_range, List.length_mapIdx, count]
  · intro i _ hi
    rw [List.length_mapIdx] at hi
    rw [List.getElem_map, List.getElem_range, List.getElem_mapIdx,
      ← myAbsINDEX_packNm2bit packs small hi]
    rfl

end

/-- From the matrix in Python to the destination register: for a matrix with two non-zero entries
in every block of four columns the compact elements are placed at the positions of the non-zero
entries of the flattened matrix, in order, each value at its own position. -/
theorem nm_chain {γ : Type*} (nonzero : α → Bool) (matrix : DenseMatrix α)
    (sparse : NmSparse nonzero matrix 2 4) (columns : matrix.cols % 4 = 0)
    (entries : matrix.rows.length * (matrix.cols / 4 * 2) % 4 = 0) :
    ∃ compactVals indexMatrix packed,
      extractNmSparsity nonzero matrix 2 4 = some (compactVals, indexMatrix) ∧
      packNm2bit indexMatrix.flatten = some packed ∧
      (List.range compactVals.length).map (destination (packed.getD · 0)) =
        positions nonzero matrix.flatten ∧
      ((List.range compactVals.length).map (destination (packed.getD · 0))).Nodup ∧
      (∀ i < compactVals.length,
        matrix.flatten[destination (packed.getD · 0) i]? = compactVals[i]?) ∧
      ∀ (mul : α → γ) (vs2 : Nat → α) (vd : Nat → γ),
        (∀ i < compactVals.length, compactVals[i]? = some (vs2 i)) →
        ∀ k, libFWXMULVF mul compactVals.length vs2 (packed.getD · 0) vd k =
          match matrix.flatten[k]? with
          | some x => if nonzero x then mul x else vd k
          | none => vd k := by
  obtain ⟨idx, hidx⟩ : ∃ idx, idx = (blocks matrix 4).flatMap (positions nonzero) := ⟨_, rfl⟩
  obtain ⟨packed, packs⟩ : ∃ packed, packNm2bit idx = some packed := by
    unfold packNm2bit
    rw [hidx, sparse.length_indices, if_pos entries]
    exact ⟨_, rfl⟩
  have index : (matrix.rows.map fun row =>
      (rowBlocks 4 matrix.cols row).flatMap (positions nonzero)).flatten = idx := by
    rw [← List.flatMap_def, hidx, blocks, List.flatMap_assoc]
  have places := sparse.destinations columns (hidx ▸ packs)
  have distinct : ((List.range (matrix.flatten.filter nonzero).length).map
      (destination (packed.getD · 0))).Nodup := by
    rw [places]
    exact (positions_pairwise nonzero matrix.flatten).imp Nat.ne_of_lt
  have values : ∀ i < (matrix.flatten.filter nonzero).length,
      matrix.flatten[destination (packed.getD · 0) i]? = (matrix.flatten.filter nonzero)[i]? := by
    intro i hi
    have all := map_getElem_positions nonzero matrix.flatten
    rw [← places, List.map_map] at all
    have at_i := congrArg (·[i]?) all
    simpa [List.getElem?_map, List.getElem?_range hi, List.getElem?_eq_getElem hi] using at_i
  refine ⟨_, _, packed, extractNmSparsity_eq sparse columns (by decide), index ▸ packs, places,
    distinct, values, fun mul vs2 vd held k => ?_⟩
  have apart : ∀ i < (matrix.flatten.filter nonzero).length, ∀ j < i,
      destination (packed.getD · 0) j ≠ destination (packed.getD · 0) i := by
    intro i hi j hj same
    have injective := List.inj_on_of_nodup_map distinct
    have equal := injective (List.mem_range.mpr (Nat.lt_trans hj hi)) (List.mem_range.mpr hi) same
    exact absurd equal (Nat.ne_of_lt hj)
  obtain ⟨written, kept⟩ := libFWXMULVF_eq mul vs2 (packed.getD · 0) vd apart
  by_cases target : k ∈ positions nonzero matrix.flatten
  · obtain ⟨x, hx, marked⟩ := (mem_positions nonzero).mp target
    rw [← places] at target
    obtain ⟨i, hi, rfl⟩ := List.mem_map.mp target
    have hi := List.mem_range.mp hi
    have here := (values i hi).symm.trans hx
    rw [held i hi] at here
    rw [written i hi, hx, Option.some.inj here]
    exact (if_pos marked).symm
  · have away : ∀ i < (matrix.flatten.filter nonzero).length,
        destination (packed.getD · 0) i ≠ k := by
      rintro i hi rfl
      rw [← places] at target
      exact target (List.mem_map_of_mem (List.mem_range.mpr hi))
    rw [kept k away]
    cases entry : matrix.flatten[k]? with
    | none => rfl
    | some x =>
        have zero : nonzero x ≠ true := fun marked =>
          target ((mem_positions nonzero).mpr ⟨x, entry, marked⟩)
        exact (if_neg zero).symm

/-- Two rows of one block. -/
def twoBlocks : DenseMatrix Nat where
  cols := 4
  rows := [[0, 5, 0, 7], [1, 2, 0, 0]]
  shape := by decide

theorem nm_chain_twoBlocks :
    ∃ compactVals indexMatrix packed,
      extractNmSparsity (· ≠ 0) twoBlocks 2 4 = some (compactVals, indexMatrix) ∧
      packNm2bit indexMatrix.flatten = some packed ∧
      (List.range compactVals.length).map (destination (packed.getD · 0)) = [1, 3, 4, 5] := by
  have sparse : NmSparse (· ≠ 0) twoBlocks 2 4 := by
    unfold NmSparse
    decide
  obtain ⟨compactVals, indexMatrix, packed, extracted, packs, places, -⟩ :=
    @nm_chain Nat Nat (· ≠ 0) twoBlocks sparse (by decide) (by decide)
  exact ⟨compactVals, indexMatrix, packed, extracted, packs, places⟩

end SoftHier.Sparse
