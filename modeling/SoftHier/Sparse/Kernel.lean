import SoftHier.Sparse.NmChain
import SoftHier.Spatz.Matmul

/-!
# The sparse matrix product on the vector unit

`spatz_AspB_matmul_wxfp16` multiplies with a matrix `B` of the format 2:4, of which the memory
holds the compressed rows and the packed indices.  `vfwxmul.vf` and `vfwxmacc.vf` read the indices
to place the products among the sums of a row.

* `NmSparse.row_destinations`: the indices of a row lead to its entries.
* `sparseRow_step`: a row of `B` is accumulated where its entries are not zero.
* `sparse_product`: the kernel computes the product of `A` and the matrix that was compressed.
-/

namespace SoftHier.Sparse

open Spatz

/-! ## The kernel -/

/-- The arguments of the kernel. -/
structure AspBArgs extends MatmulArgs where
  indexB : BitVec 64
  spN : Nat
  spM : Nat

/-- `IDX_PER_BYTE` -/
def idxPerByte : Nat := 4

section

variable (V : Vlsu) (data : Buffer) (F : Flexfloat)

/-- The element that `lib_FWXMULVF` and `lib_FWXMACCVF` write for element `i`. -/
def indexed (vs1 : Nat) (regs : Buffer) (i : Nat) : Nat :=
  destination (fun k => (regs (vs1 * V.vlenb + k)).toNat) i

/-- `vfwxmul.vf` -/
def vfwxmul (s : Core) (vl vd vs1 vs2 : Nat) (rs1 : BitVec 32) : Core where
  regs := vectorLoop (fun x _ => F.mul (rs1.setWidth 8) x) (indexed V vs1) (vs2 * V.vlenb)
    (vd * V.vlenb) vl s.regs
  mem := s.mem

/-- `vfwxmacc.vf` -/
def vfwxmacc (s : Core) (vl vd vs1 vs2 : Nat) (rs1 : BitVec 32) : Core where
  regs := vectorLoop (F.macc (rs1.setWidth 8)) (indexed V vs1) (vs2 * V.vlenb) (vd * V.vlenb) vl
    s.regs
  mem := s.mem

variable (A : AspBArgs)

/-- The body of the loop over `n`. -/
def sparsePass (avl vl p m n : Nat) (s : Core) : Core :=
  let fa := s.flw (byteAt A.matrixA (u32 (u32 (m * A.N) + n)))
  let offset := u32 (p + u32 (u32 (n * A.P) * A.spN) / A.spM)
  let s := s.vle8 V data vl (byteAt A.matrixB offset) 0
  let s := s.vle8 V data vl (byteAt A.indexB (offset / idxPerByte)) 8
  if n = 0 then
    vfwxmul V F (s.vmvZero V (2 * vsetvli (4 * V.vlenb) (u32 (2 * avl))) 16) vl 16 8 0 fa
  else vfwxmacc V F s vl 16 8 0 fa

/-- The loop over `n` for a row. -/
def sparseRow (avl vl p m : Nat) (s : Core) : Core :=
  (List.range A.N).foldl (fun s n => sparsePass V data F A avl vl p m n s) s

/-- The body of the loop over the strips. -/
def sparseStrip (avl vl p : Nat) (s : Core) : Core :=
  (List.range A.M).foldl (fun s m =>
    let pC := byteAt A.matrixC (2 * u32 (m * A.P) + 2 * p)
    (sparseRow V data F A avl vl p m s).vse16 V data
      (vsetvli (8 * V.vlenb) (u32 (avl * 2))) pC 16) s

/-- `spatz_AspB_matmul_wxfp16` -/
def spatzAspBMatmulWxfp16 (fuel : Nat) (s : Core) : Option Core :=
  stripMine (8 * V.vlenb) (sparseStrip V data F A) fuel (u32 (A.P * A.spN) / A.spM) 0 s

end

/-! ## The rows of the compressed matrix -/

/-- The pieces of a flattened list. -/
theorem getElem?_flatMap_const {β γ : Type*} {f : β → List γ} {c i : Nat} (hi : i < c) :
    ∀ (xs : List β) (n : Nat), (∀ x ∈ xs, (f x).length = c) →
      (xs.flatMap f)[n * c + i]? = xs[n]?.bind fun x => (f x)[i]?
  | [], _, _ => rfl
  | x :: xs, n, all => by
      have length := all x List.mem_cons_self
      rw [List.flatMap_cons]
      match n with
      | 0 =>
          rw [Nat.zero_mul, Nat.zero_add, List.getElem?_append_left (by omega)]
          rfl
      | n + 1 =>
          have rest := getElem?_flatMap_const hi xs n fun y hy => all y (List.mem_cons_of_mem _ hy)
          have place : (n + 1) * c + i - (f x).length = n * c + i := by
            rw [length, Nat.succ_mul]
            omega
          rw [List.getElem?_append_right (by rw [length, Nat.succ_mul]; omega), place, rest]
          rfl

/-- The indices from a byte on. -/
theorem destination_shift (vs : Nat → Nat) {k i : Nat} :
    destination (fun r => vs (k + r)) i =
      i / spN * spM + myAbsINDEX indexBits vs (4 * k + i) 0 := by
  have byte : (4 * k + i) / 4 = k + i / 4 := by omega
  have field : (4 * k + i) % 4 = i % 4 := by omega
  unfold destination myAbsINDEX
  change _ = i / spN * spM + if _ then 0
    else vs ((4 * k + i) / 4) >>> ((4 * k + i) % 4 * indexBits) &&& _
  rw [byte, field]
  rfl

theorem destination_congr {vs vs' : Nat → Nat} {i : Nat} (same : vs (i / 4) = vs' (i / 4)) :
    destination vs i = destination vs' i := by
  unfold destination myAbsINDEX
  change i / spN * spM + (if _ then 0 else vs (i / 4) >>> _ &&& _) = _
  rw [same]
  rfl

section

variable {α : Type*} {nonzero : α → Bool} {matrix : DenseMatrix α}

variable {N M : Nat}

/-- The entries of a row. -/
theorem NmSparse.row_marks (sparse : NmSparse nonzero matrix N M) {row : List α}
    (hrow : row ∈ matrix.rows) :
    ∀ block ∈ rowBlocks M matrix.cols row, (block.filter nonzero).length = N := by
  intro block mem
  obtain ⟨b, hb, rfl⟩ := List.mem_map.mp mem
  rw [← List.countP_eq_length_filter]
  exact sparse row hrow b (List.mem_range.mp hb)

theorem NmSparse.row_indices (sparse : NmSparse nonzero matrix N M) {row : List α}
    (hrow : row ∈ matrix.rows) :
    ((rowBlocks M matrix.cols row).flatMap (positions nonzero)).length = matrix.cols / M * N := by
  rw [length_flatMap_const _ fun block mem => (length_positions nonzero block).trans
    (sparse.row_marks hrow block mem), rowBlocks, List.length_map, List.length_range]

/-- The positions of the entries of a row, from the indices in its blocks. -/
theorem NmSparse.row_positions (sparse : NmSparse nonzero matrix N M) (pos : 0 < N)
    (columns : matrix.cols % M = 0) {row : List α} (hrow : row ∈ matrix.rows) :
    positions nonzero row =
      ((rowBlocks M matrix.cols row).flatMap (positions nonzero)).mapIdx fun i k =>
        i / N * M + k := by
  have shape := matrix.shape row hrow
  have places := positions_flatten nonzero pos (rowBlocks M matrix.cols row)
    (fun _ => length_of_mem_rowBlocks shape) (sparse.row_marks hrow)
  rw [flatten_rowBlocks columns shape] at places
  exact places

theorem NmSparse.row_filter (sparse : NmSparse nonzero matrix N M) (pos : 0 < N)
    (columns : matrix.cols % M = 0) {row : List α} (hrow : row ∈ matrix.rows) :
    (row.filter nonzero).length = matrix.cols / M * N := by
  rw [← length_positions, sparse.row_positions pos columns hrow, List.length_mapIdx,
    sparse.row_indices hrow]

/-- The compressed values of a row. -/
theorem NmSparse.row_values (sparse : NmSparse nonzero matrix N M) (pos : 0 < N)
    (columns : matrix.cols % M = 0) {n i : Nat} (hi : i < matrix.cols / M * N) :
    (matrix.flatten.filter nonzero)[n * (matrix.cols / M * N) + i]? =
      matrix.rows[n]?.bind fun row => (row.filter nonzero)[i]? := by
  unfold DenseMatrix.flatten
  rw [List.filter_flatten, ← List.flatMap_def]
  exact getElem?_flatMap_const hi matrix.rows n fun row hrow => sparse.row_filter pos columns hrow

/-- The columns of the entries of a row, from the indices of all rows. -/
theorem NmSparse.row_places (sparse : NmSparse nonzero matrix N M) (pos : 0 < N)
    (columns : matrix.cols % M = 0) {n : Nat} (hn : n < matrix.rows.length) :
    (List.range (matrix.cols / M * N)).map (fun i => i / N * M +
      ((blocks matrix M).flatMap (positions nonzero)).getD (n * (matrix.cols / M * N) + i) 0) =
        positions nonzero matrix.rows[n] := by
  have hrow : matrix.rows[n] ∈ matrix.rows := List.getElem_mem hn
  have flat : (blocks matrix M).flatMap (positions nonzero) = matrix.rows.flatMap fun row =>
      (rowBlocks M matrix.cols row).flatMap (positions nonzero) := List.flatMap_assoc
  rw [sparse.row_positions pos columns hrow]
  apply List.ext_getElem
  · rw [List.length_map, List.length_range, List.length_mapIdx, sparse.row_indices hrow]
  · intro i hi _
    rw [List.length_map, List.length_range] at hi
    have inside :
        i < ((rowBlocks M matrix.cols matrix.rows[n]).flatMap (positions nonzero)).length := by
      rw [sparse.row_indices hrow]
      exact hi
    have entry := getElem?_flatMap_const hi matrix.rows n fun row hrow => sparse.row_indices hrow
    rw [← flat, List.getElem?_eq_getElem hn, Option.bind_some,
      List.getElem?_eq_getElem inside] at entry
    rw [List.getElem_map, List.getElem_range, List.getElem_mapIdx, List.getD_eq_getElem?_getD,
      entry, Option.getD_some]

/-- The packed indices of a row lead to its entries. -/
theorem NmSparse.row_destinations (sparse : NmSparse nonzero matrix 2 4) (columns : 8 ∣ matrix.cols)
    {packed : List Nat}
    (packs : packNm2bit ((blocks matrix 4).flatMap (positions nonzero)) = some packed) {n : Nat}
    (hn : n < matrix.rows.length) : (List.range (matrix.cols / 4 * 2)).map
        (destination fun r => packed.getD (n * (matrix.cols / 4 * 2) / 4 + r) 0) =
      positions nonzero matrix.rows[n] := by
  have small : ∀ k ∈ (blocks matrix 4).flatMap (positions nonzero), k < 4 := by
    intro k hk
    obtain ⟨block, mem, hk⟩ := List.mem_flatMap.mp hk
    rw [← length_of_mem_blocks block mem]
    exact lt_of_mem_positions nonzero hk
  have whole : 4 * (n * (matrix.cols / 4 * 2) / 4) = n * (matrix.cols / 4 * 2) := by
    apply Nat.mul_div_cancel'
    exact Dvd.dvd.mul_left (by omega) n
  rw [← sparse.row_places Nat.two_pos (by omega) hn]
  apply List.map_congr_left
  intro i hi
  have inside : n * (matrix.cols / 4 * 2) + i <
      ((blocks matrix 4).flatMap (positions nonzero)).length := by
    rw [sparse.length_indices]
    exact block_lt hn (List.mem_range.mp hi)
  rw [destination_shift (packed.getD · 0), whole, myAbsINDEX_packNm2bit packs small inside,
    List.getD_eq_getElem _ _ inside]
  rfl

end

/-! ## The kernel computes the product -/

/-- The entry in row `n` and column `j`. -/
def DenseMatrix.entry (matrix : DenseMatrix Byte) (n j : Nat) : Byte :=
  (matrix.rows.getD n []).getD j 0

section

variable {nonzero : Byte → Bool} {matrix : DenseMatrix Byte}

theorem entry_of_getElem? {n j : Nat} {x : Byte} (hn : n < matrix.rows.length)
    (here : matrix.rows[n][j]? = some x) : matrix.entry n j = x := by
  unfold DenseMatrix.entry
  rw [List.getD_eq_getElem _ _ hn, List.getD_eq_getElem?_getD, here, Option.getD_some]

/-- `c` values with their columns, of the entries of row `n` that are not zero. -/
structure RowOf (nonzero : Byte → Bool) (matrix : DenseMatrix Byte) (n c : Nat) (vals : Nat → Byte)
    (d : Nat → Nat) : Prop where
  lt : ∀ i < c, d i < matrix.cols
  value : ∀ i < c, matrix.entry n (d i) = vals i
  marked : ∀ i < c, nonzero (matrix.entry n (d i)) = true
  apart : ∀ i < c, ∀ j < i, d j ≠ d i
  cover : ∀ j < matrix.cols, nonzero (matrix.entry n j) = true → ∃ i < c, d i = j

/-- The values and columns of a row, in order. -/
theorem RowOf.of_runs {n c : Nat} {vals : Nat → Byte} {d : Nat → Nat} (hn : n < matrix.rows.length)
    (runs : (List.range c).map d = positions nonzero matrix.rows[n])
    (values : ∀ i < c, (matrix.rows[n].filter nonzero)[i]? = some (vals i)) :
    RowOf nonzero matrix n c vals d := by
  obtain ⟨found, apart, cover⟩ := of_map_range nonzero runs
  have shape := matrix.shape _ (List.getElem_mem hn)
  refine ⟨fun i hi => ?_, fun i hi => ?_, fun i hi => ?_, apart, fun j hj marked => ?_⟩
  · obtain ⟨x, here, -⟩ := found i hi
    rw [← shape]
    exact (List.getElem?_eq_some_iff.mp here).1
  · obtain ⟨x, here, kept, -⟩ := found i hi
    rw [entry_of_getElem? hn here]
    exact Option.some.inj (kept.symm.trans (values i hi))
  · obtain ⟨x, here, -, marked⟩ := found i hi
    rw [entry_of_getElem? hn here]
    exact marked
  · have here := List.getElem?_eq_getElem (shape ▸ hj : j < matrix.rows[n].length)
    rw [entry_of_getElem? hn here] at marked
    exact cover j ⟨_, here, marked⟩

theorem RowOf.congr {n c : Nat} {vals vals' : Nat → Byte} {d d' : Nat → Nat}
    (row : RowOf nonzero matrix n c vals d) (values : ∀ i < c, vals' i = vals i)
    (columns : ∀ i < c, d' i = d i) : RowOf nonzero matrix n c vals' d' := by
  refine ⟨fun i hi => ?_, fun i hi => ?_, fun i hi => ?_, fun i hi j hj => ?_,
    fun j hj marked => ?_⟩
  · rw [columns i hi]
    exact row.lt i hi
  · rw [columns i hi, values i hi]
    exact row.value i hi
  · rw [columns i hi]
    exact row.marked i hi
  · rw [columns i hi, columns j (Nat.lt_trans hj hi)]
    exact row.apart i hi j hj
  · obtain ⟨i, hi, here⟩ := row.cover j hj marked
    exact ⟨i, hi, (columns i hi).trans here⟩

namespace AspBArgs

variable (A : AspBArgs)

/-- The values of a row in the memory. -/
def value (mem : Memory) (n i : Nat) : Byte := mem (byteAt A.matrixB (n * (A.P / 4 * 2) + i))

/-- The packed indices of a row in the memory. -/
def index (mem : Memory) (n k : Nat) : Nat :=
  (mem (byteAt A.indexB (n * (A.P / 4 * 2) / 4 + k))).toNat

/-- The memory holds the arrays of the header that `spatz_matmul_datagen.py` writes for `B`. -/
def Holds (nonzero : Byte → Bool) (matrix : DenseMatrix Byte) (mem : Memory) : Prop :=
  ∃ compactVals indexMatrix packed,
    extractNmSparsity nonzero matrix A.spN A.spM = some (compactVals, indexMatrix) ∧
    packNm2bit indexMatrix.flatten = some packed ∧
    (∀ k < compactVals.length, compactVals[k]? = some (mem (byteAt A.matrixB k))) ∧
    ∀ k < packed.length, packed.getD k 0 = (mem (byteAt A.indexB k)).toNat

/-- What the kernel needs of a matrix: a row of it fits the registers, and `B` is apart from `C`. -/
structure Fits (V : Vlsu) (nonzero : Byte → Bool) (matrix : DenseMatrix Byte) : Prop extends
    A.toMatmulArgs.Fits V where
  spN : A.spN = 2
  spM : A.spM = 4
  columns : 8 ∣ A.P
  group : A.P ≤ 4 * V.vlenb
  counter : 2 * (A.N * A.P) < 2 ^ 32
  height : matrix.rows.length = A.N
  width : matrix.cols = A.P
  sparse : NmSparse nonzero matrix 2 4
  b_apart : A.Apart A.matrixB (A.N * (A.P / 4 * 2))
  index_apart : A.Apart A.indexB (A.N * (A.P / 4 * 2) / 4)

end AspBArgs

variable {V : Vlsu} {data : Buffer} {F : Flexfloat} {A : AspBArgs} {mem : Memory}

theorem length_packed {flat packed : List Nat} (packs : packNm2bit flat = some packed) :
    packed.length = flat.length / 4 := by
  unfold packNm2bit at packs
  split at packs
  · obtain rfl := Option.some.inj packs
    rw [List.length_map, List.length_range]
  · cases packs

/-- The arrays of the header. -/
theorem AspBArgs.Fits.header (fits : A.Fits V nonzero matrix) {compactVals : List Byte}
    {indexMatrix : List (List Nat)} {packed : List Nat}
    (extracted : extractNmSparsity nonzero matrix A.spN A.spM = some (compactVals, indexMatrix))
    (packs : packNm2bit indexMatrix.flatten = some packed) :
    compactVals = matrix.flatten.filter nonzero ∧
      packNm2bit ((blocks matrix 4).flatMap (positions nonzero)) = some packed ∧
      compactVals.length = A.N * (A.P / 4 * 2) ∧ packed.length = A.N * (A.P / 4 * 2) / 4 := by
  have columns := fits.columns
  have four : matrix.cols % 4 = 0 := by
    rw [fits.width]
    omega
  rw [fits.spN, fits.spM, extractNmSparsity_eq fits.sparse four (by decide), Option.some_inj,
    Prod.mk.injEq] at extracted
  obtain ⟨rfl, rfl⟩ := extracted
  have flat : (blocks matrix 4).flatMap (positions nonzero) = (matrix.rows.map fun row =>
      (rowBlocks 4 matrix.cols row).flatMap (positions nonzero)).flatten := by
    rw [← List.flatMap_def]
    exact List.flatMap_assoc
  rw [← flat] at packs
  refine ⟨rfl, packs, ?_, ?_⟩
  · unfold DenseMatrix.flatten
    rw [List.filter_flatten, ← List.flatMap_def,
      length_flatMap_const _ fun row hrow => fits.sparse.row_filter Nat.two_pos four hrow,
      fits.height, fits.width]
  · rw [length_packed packs, fits.sparse.length_indices, fits.height, fits.width]

/-- The rows of the matrix, from the memory. -/
theorem AspBArgs.Holds.row (held : A.Holds nonzero matrix mem) (fits : A.Fits V nonzero matrix)
    {n : Nat} (hn : n < A.N) :
    RowOf nonzero matrix n (A.P / 4 * 2) (A.value mem n) (destination (A.index mem n)) := by
  obtain ⟨compactVals, indexMatrix, packed, extracted, packs, values, indices⟩ := held
  obtain ⟨rfl, packs, size, bytes⟩ := fits.header extracted packs
  have columns := fits.columns
  have hn' : n < matrix.rows.length := fits.height ▸ hn
  obtain ⟨q, quarter⟩ : ∃ q, A.P / 4 * 2 = q * 4 := ⟨A.P / 8, by omega⟩
  have four : matrix.cols % 4 = 0 := by
    rw [fits.width]
    omega
  have runs := fits.sparse.row_destinations (fits.width ▸ columns) packs hn'
  have entries := fun i => fits.sparse.row_values (n := n) (i := i) Nat.two_pos four
  rw [fits.width] at runs entries
  have reads : ∀ i < A.P / 4 * 2, destination (A.index mem n) i =
      destination (fun r => packed.getD (n * (A.P / 4 * 2) / 4 + r) 0) i := by
    intro i hi
    apply destination_congr
    have inside := block_lt hn (show i / 4 < q by omega)
    refine (indices _ ?_).symm
    rw [bytes, quarter, ← Nat.mul_assoc, ← Nat.mul_assoc, Nat.mul_div_cancel _ (Nat.succ_pos 3),
      Nat.mul_div_cancel _ (Nat.succ_pos 3)]
    exact inside
  rw [← List.map_congr_left fun i hi => reads i (List.mem_range.mp hi)] at runs
  refine .of_runs hn' runs fun i hi => ?_
  have entry := entries i hi
  rw [List.getElem?_eq_getElem hn', Option.bind_some] at entry
  rw [← entry]
  exact values _ (size ▸ block_lt hn hi)

variable {n c : Nat} {vals : Nat → Byte} {d : Nat → Nat}

/-- A loop over the values of a row that puts each result in the column of its entry. -/
theorem RowOf.vectorLoop (row : RowOf nonzero matrix n c vals d) {op : Byte → BitVec 16 → BitVec 16}
    {dst : Buffer → Nat → Nat} {src base : Nat} {regs : Buffer} (front : src + c ≤ base)
    (elements : ∀ i < c, regs (src + i) = vals i)
    (reads : ∀ regs' : Buffer, (∀ r < base, regs' r = regs r) → ∀ i < c, dst regs' i = d i)
    {j : Nat} (hj : j < matrix.cols) : loadLe (vectorLoop op dst src base c regs) (base + 2 * j) 2 =
      if nonzero (matrix.entry n j) = true then op (matrix.entry n j) (loadLe regs (base + 2 * j) 2)
      else loadLe regs (base + 2 * j) 2 := by
  obtain ⟨-, written, other⟩ := vectorLoop_spec op regs d front reads row.apart
  by_cases marked : nonzero (matrix.entry n j) = true
  · obtain ⟨i, hi, rfl⟩ := row.cover j hj marked
    rw [if_pos marked, written i hi, elements i hi, row.value i hi]
  · rw [if_neg marked]
    refine other j fun i hi same => marked ?_
    rw [← same]
    exact row.marked i hi

variable {s : Core} {m : Nat}

/-- The loads of a pass, in front of the sums. -/
theorem two_loads (V : Vlsu) (data : Buffer) (s : Core) (vl : Nat) (b i : BitVec 64)
    (room : vl + V.intfWidth ≤ 8 * V.vlenb) :
    ((s.vle8 V data vl b 0).vle8 V data vl i 8).mem = s.mem ∧
      (∀ k < vl, ((s.vle8 V data vl b 0).vle8 V data vl i 8).regs k = s.mem (byteAt b k)) ∧
      (∀ k < vl, ((s.vle8 V data vl b 0).vle8 V data vl i 8).regs (8 * V.vlenb + k) =
        s.mem (byteAt i k)) ∧
      ∀ r, 16 * V.vlenb ≤ r → ((s.vle8 V data vl b 0).vle8 V data vl i 8).regs r = s.regs r := by
  obtain ⟨t, ht⟩ : ∃ t, t = s.vle8 V data vl b 0 := ⟨_, rfl⟩
  obtain ⟨mem, values, kept⟩ := vle8_spec V data s vl b 0
  obtain ⟨mem', indices, kept'⟩ := vle8_spec V data t vl i 8
  rw [← ht] at mem values kept ⊢
  rw [mem] at mem' indices
  refine ⟨mem', fun k hk => ?_, indices, fun r hr => ?_⟩
  · have byte := values k hk
    rw [Nat.zero_mul, Nat.zero_add] at byte
    rw [kept' k (Or.inl (by omega)), byte]
  · rw [kept' r (Or.inr (by omega)), kept r (Or.inr (by omega))]

/-- What the loads of a pass leave in the registers. -/
structure Loaded (V : Vlsu) (A : AspBArgs) (n : Nat) (s t : Core) : Prop where
  mem : t.mem = s.mem
  values : ∀ i < A.P / 4 * 2, t.regs i = A.value s.mem n i
  indices : ∀ k < A.P / 4 * 2, (t.regs (8 * V.vlenb + k)).toNat = A.index s.mem n k
  sums : ∀ r, 16 * V.vlenb ≤ r → t.regs r = s.regs r

theorem loaded (fits : A.Fits V nonzero matrix) {offset : Nat}
    (place : offset = n * (A.P / 4 * 2)) :
    Loaded V A n s
      ((s.vle8 V data (A.P / 4 * 2) (byteAt A.matrixB offset) 0).vle8 V data (A.P / 4 * 2)
      (byteAt A.indexB (offset / idxPerByte)) 8) := by
  have width := Nat.le_of_dvd fits.vlenb_pos fits.width_dvd
  have group := fits.group
  subst place
  obtain ⟨mem, values, indices, sums⟩ := two_loads V data s (A.P / 4 * 2)
    (byteAt A.matrixB (n * (A.P / 4 * 2))) (byteAt A.indexB (n * (A.P / 4 * 2) / idxPerByte))
    (by omega)
  refine ⟨mem, fun i hi => ?_, fun k hk => ?_, sums⟩
  · rw [values i hi, byteAt_add]
    rfl
  · rw [indices k hk, byteAt_add]
    rfl

/-- The indices of a pass are read from the registers in front of the sums. -/
theorem Loaded.reads {t : Core} (loaded : Loaded V A n s t) (fits : A.Fits V nonzero matrix)
    {regs' : Buffer} (same : ∀ r < 16 * V.vlenb, regs' r = t.regs r) {i : Nat}
    (hi : i < A.P / 4 * 2) :
    indexed V 8 regs' i = destination (A.index s.mem n) i := by
  have group := fits.group
  refine destination_congr ?_
  rw [same _ (by omega)]
  exact loaded.indices _ (by omega)

/-- Row `n` is accumulated where its entries are not zero. -/
theorem sparsePass_step (fits : A.Fits V nonzero matrix) (held : A.Holds nonzero matrix s.mem)
    (hm : m < A.M) (hn : n < A.N) {s' : Core}
    (pass : s' = sparsePass V data F A (A.P / 4 * 2) (A.P / 4 * 2) 0 m n s) :
    s'.mem = s.mem ∧ ∀ j < A.P, loadLe s'.regs (16 * V.vlenb + 2 * j) 2 =
      if nonzero (matrix.entry n j) = true then
        if n = 0 then F.mul (A.a s.mem m 0) (matrix.entry 0 j)
        else F.macc (A.a s.mem m n) (matrix.entry n j) (loadLe s.regs (16 * V.vlenb + 2 * j) 2)
      else if n = 0 then 0 else loadLe s.regs (16 * V.vlenb + 2 * j) 2 := by
  have counter := fits.counter
  have group := fits.group
  have room := fits.vlenb_pos
  obtain ⟨q, columns⟩ := fits.columns
  have row := Nat.mul_le_mul_right A.P (Nat.succ_le_of_lt hn)
  rw [Nat.succ_mul] at row
  have half : n * (A.P / 4 * 2) = n * A.P * 2 / 4 := by
    have quarter : A.P / 4 * 2 = 4 * q := by omega
    have eighth : n * A.P = 8 * (n * q) := by
      rw [columns]
      ring
    rw [quarter, eighth, Nat.mul_left_comm]
    omega
  have offset : u32 (0 + u32 (u32 (n * A.P) * A.spN) / A.spM) = n * (A.P / 4 * 2) := by
    have small : u32 (n * A.P) = n * A.P := u32_of_lt (by omega)
    have twice : u32 (n * A.P * 2) = n * A.P * 2 := u32_of_lt (by omega)
    rw [fits.spN, fits.spM, small, twice, Nat.zero_add, half]
    exact u32_of_lt (by omega)
  have scalar := flw_a (s := s) fits.a_lt hm hn
  obtain ⟨t, ht⟩ : ∃ t, t =
    (s.vle8 V data (A.P / 4 * 2) (byteAt A.matrixB (n * (A.P / 4 * 2))) 0).vle8 V data
    (A.P / 4 * 2) (byteAt A.indexB (n * (A.P / 4 * 2) / idxPerByte)) 8 := ⟨_, rfl⟩
  have loads : Loaded V A n s t := ht ▸ loaded fits rfl
  have matched := held.row fits hn
  unfold sparsePass at pass
  dsimp only at pass
  rw [offset, ← ht] at pass
  by_cases first : n = 0
  · subst first
    rw [if_pos rfl] at pass
    have zeroed : 2 * vsetvli (4 * V.vlenb) (u32 (2 * (A.P / 4 * 2))) = 2 * A.P := by
      have whole : 2 * (A.P / 4 * 2) = A.P := by omega
      rw [whole, u32_of_lt (by omega)]
      exact congrArg (2 * ·) (Nat.min_eq_left group)
    rw [zeroed] at pass
    simp only [if_pos]
    rw [pass]
    refine ⟨loads.mem, fun j hj => ?_⟩
    unfold vfwxmul
    rw [Nat.zero_mul]
    dsimp only
    rw [matched.vectorLoop (by omega)
      (fun i hi => (vmvZero_of_lt (by omega)).trans
        ((congrArg t.regs (Nat.zero_add i)).trans (loads.values i hi)))
      (fun regs' same i hi =>
        loads.reads fits (fun r hr => (same r hr).trans (vmvZero_of_lt hr)) hi)
      (fits.width ▸ hj), scalar]
    split
    · rfl
    · exact loadLe_zero fun k hk => if_pos (by omega)
  · rw [if_neg first] at pass
    simp only [if_neg first]
    have old : ∀ j, loadLe t.regs (16 * V.vlenb + 2 * j) 2 =
        loadLe s.regs (16 * V.vlenb + 2 * j) 2 :=
      fun j => loadLe_eq_iff.mpr fun k _ => loads.sums _ (by omega)
    rw [pass]
    refine ⟨loads.mem, fun j hj => ?_⟩
    unfold vfwxmacc
    rw [Nat.zero_mul]
    dsimp only
    rw [matched.vectorLoop (by omega)
      (fun i hi => (congrArg t.regs (Nat.zero_add i)).trans (loads.values i hi))
      (fun regs' same i hi => loads.reads fits same hi) (fits.width ▸ hj), scalar, old]

/-- The sums after the loop over `n`. -/
theorem sparseRow_spec (data : Buffer) (F : Flexfloat) (fits : A.Fits V nonzero matrix)
    (held : A.Holds nonzero matrix s.mem) (hm : m < A.M) :
    (sparseRow V data F A (A.P / 4 * 2) (A.P / 4 * 2) 0 m s).mem = s.mem ∧ ∀ j < A.P,
      loadLe (sparseRow V data F A (A.P / 4 * 2) (A.P / 4 * 2) 0 m s).regs
          (16 * V.vlenb + 2 * j) 2 =
        accumulate F (fun n => nonzero (matrix.entry n j)) (A.a s.mem m)
          (fun n => matrix.entry n j) A.N := by
  have passes : ∀ n ≤ A.N, ∀ s', s' = (List.range n).foldl
        (fun s n => sparsePass V data F A (A.P / 4 * 2) (A.P / 4 * 2) 0 m n s) s →
      s'.mem = s.mem ∧ (0 < n → ∀ j < A.P, loadLe s'.regs (16 * V.vlenb + 2 * j) 2 =
        accumulate F (fun n => nonzero (matrix.entry n j)) (A.a s.mem m)
          (fun n => matrix.entry n j) n) := by
    intro n
    induction n with
    | zero =>
        rintro - s' rfl
        exact ⟨rfl, fun none => absurd none (Nat.lt_irrefl 0)⟩
    | succ n ih =>
        intro le s' run
        rw [List.range_succ, List.foldl_append] at run
        obtain ⟨before, sums⟩ := ih (Nat.le_of_succ_le le) _ rfl
        obtain ⟨mem, pass⟩ := sparsePass_step fits (before ▸ held) hm le run
        refine ⟨mem.trans before, fun _ j hj => ?_⟩
        rw [pass j hj, before]
        unfold accumulate
        by_cases first : n = 0
        · subst first
          rfl
        · rw [if_neg first, if_neg first, if_neg first, sums (Nat.pos_of_ne_zero first) j hj]
  obtain ⟨mem, sums⟩ := passes A.N (Nat.le_refl _) _ rfl
  exact ⟨mem, sums fits.inner_pos⟩

/-- The header is kept while `C` is written. -/
theorem AspBArgs.Holds.of_kept (held : A.Holds nonzero matrix mem) (fits : A.Fits V nonzero matrix)
    {mem' : Memory} (kept : ∀ x, (∀ k < 2 * (A.M * A.P), x ≠ byteAt A.matrixC k) → mem' x = mem x) :
    A.Holds nonzero matrix mem' := by
  obtain ⟨compactVals, indexMatrix, packed, extracted, packs, values, indices⟩ := held
  obtain ⟨-, -, size, bytes⟩ := fits.header extracted packs
  refine ⟨compactVals, indexMatrix, packed, extracted, packs, fun k hk => ?_, fun k hk => ?_⟩
  · rw [kept _ fun i hi => fits.b_apart i hi k (size ▸ hk)]
    exact values k hk
  · rw [kept _ fun i hi => fits.index_apart i hi k (bytes ▸ hk)]
    exact indices k hk

/-- The entries of the product with the matrix that was compressed. -/
def sparseProduct (F : Flexfloat) (A : AspBArgs) (nonzero : Byte → Bool) (matrix : DenseMatrix Byte)
    (mem : Memory) (m j : Nat) : BitVec 16 :=
  accumulate F (fun n => nonzero (matrix.entry n j)) (A.a mem m) (fun n => matrix.entry n j) A.N

/-- The kernel on the header of a 2:4 sparse matrix leaves in `C` the product of `A` and that
matrix, of the entries that are not zero, and changes nothing else. -/
theorem sparse_product (fits : A.Fits V nonzero matrix) (held : A.Holds nonzero matrix s.mem)
    (data : Buffer) (F : Flexfloat) : ∃ t, spatzAspBMatmulWxfp16 V data F A 1 s = some t ∧
      (∀ m < A.M, ∀ j < A.P, A.c t.mem m j = sparseProduct F A nonzero matrix s.mem m j) ∧
      ∀ x, (∀ k < 2 * (A.M * A.P), x ≠ byteAt A.matrixC k) → t.mem x = s.mem x := by
  have counter := fits.counter
  have group := fits.group
  have columns := fits.columns
  have row := Nat.le_mul_of_pos_left A.P fits.inner_pos
  have total : u32 (A.P * A.spN) / A.spM = A.P / 4 * 2 := by
    rw [fits.spN, fits.spM, u32_of_lt (by omega)]
    omega
  have granted : vsetvli (8 * V.vlenb) (u32 (A.P / 4 * 2 * 2)) = A.P := by
    have whole : A.P / 4 * 2 * 2 = A.P := by omega
    rw [whole, u32_of_lt (by omega)]
    exact Nat.min_eq_left (by omega)
  refine ⟨sparseStrip V data F A (A.P / 4 * 2) (A.P / 4 * 2) 0 s, ?_, ?_⟩
  · unfold spatzAspBMatmulWxfp16
    rw [total]
    exact stripMine_single (by omega) (by omega)
  · have start : Done A.toMatmulArgs (sparseProduct F A nonzero matrix s.mem) s.mem 0 0 0 s :=
      done_zero _
    have whole : 0 + A.P ≤ A.P := Nat.le_of_eq (Nat.zero_add A.P)
    have all := start.rows data fits.toFits whole (Nat.dvd_zero _)
      ((Nat.zero_add A.P).symm ▸ fits.rows) (sparseRow V data F A (A.P / 4 * 2) (A.P / 4 * 2) 0)
      fun m hm s' done => by
        obtain ⟨mem, sums⟩ := sparseRow_spec data F fits (held.of_kept fits done.kept) hm
        refine ⟨mem, fun j hj => ?_⟩
        rw [sums j hj, Nat.zero_add]
        exact accumulate_congr (fun n hn => done.a_kept fits.toFits hm hn) fun _ _ => rfl
    unfold sparseStrip
    rw [granted]
    exact ⟨fun m hm j hj => all.sums m hm j hj (Or.inl (by omega)), all.kept⟩

end

/-! ### Two rows of two blocks -/

def twoRows : DenseMatrix Byte where
  cols := 8
  rows := [[0x3C, 0x3C, 0, 0, 0, 0x3C, 0, 0x3C], [0x3C, 0, 0x3C, 0, 0, 0x3C, 0x3C, 0]]
  shape := by decide

def oneByTwo : AspBArgs where
  matrixA := 0x00
  matrixB := 0x10
  matrixC := 0x30
  M := 1
  N := 2
  P := 8
  indexB := 0x20
  spN := 2
  spM := 4

/-- Ones everywhere, apart from the indices. -/
def oneByTwoMemory : Memory := fun a => if a = 0x20 then 0xD4 else if a = 0x21 then 0x98 else 0x3C

theorem sparse_product_oneByTwo : ∃ t,
    spatzAspBMatmulWxfp16 narrow (fun _ => 0) ones oneByTwo 1 ⟨fun _ => 0, oneByTwoMemory⟩ =
      some t ∧
      ∀ j < 8, oneByTwo.c t.mem 0 j =
        [0x4000, 0x3C00, 0x3C00, 0, 0, 0x4000, 0x3C00, 0x3C00].getD j 0 := by
  have fits : oneByTwo.Fits narrow (· ≠ 0) twoRows :=
    { vlenb_pos := by decide
      width_dvd := by decide
      aligned := by decide
      rows := by decide
      inner_pos := by decide
      a_lt := by decide
      b_lt := by decide
      c_le := by decide
      a_apart := by unfold MatmulArgs.Apart; decide
      spN := rfl
      spM := rfl
      columns := by decide
      group := by decide
      counter := by decide
      height := rfl
      width := rfl
      sparse := by unfold NmSparse; decide
      b_apart := by unfold MatmulArgs.Apart; decide
      index_apart := by unfold MatmulArgs.Apart; decide }
  have held : oneByTwo.Holds (· ≠ 0) twoRows oneByTwoMemory :=
    ⟨[0x3C, 0x3C, 0x3C, 0x3C, 0x3C, 0x3C, 0x3C, 0x3C], [[0, 1, 1, 3], [0, 2, 1, 2]], [0xD4, 0x98],
      by decide, by decide, by decide, by decide⟩
  obtain ⟨t, ran, sums, -⟩ :=
    sparse_product (s := ⟨fun _ => 0, oneByTwoMemory⟩) fits held (fun _ => 0) ones
  refine ⟨t, ran, fun j hj => (sums 0 (by decide) j hj).trans ?_⟩
  revert j
  decide

end SoftHier.Sparse
