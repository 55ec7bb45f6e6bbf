import SoftHier.Sparse.Kernel
import SoftHier.Spatz.Indexed

/-!
# The sparse matrix product with scatters

`spatz_AspB_matmul_fp16` keeps the sums of a row in the memory: each row of `B` is multiplied in
registers, and the sums of its columns are gathered and scattered with the indices of the header,
one byte each.  A first pass turns the indices in the blocks into columns, in place.

* `recalculate_index`: the first pass, in bytes.
* `rvvPass_step`: a row of `B` is accumulated in the memory.
* `scatter_product`: the kernel computes the product of up to 256 columns, and never writes to
  column 256 and those behind it.
-/

namespace SoftHier.Sparse

open Spatz

/-! ## The kernel -/

section

variable (V : Vlsu) (data : Buffer) (F : Flexfloat)

/-- `vluxei8.v` on elements of 16 bits; `none` where it reads behind its buffer. -/
def vluxei8 (s : Core) (vl vd : Nat) (addr : BitVec 64) (vs2 : Nat) : Option Core :=
  (V.vluxei .e16 ⟨vl, 0⟩ addr vs2 vd data s.regs s.mem .e8).map fun s' => ⟨s'.regs, s'.mem⟩

/-- `vsuxei8.v` on elements of 16 bits -/
def vsuxei8 (s : Core) (vl vs3 : Nat) (addr : BitVec 64) (vs2 : Nat) : Core :=
  let s' := V.vsuxei .e16 ⟨vl, 0⟩ addr vs2 vs3 data s.regs s.mem .e8
  ⟨s'.regs, s'.mem⟩

variable (A : AspBArgs)

/-- `P * spN / spM` -/
def AspBArgs.compactCols : Nat := u32 (A.P * A.spN) / A.spM

/-- `index_b[q + k*spN + j*vl + i*(P*spN/spM)] += k*spM` -/
def addBlock (vl i j k : Nat) (mem : Memory) (q : Nat) : Memory :=
  let a := byteAt A.indexB (u32 (q + k * A.spN + j * vl + i * A.compactCols))
  Function.update mem a (mem a + BitVec.ofNat 8 (k * A.spM))

/-- The loops over the indices, for a new `vl`. -/
def recalculate (vl : Nat) (mem : Memory) : Memory :=
  (List.range A.N).foldl (fun mem i =>
    (List.range (A.compactCols / vl)).foldl (fun mem j =>
      (List.range (vl / A.spN)).foldl (fun mem k =>
        (List.range A.spN).foldl (addBlock A vl i j k) mem) mem) mem) mem

/-- The body of the loop over `n`. -/
def rvvPass (avl vl p m n : Nat) (s : Core) : Option Core :=
  let pC := byteAt A.matrixC (2 * u32 (m * A.P) + 2 * p)
  let fa0 := s.flw (byteAt A.matrixA (u32 (u32 (m * A.N) + n)))
  let offset := u32 (p + u32 (u32 (n * A.P) * A.spN) / A.spM)
  let s := s.vle8 V data vl (byteAt A.matrixB offset) 0
  let s := s.vle8 V data vl (byteAt A.indexB offset) 8
  let vl16 := vsetvli (4 * V.vlenb) avl
  if n = 0 then some (vsuxei8 V data ((s.vmvZero V vl 16).vfwmul V F vl 16 0 fa0) vl16 16 pC 8)
  else
    (vluxei8 V data s vl16 16 pC 8).map fun s =>
      vsuxei8 V data (s.vfwmacc V F vl 16 fa0 0) vl16 16 pC 8

/-- The loop over `m`. -/
def rvvRows (avl vl p : Nat) (s : Core) : Option Core :=
  (List.range A.M).foldlM (fun s m =>
    (List.range A.N).foldlM (fun s n => rvvPass V data F A avl vl p m n s) s) s

/-- The body of the loop over the strips, with `pre_vl`. -/
def rvvStrip (avl vl p : Nat) (s : Core × Nat) : Option (Core × Nat) :=
  let (core, preVl) := s
  let core := if preVl ≠ vl then { core with mem := recalculate A vl core.mem } else core
  (rvvRows V data F A avl vl p core).map (·, vl)

/-- `spatz_AspB_matmul_fp16` -/
def spatzAspBMatmulFp16 (fuel : Nat) (s : Core) : Option Core :=
  ((stripMine (8 * V.vlenb) (fun avl vl p s => s.bind (rvvStrip V data F A avl vl p)) fuel
    A.compactCols 0 (some (s, 0))).join).map Prod.fst

end

/-! ## Scatters and gathers -/

section

variable {V : Vlsu} {e : Sew} {c : Csr} {iw vs2 reg n : Nat} {s : Access} {x : BitVec 64}

/-- A scatter leaves the bytes alone that are in none of its elements. -/
theorem storeLoop_kept (outside : ∀ i < c.vl, ∀ j < e.bytes,
    x ≠ byteAt (elementAddr e s.startAdd (V.indexAt s.regs vs2 iw i)) j) :
    (V.storeLoop e c iw vs2 reg s).mem x = s.mem x := by
  have run : ∀ n ≤ c.vl, ∀ t, t = (List.range n).foldl (V.storeIndexed e c iw vs2 reg) s →
      t.startAdd = s.startAdd ∧ t.regs = s.regs ∧ t.mem x = s.mem x := by
    intro n
    induction n with
    | zero =>
        rintro - t rfl
        exact ⟨rfl, rfl, rfl⟩
    | succ n ih =>
        intro le t run
        rw [List.range_succ, List.foldl_append] at run
        obtain ⟨start, regs, kept⟩ := ih (Nat.le_of_succ_le le) _ rfl
        rw [run]
        refine ⟨start, regs, Eq.trans (Access.ioWrite_of_outside fun j hj => ?_) kept⟩
        have away := outside n le j hj
        rw [← start, ← regs] at away
        exact away
  exact (run c.vl le_rfl _ rfl).2.2

/-- An index of one byte. -/
theorem indexAt_byte {regs : Buffer} {i : Nat} :
    (V.indexAt regs vs2 1 i).toNat = (regs (vs2 * V.vlenb + i)).toNat := by
  have one : V.indexAt regs vs2 1 i = (regs (vs2 * V.vlenb + (i * 1 + 0))).setWidth 64 := by
    unfold Vlsu.indexAt bytesToUint
    simp
  rw [one, Nat.mul_one, Nat.add_zero, BitVec.toNat_setWidth]
  exact Nat.mod_eq_of_lt (by omega)

end

/-! ## The first pass -/

section

variable {A : AspBArgs} {mem : Memory} {c i k q : Nat}

theorem addBlock_at (A : AspBArgs) (vl i j k : Nat) (mem : Memory) (q : Nat) :
    addBlock A vl i j k mem q (byteAt A.indexB (u32 (q + k * A.spN + j * vl + i * A.compactCols))) =
      mem (byteAt A.indexB (u32 (q + k * A.spN + j * vl + i * A.compactCols))) +
        BitVec.ofNat 8 (k * A.spM) :=
  Function.update_self ..

/-- Where the first pass over whole rows changes an index. -/
theorem place_eq (whole : A.compactCols = c) (counter : A.N * c < 2 ^ 32) (hi : i < A.N)
    (hk : k < c / A.spN) (hq : q < A.spN) :
    u32 (q + k * A.spN + 0 * c + i * A.compactCols) = i * c + (k * A.spN + q) ∧
      k * A.spN + q < c := by
  have block := block_lt hk hq
  have rounded := Nat.div_mul_le_self c A.spN
  have inside : k * A.spN + q < c := by omega
  have row := block_lt hi inside
  have place : q + k * A.spN + 0 * c + i * A.compactCols = i * c + (k * A.spN + q) := by
    rw [whole, Nat.zero_mul]
    omega
  rw [place]
  exact ⟨u32_of_lt (by omega), inside⟩

/-- The first pass leaves the rest of the memory alone. -/
theorem recalculate_kept (whole : A.compactCols = c) (pos : 0 < c) (counter : A.N * c < 2 ^ 32)
    {x : BitVec 64} (outside : ∀ k < A.N * c, x ≠ byteAt A.indexB k) :
    recalculate A c mem x = mem x := by
  have one : A.compactCols / c = 1 := by
    rw [whole]
    exact Nat.div_self pos
  unfold recalculate
  rw [one]
  refine foldl_kept (fun mem : Memory => mem x) (fun i hi mem => ?_) mem
  refine foldl_kept (fun mem : Memory => mem x) (fun j hj mem => ?_) mem
  refine foldl_kept (fun mem : Memory => mem x) (fun k hk mem => ?_) mem
  refine foldl_kept (fun mem : Memory => mem x) (fun q hq mem => ?_) mem
  obtain rfl := Nat.lt_one_iff.mp (List.mem_range.mp hj)
  obtain ⟨place, inside⟩ := place_eq whole counter (List.mem_range.mp hi) (List.mem_range.mp hk)
    (List.mem_range.mp hq)
  unfold addBlock
  rw [place]
  exact Function.update_of_ne (outside _ (block_lt (List.mem_range.mp hi) inside)) _ _

/-- The first pass over whole rows adds to each index the first column of its block, once. -/
theorem recalculate_index (whole : A.compactCols = c) (blocks : A.spN ∣ c)
    (counter : A.N * c < 2 ^ 32) {n : Nat} (hn : n < A.N) (hi : i < c) :
    recalculate A c mem (byteAt A.indexB (n * c + i)) =
      mem (byteAt A.indexB (n * c + i)) + BitVec.ofNat 8 (i / A.spN * A.spM) := by
  have pos : 0 < c := Nat.zero_lt_of_lt hi
  have spN : 0 < A.spN := Nat.pos_of_dvd_of_pos blocks pos
  have one : A.compactCols / c = 1 := by
    rw [whole]
    exact Nat.div_self pos
  have split : i / A.spN * A.spN + i % A.spN = i := Nat.div_add_mod' i A.spN
  have column : i / A.spN < c / A.spN := Nat.div_lt_div_of_lt_of_dvd blocks hi
  have here : n * c + i < 2 ^ 64 := by
    have := block_lt hn hi
    omega
  -- another step changes another index
  have other : ∀ i' < A.N, ∀ k < c / A.spN, ∀ q < A.spN, ∀ mem : Memory,
      ¬ (i' = n ∧ k = i / A.spN ∧ q = i % A.spN) →
      addBlock A c i' 0 k mem q (byteAt A.indexB (n * c + i)) =
        mem (byteAt A.indexB (n * c + i)) := by
    intro i' hi' k hk q hq mem different
    obtain ⟨place, inside⟩ := place_eq whole counter hi' hk hq
    unfold addBlock
    rw [place]
    refine Function.update_of_ne (fun same => different ?_) _ _
    have := block_lt hi' inside
    have equal := byteAt_inj here (by omega) same
    obtain ⟨rfl, offset⟩ := block_inj hi inside equal
    rw [← split] at offset
    obtain ⟨rfl, rfl⟩ := block_inj (Nat.mod_lt _ spN) hq offset
    exact ⟨rfl, rfl, rfl⟩
  have step : ∀ mem : Memory,
      addBlock A c n 0 (i / A.spN) mem (i % A.spN) (byteAt A.indexB (n * c + i)) =
      mem (byteAt A.indexB (n * c + i)) + BitVec.ofNat 8 (i / A.spN * A.spM) := by
    intro mem
    obtain ⟨place, -⟩ := place_eq whole counter hn column (Nat.mod_lt i spN)
    have added := addBlock_at A c n 0 (i / A.spN) mem (i % A.spN)
    rw [place, split] at added
    exact added
  have row : ∀ mem : Memory, (List.range (c / A.spN)).foldl (fun mem k =>
        (List.range A.spN).foldl (addBlock A c n 0 k) mem) mem (byteAt A.indexB (n * c + i)) =
      mem (byteAt A.indexB (n * c + i)) + BitVec.ofNat 8 (i / A.spN * A.spM) := by
    refine foldl_once (fun mem : Memory => mem (byteAt A.indexB (n * c + i)))
      (· + BitVec.ofNat 8 (i / A.spN * A.spM)) List.nodup_range (List.mem_range.mpr column)
      (fun k hk ne => ?_) fun mem => ?_
    · refine foldl_kept (fun mem : Memory => mem (byteAt A.indexB (n * c + i))) fun q hq mem => ?_
      exact other n hn k (List.mem_range.mp hk) q (List.mem_range.mp hq) mem fun same => ne same.2.1
    · refine foldl_once (fun mem : Memory => mem (byteAt A.indexB (n * c + i)))
        (· + BitVec.ofNat 8 (i / A.spN * A.spM)) List.nodup_range
        (List.mem_range.mpr (Nat.mod_lt i spN)) (fun q hq ne mem => ?_) step mem
      exact other n hn _ column q (List.mem_range.mp hq) mem fun same => ne same.2.2
  unfold recalculate
  rw [one, List.range_one]
  refine foldl_once (fun mem : Memory => mem (byteAt A.indexB (n * c + i)))
    (· + BitVec.ofNat 8 (i / A.spN * A.spM)) List.nodup_range (List.mem_range.mpr hn)
    (fun i' hi' ne mem => ?_) row mem
  refine foldl_kept (fun mem : Memory => mem (byteAt A.indexB (n * c + i))) (l := [0])
    (fun j hj mem => ?_) mem
  obtain rfl := List.mem_singleton.mp hj
  refine foldl_kept (fun mem : Memory => mem (byteAt A.indexB (n * c + i))) (fun k hk mem => ?_) mem
  refine foldl_kept (fun mem : Memory => mem (byteAt A.indexB (n * c + i))) (fun q hq mem => ?_) mem
  exact other i' (List.mem_range.mp hi') k (List.mem_range.mp hk) q (List.mem_range.mp hq) mem
    fun same => ne same.1

end

/-! ## A pass -/

namespace AspBArgs

variable (A : AspBArgs)

/-- The entries of a row of the compressed matrix. -/
def rowLength : Nat := A.P / A.spM * A.spN

/-- The memory holds the arrays of the header, with the indices of `matrix_b_index_uint8`. -/
def HoldsPlain (nonzero : Byte → Bool) (matrix : DenseMatrix Byte) (mem : Memory) : Prop :=
  ∃ compactVals indexMatrix, extractNmSparsity nonzero matrix A.spN A.spM =
    some (compactVals, indexMatrix) ∧
    (∀ k < compactVals.length, compactVals[k]? = some (mem (byteAt A.matrixB k))) ∧
    ∀ k < indexMatrix.flatten.length, indexMatrix.flatten.getD k 0 = (mem (byteAt A.indexB k)).toNat

/-- What the kernel needs: a row of the compressed matrix fits the registers, the counters do not
wrap, and the matrices and the indices do not overlap. -/
structure FitsPlain (V : Vlsu) (nonzero : Byte → Bool) (matrix : DenseMatrix Byte) : Prop where
  vlenb_pos : 0 < V.vlenb
  width_le : V.intfWidth ≤ V.vlenb
  elements : Sew.e16.bytes ≤ V.intfWidth
  aligned : Sew.e16.bytes ∣ A.matrixC.toNat
  spN_pos : 0 < A.spN
  columns : A.P % A.spM = 0
  row_pos : 0 < A.rowLength
  group : A.rowLength ≤ 4 * V.vlenb
  a_lt : A.M * A.N < 2 ^ 32
  b_lt : A.N * (A.P * A.spN) < 2 ^ 32
  c_le : A.matrixC.toNat + 2 * (A.M * A.P) ≤ 2 ^ 32
  inner_pos : 0 < A.N
  index_small : A.spM ≤ 2 ^ 8
  height : matrix.rows.length = A.N
  width : matrix.cols = A.P
  sparse : NmSparse nonzero matrix A.spN A.spM
  a_apart : A.Apart A.matrixA (A.M * A.N)
  b_apart : A.Apart A.matrixB (A.N * A.rowLength)
  index_apart : A.Apart A.indexB (A.N * A.rowLength)
  a_index : ∀ k < A.N * A.rowLength, ∀ i < A.M * A.N, byteAt A.matrixA i ≠ byteAt A.indexB k
  b_index : ∀ k < A.N * A.rowLength, ∀ i < A.N * A.rowLength, byteAt A.matrixB i ≠ byteAt A.indexB k

end AspBArgs

section

variable {V : Vlsu} {data : Buffer} {F : Flexfloat} {A : AspBArgs} {nonzero : Byte → Bool}
  {matrix : DenseMatrix Byte} {s : Core} {m n : Nat}

theorem AspBArgs.FitsPlain.product_lt (fits : A.FitsPlain V nonzero matrix) {n : Nat}
    (hn : n < A.N) :
    n * (A.P * A.spN) + A.P * A.spN < 2 ^ 32 := by
  have le := Nat.mul_le_mul_right (A.P * A.spN) (Nat.succ_le_of_lt hn)
  rw [Nat.succ_mul] at le
  exact Nat.lt_of_le_of_lt le fits.b_lt

theorem AspBArgs.FitsPlain.compactCols (fits : A.FitsPlain V nonzero matrix) :
    A.compactCols = A.rowLength := by
  have product := fits.product_lt fits.inner_pos
  have small : u32 (A.P * A.spN) = A.P * A.spN := u32_of_lt (by omega)
  unfold AspBArgs.compactCols AspBArgs.rowLength
  rw [small]
  exact (Nat.div_mul_right_comm (Nat.dvd_of_mod_eq_zero fits.columns) _).symm

theorem AspBArgs.rowLength_le (A : AspBArgs) : A.rowLength ≤ A.P * A.spN := by
  unfold AspBArgs.rowLength
  exact Nat.mul_le_mul_right _ (Nat.div_le_self _ _)

theorem AspBArgs.FitsPlain.counter (fits : A.FitsPlain V nonzero matrix) :
    A.N * A.rowLength < 2 ^ 32 :=
  Nat.lt_of_le_of_lt (Nat.mul_le_mul_left _ A.rowLength_le) fits.b_lt

/-- Where a row of the compressed matrix begins. -/
theorem AspBArgs.FitsPlain.offset (fits : A.FitsPlain V nonzero matrix) (hn : n < A.N) :
    u32 (0 + u32 (u32 (n * A.P) * A.spN) / A.spM) = n * A.rowLength := by
  have product := fits.product_lt hn
  have le := Nat.mul_le_mul_left (n * A.P) fits.spN_pos
  rw [Nat.mul_assoc, Nat.mul_assoc] at le
  have small : u32 (n * A.P) = n * A.P := u32_of_lt (by rw [Nat.mul_one] at le; omega)
  have small' : u32 (n * (A.P * A.spN)) = n * (A.P * A.spN) := u32_of_lt (by omega)
  have divides : A.spM ∣ A.P * A.spN := Dvd.dvd.mul_right (Nat.dvd_of_mod_eq_zero fits.columns) _
  have row : A.P * A.spN / A.spM = A.rowLength :=
    (Nat.div_mul_right_comm (Nat.dvd_of_mod_eq_zero fits.columns) _).symm
  have counter := fits.counter
  have le' := Nat.mul_le_mul_right A.rowLength (Nat.le_of_lt hn)
  rw [small, Nat.mul_assoc, small', Nat.mul_div_assoc _ divides, row, Nat.zero_add]
  exact u32_of_lt (by omega)

/-- The byte of an element in the registers. -/
theorem element_place {base i k : Nat} : base + 2 * i + k = base + (i * Sew.e16.bytes + k) := by
  rw [Nat.add_assoc, Nat.mul_comm i]
  rfl

/-- The byte of an element in row `m` of `C`. -/
theorem element_byte {i b : Nat} {regs : Buffer} :
    byteAt (elementAddr .e16 (byteAt A.matrixC (2 * (m * A.P))) (V.indexAt regs 8 1 i)) b =
      byteAt A.matrixC (2 * (m * A.P + (regs (8 * V.vlenb + i)).toNat) + b) := by
  rw [Vlsu.elementAddr_eq, byteAt_add, byteAt_add, indexAt_byte, Nat.mul_add, Nat.add_assoc]
  rfl

/-- A gather of entries of row `m` of `C`, in front of its destination. -/
theorem vluxei8_spec (V : Vlsu) (data : Buffer) (A : AspBArgs) (m : Nat) (s : Core) (vl : Nat)
    (fits : Sew.e16.bytes ≤ V.intfWidth)
    (aligned : Sew.e16.bytes ∣ (byteAt A.matrixC (2 * (m * A.P))).toNat) (room : vl ≤ 8 * V.vlenb) :
    ∃ t, vluxei8 V data s vl 16 (byteAt A.matrixC (2 * (m * A.P))) 8 = some t ∧ t.mem = s.mem ∧
      (∀ r < 16 * V.vlenb, t.regs r = s.regs r) ∧
      ∀ i < vl, loadLe t.regs (16 * V.vlenb + 2 * i) 2 =
        A.c s.mem m (s.regs (8 * V.vlenb + i)).toNat := by
  have indices : 8 * V.vlenb + vl * Sew.e8.bytes ≤ 16 * V.vlenb + 0 := by
    have bytes : vl * Sew.e8.bytes = vl := Nat.mul_one vl
    omega
  have run : ∃ t, V.vluxei .e16 ⟨vl, 0⟩ (byteAt A.matrixC (2 * (m * A.P))) 8 16 data s.regs s.mem
      .e8 = some t ∧ Vlsu.Gathered .e16 (byteAt A.matrixC (2 * (m * A.P)))
        (fun i => elementAddr .e16 (byteAt A.matrixC (2 * (m * A.P))) (V.indexAt s.regs 8 1 i))
        (16 * V.vlenb)
        s.regs s.mem vl t := by
    rcases Vlsu.load_gathered (e := .e16) (c := ⟨vl, 0⟩) (Or.inr indices) data s.mem with
      ⟨-, t, ran, gathered⟩ | ⟨⟨i, -, outside⟩, -⟩
    · exact ⟨t, ran, gathered⟩
    · exact absurd (Vlsu.inChunk_of_dvd fits aligned) outside
  obtain ⟨t, ran, gathered⟩ := run
  refine ⟨⟨t.regs, t.mem⟩, congrArg (Option.map _) ran, gathered.source,
    fun r hr => gathered.kept r (Or.inl hr), fun i hi => loadLe_eq_iff.mpr fun k hk => ?_⟩
  have byte := gathered.loaded i hi k hk
  rw [element_byte] at byte
  rw [element_place]
  exact byte

/-- A scatter of the entries of row `m` of `C`. -/
theorem vsuxei8_spec (data : Buffer) {u : Core} {vl : Nat}
    (scatters : V.Scatters .e16 .e8 vl (byteAt A.matrixC (2 * (m * A.P))) 8 16 u.regs) {i : Nat}
    (hi : i < vl) :
    A.c (vsuxei8 V data u vl 16 (byteAt A.matrixC (2 * (m * A.P))) 8).mem m
      (u.regs (8 * V.vlenb + i)).toNat = loadLe u.regs (16 * V.vlenb + 2 * i) 2 := by
  refine loadLe_eq_iff.mpr fun k hk => ?_
  have byte := (Vlsu.store_scattered 16 scatters data u.mem).written i hi k hk
  rw [element_place, ← byte]
  exact congrArg _ element_byte.symm

/-- The row of `C` of a pass. -/
theorem AspBArgs.FitsPlain.row_addr (fits : A.FitsPlain V nonzero matrix) (hm : m < A.M) :
    2 * u32 (m * A.P) + 2 * 0 = 2 * (m * A.P) ∧
      Sew.e16.bytes ∣ (byteAt A.matrixC (2 * (m * A.P))).toNat ∧
      (byteAt A.matrixC (2 * (m * A.P))).toNat ≤ 2 ^ 32 := by
  have size := fits.c_le
  have row := Nat.mul_le_mul_right A.P (Nat.succ_le_of_lt hm)
  rw [Nat.succ_mul] at row
  have small : u32 (m * A.P) = m * A.P := u32_of_lt (by omega)
  have place : (byteAt A.matrixC (2 * (m * A.P))).toNat = A.matrixC.toNat + 2 * (m * A.P) := by
    unfold byteAt
    rw [BitVec.toNat_add, BitVec.toNat_ofNat, Nat.add_mod_mod]
    exact Nat.mod_eq_of_lt (by omega)
  rw [small, place]
  exact ⟨rfl, Nat.dvd_add fits.aligned (Nat.dvd_mul_right 2 _), by omega⟩

theorem vsuxei8_kept (data : Buffer) {u : Core} {vl : Nat} {x : BitVec 64}
    (outside : ∀ i < vl, ∀ b < 2,
    x ≠ byteAt A.matrixC (2 * (m * A.P + (u.regs (8 * V.vlenb + i)).toNat) + b)) :
    (vsuxei8 V data u vl 16 (byteAt A.matrixC (2 * (m * A.P))) 8).mem x = u.mem x := by
  unfold vsuxei8
  rw [Vlsu.vsuxei_eq]
  exact storeLoop_kept fun i hi b hb => ne_of_ne_of_eq (outside i hi b hb) element_byte.symm

/-- What the loads of a pass leave in the registers. -/
structure LoadedPlain (V : Vlsu) (A : AspBArgs) (n : Nat) (s t : Core) : Prop where
  mem : t.mem = s.mem
  values : ∀ i < A.rowLength, t.regs (0 * V.vlenb + i) =
    s.mem (byteAt A.matrixB (n * A.rowLength + i))
  indices : ∀ i < A.rowLength,
    t.regs (8 * V.vlenb + i) = s.mem (byteAt A.indexB (n * A.rowLength + i))

theorem loadedPlain (data : Buffer) (fits : A.FitsPlain V nonzero matrix) (n : Nat) (s : Core) :
    LoadedPlain V A n s
      ((s.vle8 V data A.rowLength (byteAt A.matrixB (n * A.rowLength)) 0).vle8 V data
      A.rowLength (byteAt A.indexB (n * A.rowLength)) 8) := by
  have width := fits.width_le
  have group := fits.group
  have room := fits.vlenb_pos
  obtain ⟨mem, values, indices, -⟩ :=
    two_loads V data s A.rowLength (byteAt A.matrixB (n * A.rowLength))
    (byteAt A.indexB (n * A.rowLength)) (by omega)
  refine ⟨mem, fun i hi => ?_, fun i hi => ?_⟩
  · rw [Nat.zero_mul, Nat.zero_add, values i hi, byteAt_add]
  · rw [indices i hi, byteAt_add]

/-- The registers in front of the scatter of a pass. -/
theorem rvvPass_store (data : Buffer) (F : Flexfloat) (fits : A.FitsPlain V nonzero matrix)
    (hm : m < A.M) (hn : n < A.N) (s : Core) :
    ∃ u, rvvPass V data F A A.rowLength A.rowLength 0 m n s =
        some (vsuxei8 V data u A.rowLength 16 (byteAt A.matrixC (2 * (m * A.P))) 8) ∧
          u.mem = s.mem ∧
      (∀ i < A.rowLength, u.regs (8 * V.vlenb + i) =
        s.mem (byteAt A.indexB (n * A.rowLength + i))) ∧
      ∀ i < A.rowLength, loadLe u.regs (16 * V.vlenb + 2 * i) 2 =
        if n = 0 then F.mul (A.a s.mem m 0) (s.mem (byteAt A.matrixB (n * A.rowLength + i)))
        else F.macc (A.a s.mem m n) (s.mem (byteAt A.matrixB (n * A.rowLength + i)))
          (A.c s.mem m (s.mem (byteAt A.indexB (n * A.rowLength + i))).toNat) := by
  have group := fits.group
  have room := fits.vlenb_pos
  obtain ⟨address, aligned, -⟩ := fits.row_addr hm
  have scalar := flw_a (s := s) fits.a_lt hm hn
  have lanes : vsetvli (4 * V.vlenb) A.rowLength = A.rowLength := Nat.min_eq_left group
  have front : 0 * V.vlenb + A.rowLength ≤ 16 * V.vlenb := by omega
  obtain ⟨t, ht⟩ : ∃ t, t =
    (s.vle8 V data A.rowLength (byteAt A.matrixB (n * A.rowLength)) 0).vle8 V data
    A.rowLength (byteAt A.indexB (n * A.rowLength)) 8 := ⟨_, rfl⟩
  obtain ⟨mem, value, index⟩ : LoadedPlain V A n s t := ht ▸ loadedPlain data fits n s
  unfold rvvPass
  dsimp only
  rw [address, fits.offset hn, lanes, ← ht]
  by_cases first : n = 0
  · subst first
    rw [if_pos rfl]
    simp only [if_pos]
    obtain ⟨kept, written, -⟩ := vectorLoop_spec (fun x _ => F.mul (A.a s.mem m 0) x)
      (t.vmvZero V A.rowLength 16).regs (fun i => i) front (fun _ _ _ _ => rfl)
      (fun i _ j hj => Nat.ne_of_lt hj)
    refine ⟨_, rfl, mem, fun i hi => ?_, fun i hi => ?_⟩
    · unfold Core.vfwmul
      rw [scalar]
      exact (kept _ (by omega)).trans ((vmvZero_of_lt (by omega)).trans (index i hi))
    · unfold Core.vfwmul
      rw [scalar]
      refine (written i hi).trans ?_
      rw [vmvZero_of_lt (by omega), value i hi]
  · rw [if_neg first]
    simp only [if_neg first]
    obtain ⟨l, ran, source, before, gathered⟩ :=
      vluxei8_spec V data A m t A.rowLength fits.elements aligned (by omega)
    obtain ⟨kept, written, -⟩ := vectorLoop_spec (F.macc (A.a s.mem m n)) l.regs (fun i => i) front
      (fun _ _ _ _ => rfl) (fun i _ j hj => Nat.ne_of_lt hj)
    rw [ran]
    refine ⟨_, rfl, source.trans mem, fun i hi => ?_, fun i hi => ?_⟩
    · unfold Core.vfwmacc
      rw [scalar]
      exact (kept _ (by omega)).trans ((before _ (by omega)).trans (index i hi))
    · unfold Core.vfwmacc
      rw [scalar]
      refine (written i hi).trans ?_
      rw [before _ (by omega), value i hi, gathered i hi, mem, index i hi]

/-- A row of the compressed matrix in the memory, as values and columns. -/
abbrev StoredRow (nonzero : Byte → Bool) (matrix : DenseMatrix Byte) (A : AspBArgs) (mem : Memory)
    (n : Nat) :
    Prop :=
  RowOf nonzero matrix n A.rowLength (fun i => mem (byteAt A.matrixB (n * A.rowLength + i)))
    fun i => (mem (byteAt A.indexB (n * A.rowLength + i))).toNat

/-- The scatter of a row reaches different elements. -/
theorem StoredRow.scatters (rows : StoredRow nonzero matrix A s.mem n)
    (fits : A.FitsPlain V nonzero matrix) (hm : m < A.M) {u : Core}
    (index : ∀ i < A.rowLength,
      u.regs (8 * V.vlenb + i) = s.mem (byteAt A.indexB (n * A.rowLength + i))) :
    V.Scatters .e16 .e8 A.rowLength (byteAt A.matrixC (2 * (m * A.P))) 8 16 u.regs := by
  obtain ⟨-, -, low⟩ := fits.row_addr hm
  have group := fits.group
  have value : ∀ i < A.rowLength, (V.indexAt u.regs 8 Sew.e8.bytes i).toNat =
      (s.mem (byteAt A.indexB (n * A.rowLength + i))).toNat := by
    intro i hi
    rw [← index i hi]
    exact indexAt_byte
  refine ⟨fun p hp i hi same => ?_, fun p hp => ?_, ?_⟩
  · have equal := congrArg BitVec.toNat same
    rw [value p hp, value i hi] at equal
    rcases Nat.lt_trichotomy p i with before | here | after
    · exact absurd equal (rows.apart i hi p before)
    · exact here
    · exact absurd equal.symm (rows.apart p hp i after)
  · have inside : (s.mem (byteAt A.indexB (n * A.rowLength + p))).toNat < 2 ^ 8 := BitVec.isLt _
    have bytes : Sew.e16.bytes = 2 := rfl
    rw [value p hp, bytes]
    omega
  · have bytes : A.rowLength * Sew.e8.bytes = A.rowLength := Nat.mul_one _
    omega

/-- Row `n` is accumulated in row `m` of `C`, whose other columns stay; `L` bounds the indices. -/
theorem rvvPass_step (data : Buffer) (F : Flexfloat) (fits : A.FitsPlain V nonzero matrix)
    (hm : m < A.M) (hn : n < A.N) {L : Nat}
    (small : ∀ i < A.rowLength, (s.mem (byteAt A.indexB (n * A.rowLength + i))).toNat < L) :
    ∃ t, rvvPass V data F A A.rowLength A.rowLength 0 m n s = some t ∧
      (∀ x, (∀ j < L, ∀ b < 2, x ≠ byteAt A.matrixC (2 * (m * A.P + j) + b)) → t.mem x = s.mem x) ∧
      (StoredRow nonzero matrix A s.mem n → ∀ j < A.P, A.c t.mem m j =
        if nonzero (matrix.entry n j) = true then
          if n = 0 then F.mul (A.a s.mem m 0) (matrix.entry 0 j)
          else F.macc (A.a s.mem m n) (matrix.entry n j) (A.c s.mem m j)
        else A.c s.mem m j) := by
  have size := fits.c_le
  have row := Nat.mul_le_mul_right A.P (Nat.succ_le_of_lt hm)
  rw [Nat.succ_mul] at row
  obtain ⟨u, ran, mem, index, sums⟩ := rvvPass_store data F fits hm hn s
  refine ⟨_, ran, ?_⟩
  obtain ⟨t, ht⟩ : ∃ t, t = vsuxei8 V data u A.rowLength 16 (byteAt A.matrixC (2 * (m * A.P))) 8 :=
    ⟨_, rfl⟩
  have kept : ∀ x, (∀ i < A.rowLength, ∀ b < 2, x ≠ byteAt A.matrixC
      (2 * (m * A.P + (s.mem (byteAt A.indexB (n * A.rowLength + i))).toNat) + b)) →
        t.mem x = s.mem x := by
    intro x outside
    rw [ht, ← mem]
    refine vsuxei8_kept data fun i hi b hb => ?_
    rw [index i hi]
    exact outside i hi b hb
  rw [← ht]
  refine ⟨fun x outside => kept x fun i hi b hb => outside _ (small i hi) b hb, fun rows j hj => ?_⟩
  by_cases marked : nonzero (matrix.entry n j) = true
  · rw [if_pos marked]
    obtain ⟨i, hi, rfl⟩ := rows.cover j (fits.width ▸ hj) marked
    have value := rows.value i hi
    have stored := vsuxei8_spec (i := i) data (rows.scatters fits hm index) hi
    rw [← ht, index i hi] at stored
    rw [stored, sums i hi]
    split
    · rename_i first
      subst first
      rw [value]
    · rw [value]
  · rw [if_neg marked]
    refine loadLe_eq_iff.mpr fun k hk => kept _ fun i hi b hb same => marked ?_
    have inside : (s.mem (byteAt A.indexB (n * A.rowLength + i))).toNat < 2 ^ 8 := BitVec.isLt _
    have place := byteAt_inj (by omega) (by omega) same
    have column : j = (s.mem (byteAt A.indexB (n * A.rowLength + i))).toNat := by omega
    rw [column]
    exact rows.marked i hi

/-! ## The kernel computes the product of 256 columns -/

/-- Behind the first pass the indices are the columns, where these are words of eight bits. -/
theorem AspBArgs.HoldsPlain.row {mem : Memory} (held : A.HoldsPlain nonzero matrix mem)
    (fits : A.FitsPlain V nonzero matrix) (narrow : A.P ≤ 2 ^ 8) (hn : n < A.N) :
    StoredRow nonzero matrix A (recalculate A A.rowLength mem) n := by
  obtain ⟨compactVals, indexMatrix, extracted, values, indices⟩ := held
  have columns : matrix.cols % A.spM = 0 := fits.width ▸ fits.columns
  have hn' : n < matrix.rows.length := fits.height ▸ hn
  rw [extractNmSparsity_eq fits.sparse columns fits.index_small, Option.some_inj,
    Prod.mk.injEq] at extracted
  obtain ⟨rfl, rfl⟩ := extracted
  have flat :
      (matrix.rows.map fun row =>
        (rowBlocks A.spM matrix.cols row).flatMap (positions nonzero)).flatten =
      (blocks matrix A.spM).flatMap (positions nonzero) := by
    rw [← List.flatMap_def]
    exact List.flatMap_assoc.symm
  have length := fits.sparse.length_indices
  have runs := fits.sparse.row_places fits.spN_pos columns hn'
  have entries := fun i => fits.sparse.row_values (n := n) (i := i) fits.spN_pos columns
  have size : (matrix.flatten.filter nonzero).length = A.N * A.rowLength := by
    unfold DenseMatrix.flatten
    rw [List.filter_flatten, ← List.flatMap_def,
      length_flatMap_const _ fun row hrow => fits.sparse.row_filter fits.spN_pos columns hrow,
      fits.height, fits.width]
    rfl
  have count : A.P / A.spM * A.spN = A.rowLength := rfl
  rw [flat] at indices
  rw [fits.height, fits.width, count] at length
  rw [fits.width, count] at runs
  rw [fits.width, count] at entries
  have column : ∀ i < A.rowLength, (recalculate A A.rowLength mem
      (byteAt A.indexB (n * A.rowLength + i))).toNat = i / A.spN * A.spM +
        ((blocks matrix A.spM).flatMap (positions nonzero)).getD (n * A.rowLength + i) 0 := by
    intro i hi
    have inside : i / A.spN * A.spM +
        ((blocks matrix A.spM).flatMap (positions nonzero)).getD (n * A.rowLength + i) 0 <
        matrix.rows[n].length := by
      apply lt_of_mem_positions nonzero
      rw [← runs]
      exact List.mem_map_of_mem (List.mem_range.mpr hi)
    rw [matrix.shape _ (List.getElem_mem hn'), fits.width] at inside
    have stored := indices (n * A.rowLength + i) (length ▸ block_lt hn hi)
    rw [recalculate_index fits.compactCols (Dvd.intro_left _ rfl) fits.counter hn hi,
      BitVec.toNat_add, BitVec.toNat_ofNat, ← stored, Nat.add_mod_mod, Nat.mod_eq_of_lt (by omega),
      Nat.add_comm]
  rw [← List.map_congr_left fun i hi => column i (List.mem_range.mp hi)] at runs
  refine .of_runs hn' runs fun i hi => ?_
  have entry := entries i hi
  rw [List.getElem?_eq_getElem hn', Option.bind_some] at entry
  have kept : recalculate A A.rowLength mem (byteAt A.matrixB (n * A.rowLength + i)) =
      mem (byteAt A.matrixB (n * A.rowLength + i)) :=
    recalculate_kept fits.compactCols fits.row_pos fits.counter fun k hk =>
      fits.b_index k hk _ (block_lt hn hi)
  rw [← entry, kept]
  exact values _ (size ▸ block_lt hn hi)

variable {mem : Memory} {L : Nat}

/-- The entries of `C` in the first `L` columns. -/
def Untouched (A : AspBArgs) (L : Nat) (x : BitVec 64) : Prop :=
  ∀ m < A.M, ∀ j < L, ∀ b < 2, x ≠ byteAt A.matrixC (2 * (m * A.P + j) + b)

theorem untouched_of_outside (le : L ≤ A.P) {x : BitVec 64}
    (outside : ∀ k < 2 * (A.M * A.P), x ≠ byteAt A.matrixC k) : Untouched A L x := by
  intro m hm j hj b hb
  have inside := block_lt hm (Nat.lt_of_lt_of_le hj le)
  exact outside _ (by omega)

/-- The first `m` rows of `C` are done, and row `m` has the first `n` rows of `B`. -/
structure Stage (F : Flexfloat) (nonzero : Byte → Bool) (matrix : DenseMatrix Byte) (A : AspBArgs)
    (L : Nat) (mem : Memory) (m n : Nat) (s : Core) : Prop where
  kept : ∀ x, Untouched A L x → s.mem x = mem x
  sums : (∀ n < A.N, StoredRow nonzero matrix A mem n) → (∀ m < A.M, ∀ j < A.P, A.c mem m j = 0) →
    ∀ m' < A.M, ∀ j < A.P, A.c s.mem m' j =
      accumulate F (fun n => nonzero (matrix.entry n j)) (A.a mem m') (fun n => matrix.entry n j)
        (if m' < m then A.N else if m' = m then n else 0)

theorem Stage.next (data : Buffer) (stage : Stage F nonzero matrix A L mem m n s)
    (fits : A.FitsPlain V nonzero matrix) (le : L ≤ A.P)
    (small : ∀ n < A.N, ∀ i < A.rowLength, (mem (byteAt A.indexB (n * A.rowLength + i))).toNat < L)
    (hm : m < A.M) (hn : n < A.N) : ∃ t,
      rvvPass V data F A A.rowLength A.rowLength 0 m n s = some t ∧
      Stage F nonzero matrix A L mem m (n + 1) t := by
  have size := fits.c_le
  have value : ∀ i < A.rowLength,
      s.mem (byteAt A.matrixB (n * A.rowLength + i)) =
        mem (byteAt A.matrixB (n * A.rowLength + i)) :=
    fun i hi =>
      stage.kept _ (untouched_of_outside le fun k hk => fits.b_apart k hk _ (block_lt hn hi))
  have index : ∀ i < A.rowLength,
      s.mem (byteAt A.indexB (n * A.rowLength + i)) = mem (byteAt A.indexB (n * A.rowLength + i)) :=
    fun i hi =>
      stage.kept _ (untouched_of_outside le fun k hk => fits.index_apart k hk _ (block_lt hn hi))
  have scalar : ∀ k < A.N, A.a s.mem m k = A.a mem m k :=
    fun k hk =>
      stage.kept _ (untouched_of_outside le fun i hi => fits.a_apart i hi _ (block_lt hm hk))
  obtain ⟨t, ran, kept, row⟩ :=
    rvvPass_step data F fits hm hn fun i hi => (index i hi).symm ▸ small n hn i hi
  refine ⟨t, ran, fun x outside => ?_, fun rows zero m' hm' j hj => ?_⟩
  · exact (kept x (outside m hm)).trans (stage.kept x outside)
  · have before := stage.sums rows zero m' hm' j hj
    by_cases here : m' = m
    · subst here
      rw [if_neg (Nat.lt_irrefl m'), if_pos rfl] at before ⊢
      have stored := (rows n hn).congr value fun i hi => congrArg BitVec.toNat (index i hi)
      rw [row stored j hj, scalar n hn, scalar 0 fits.inner_pos]
      unfold accumulate
      by_cases first : n = 0
      · subst first
        rw [before]
      · rw [if_neg first, if_neg first, before]
    · have same : A.c t.mem m' j = A.c s.mem m' j := by
        refine loadLe_eq_iff.mpr fun k hk => kept _ fun i hi b hb same => here ?_
        have inside := block_lt hm' hj
        have inside' := block_lt hm (Nat.lt_of_lt_of_le hi le)
        have place := byteAt_inj (by omega) (by omega) same
        have entry : m' * A.P + j = m * A.P + i := by omega
        exact (block_inj hj (Nat.lt_of_lt_of_le hi le) entry).1
      rw [same, before, if_neg here, if_neg here]

/-- The loop over `m`. -/
theorem rvvRows_spec (data : Buffer) (F : Flexfloat) (fits : A.FitsPlain V nonzero matrix)
    (le : L ≤ A.P)
    (small : ∀ n < A.N, ∀ i < A.rowLength,
      (s.mem (byteAt A.indexB (n * A.rowLength + i))).toNat < L) :
    ∃ t, rvvRows V data F A A.rowLength A.rowLength 0 s = some t ∧
      Stage F nonzero matrix A L s.mem A.M 0 t := by
  refine foldlM_total (fun m t => Stage F nonzero matrix A L s.mem m 0 t) ⟨fun _ _ => rfl, ?_⟩
    fun m hm t stage => ?_
  · intro _ zero m' hm' j hj
    rw [zero m' hm' j hj, if_neg (Nat.not_lt_zero m')]
    split
    · rfl
    · rfl
  · obtain ⟨u, ran, done⟩ := foldlM_total (fun n t => Stage F nonzero matrix A L s.mem m n t) stage
      fun n hn t stage => stage.next data fits le small hm hn
    refine ⟨u, ran, done.kept, fun rows zero m' hm' j hj => ?_⟩
    rw [done.sums rows zero m' hm' j hj]
    congr 1
    rcases Nat.lt_trichotomy m' m with before | here | after
    · rw [if_pos before, if_pos (Nat.lt_succ_of_lt before)]
    · rw [if_neg (by omega), if_pos here, if_pos (by omega)]
    · rw [if_neg (by omega), if_neg (by omega), if_neg (by omega), ite_self]

/-- The kernel on the header of an N:M sparse matrix with an index a byte.  It ends, and changes
nothing but `C` and the indices, to which it adds the first columns of their blocks.  Where `C` has
at most 256 columns, zero as `main` leaves them, these become the product of `A` and the matrix.
The columns from 256 on are never written. -/
theorem scatter_product (fits : A.FitsPlain V nonzero matrix)
    (held : A.HoldsPlain nonzero matrix s.mem) (data : Buffer) (F : Flexfloat) :
    ∃ t, spatzAspBMatmulFp16 V data F A 1 s = some t ∧
      (A.P ≤ 2 ^ 8 → (∀ m < A.M, ∀ j < A.P, A.c s.mem m j = 0) →
        ∀ m < A.M, ∀ j < A.P, A.c t.mem m j = sparseProduct F A nonzero matrix s.mem m j) ∧
      (∀ m < A.M, ∀ j < A.P, 2 ^ 8 ≤ j → A.c t.mem m j = A.c s.mem m j) ∧
      (∀ n < A.N, ∀ i < A.rowLength, t.mem (byteAt A.indexB (n * A.rowLength + i)) =
        s.mem (byteAt A.indexB (n * A.rowLength + i)) + BitVec.ofNat 8 (i / A.spN * A.spM)) ∧
      ∀ x, (∀ k < 2 * (A.M * A.P), x ≠ byteAt A.matrixC k) →
        (∀ k < A.N * A.rowLength, x ≠ byteAt A.indexB k) → t.mem x = s.mem x := by
  have size := fits.c_le
  have group := fits.group
  have counter := fits.counter
  have row := Nat.le_mul_of_pos_left A.rowLength fits.inner_pos
  obtain ⟨mem, hmem⟩ : ∃ mem, mem = recalculate A A.rowLength s.mem := ⟨_, rfl⟩
  have first : ∀ x, (∀ k < A.N * A.rowLength, x ≠ byteAt A.indexB k) → mem x = s.mem x :=
    fun x outside => hmem ▸ recalculate_kept fits.compactCols fits.row_pos fits.counter outside
  have stored : A.P ≤ 2 ^ 8 → ∀ n < A.N, StoredRow nonzero matrix A mem n :=
    fun narrow n hn => hmem ▸ held.row fits narrow hn
  have small : ∀ n < A.N, ∀ i < A.rowLength,
      (mem (byteAt A.indexB (n * A.rowLength + i))).toNat < min A.P (2 ^ 8) := by
    intro n hn i hi
    refine lt_min ?_ (BitVec.isLt _)
    rcases Nat.lt_or_ge (2 ^ 8) A.P with wide | narrow
    · exact Nat.lt_trans (BitVec.isLt _) wide
    · exact fits.width ▸ (stored narrow n hn).lt i hi
  obtain ⟨t, ran, stage⟩ :=
    rvvRows_spec (s := ⟨s.regs, mem⟩) data F fits (Nat.min_le_left _ _) small
  have strip : rvvStrip V data F A A.rowLength A.rowLength 0 (s, 0) = some (t, A.rowLength) := by
    unfold rvvStrip
    dsimp only
    rw [if_pos fits.row_pos.ne, ← hmem, ran]
    rfl
  have outside : ∀ x, (∀ k < 2 * (A.M * A.P), x ≠ byteAt A.matrixC k) → t.mem x = mem x :=
    fun x away => stage.kept x (untouched_of_outside (Nat.min_le_left _ _) away)
  have apart : ∀ m < A.M, ∀ j < A.P, ∀ b < 2, ∀ k < A.N * A.rowLength,
      byteAt A.matrixC (2 * (m * A.P + j) + b) ≠ byteAt A.indexB k := by
    intro m hm j hj b hb k hk
    have inside := block_lt hm hj
    exact (fits.index_apart _ (by omega) k hk).symm
  have sums : ∀ m < A.M, ∀ j < A.P, A.c mem m j = A.c s.mem m j :=
    fun m hm j hj => loadLe_eq_iff.mpr fun b hb => first _ (apart m hm j hj b hb)
  refine ⟨t, ?_, fun narrow zero m hm j hj => ?_, fun m hm j hj wide => ?_, fun n hn i hi => ?_,
    fun x away away' => (outside x away).trans (first x away')⟩
  · unfold spatzAspBMatmulFp16
    rw [fits.compactCols, stripMine_single (by omega) (by omega), Option.bind_some, strip]
    rfl
  · have done := stage.sums (stored narrow)
      (fun m hm j hj => (sums m hm j hj).trans (zero m hm j hj)) m hm j hj
    rw [done, if_pos hm]
    refine accumulate_congr (fun n hn => first _ fun k hk => fits.a_index k hk _ (block_lt hm hn))
      fun _ _ => rfl
  · refine (loadLe_eq_iff.mpr fun b hb => stage.kept _ fun m' hm' j' hj' b' hb' same => ?_).trans
      (sums m hm j hj)
    have inside := block_lt hm hj
    have inside' := block_lt hm' (Nat.lt_of_lt_of_le hj' (Nat.min_le_left _ _))
    have place := byteAt_inj (by omega) (by omega) same
    have entry : m * A.P + j = m' * A.P + j' := by omega
    have columns := (block_inj hj (Nat.lt_of_lt_of_le hj' (Nat.min_le_left _ _)) entry).2
    have narrow := Nat.lt_of_lt_of_le hj' (Nat.min_le_right _ _)
    omega
  · rw [outside _ fun k hk => fits.index_apart k hk _ (block_lt hn hi), hmem]
    exact recalculate_index fits.compactCols (Dvd.intro_left _ rfl) fits.counter hn hi

end

/-! ### Two rows of two blocks -/

/-- Ones, apart from the indices and `C`. -/
def oneByTwoPlain : Memory := fun a =>
  if a < 0x20 then 0x3C else ([0, 1, 1, 3, 0, 2, 1, 2] : List Byte).getD (a.toNat - 0x20) 0

theorem scatter_product_oneByTwo : ∃ t,
    spatzAspBMatmulFp16 narrow (fun _ => 0) ones oneByTwo 1 ⟨fun _ => 0, oneByTwoPlain⟩ = some t ∧
      (∀ j < 8, oneByTwo.c t.mem 0 j =
        [0x4000, 0x3C00, 0x3C00, 0, 0, 0x4000, 0x3C00, 0x3C00].getD j 0) ∧
      ∀ i < 4, t.mem (byteAt oneByTwo.indexB (1 * 4 + i)) = [0, 2, 5, 6].getD i 0 := by
  have fits : oneByTwo.FitsPlain narrow (· ≠ 0) twoRows :=
    { vlenb_pos := by decide
      width_le := by decide
      elements := by decide
      aligned := by decide
      spN_pos := by decide
      columns := by decide
      row_pos := by decide
      group := by decide
      a_lt := by decide
      b_lt := by decide
      c_le := by decide
      inner_pos := by decide
      index_small := by decide
      height := rfl
      width := rfl
      sparse := by unfold NmSparse; decide
      a_apart := by unfold MatmulArgs.Apart; decide
      b_apart := by unfold MatmulArgs.Apart; decide
      index_apart := by unfold MatmulArgs.Apart; decide
      a_index := by decide
      b_index := by decide }
  have held : oneByTwo.HoldsPlain (· ≠ 0) twoRows oneByTwoPlain :=
    ⟨[0x3C, 0x3C, 0x3C, 0x3C, 0x3C, 0x3C, 0x3C, 0x3C], [[0, 1, 1, 3], [0, 2, 1, 2]],
      by decide, by decide, by decide⟩
  obtain ⟨t, ran, sums, -, indices, -⟩ :=
    scatter_product (s := ⟨fun _ => 0, oneByTwoPlain⟩) fits held (fun _ => 0) ones
  refine ⟨t, ran, fun j hj => (sums (by decide) (by decide) 0 (by decide) j hj).trans ?_,
    fun i hi =>
    (indices 1 (by decide) i hi).trans ?_⟩
  · revert j
    decide
  · revert i
    decide

end SoftHier.Sparse
