import SoftHier.Lib.Loops
import SoftHier.Lib.Strips
import SoftHier.Spatz.UnitStride

/-!
# The matrix product on the vector unit

`spatz_matmul_fp16` multiplies matrices of fp8 elements row by row: for every element of a row of
`A` a row of `B` is loaded, multiplied and accumulated in a group of registers, in strips of the
columns.  The sums are fp16 elements of two bytes.

* `Core`: the registers and the memory, with the instructions of the kernels.
* `vectorLoop_spec`: a loop over the elements of a vector that puts each result in its own place.
* `spatzMatmulFp16`: the kernel.
* `accumulate`: the sum an entry should be; `dense_product`: the kernel computes it.

The arithmetic of `flexfloat` is a parameter.
-/

namespace SoftHier.Spatz

/-- `ff_mul` and `ff_macc` on the bits of two fp8 values, and of the sum in fp16. -/
structure Flexfloat where
  mul : Byte → Byte → BitVec 16
  macc : Byte → Byte → BitVec 16 → BitVec 16

/-- The vector registers and the memory. -/
structure Core where
  regs : Buffer
  mem : Memory

/-! ## The instructions -/

/-- A loop over the elements of a vector from `src` on: the element `dst` of 16 bits behind `base`
becomes `op` of the element and itself. -/
def vectorLoop (op : Byte → BitVec 16 → BitVec 16) (dst : Buffer → Nat → Nat) (src base vl : Nat)
    (regs : Buffer) : Buffer :=
  (List.range vl).foldl (fun regs i =>
    let place := base + 2 * dst regs i
    storeLe regs place 2 (op (regs (src + i)) (loadLe regs place 2))) regs

namespace Core

variable (V : Vlsu) (data : Buffer) (s : Core)

/-- `flw` -/
def flw (addr : BitVec 64) : BitVec 32 := loadLe (fun k => s.mem (byteAt addr k)) 0 4

/-- `vle8.v` -/
def vle8 (vl : Nat) (addr : BitVec 64) (vd : Nat) : Core :=
  let s' := V.vle ⟨vl, 0⟩ addr vd data s.regs s.mem .e8
  ⟨s'.regs, s'.mem⟩

/-- `vse16.v` -/
def vse16 (vl : Nat) (addr : BitVec 64) (vs3 : Nat) : Core :=
  let s' := V.vse ⟨vl, 0⟩ addr vs3 data s.regs s.mem .e16
  ⟨s'.regs, s'.mem⟩

/-- `vmv.v.i` of zero, for `bytes` bytes. -/
def vmvZero (bytes vd : Nat) : Core where
  regs r := if vd * V.vlenb ≤ r ∧ r < vd * V.vlenb + bytes then 0 else s.regs r
  mem := s.mem

/-- `vfwmul.vf`; `flexfloat_set_bits` keeps the bits of an fp8 value. -/
def vfwmul (F : Flexfloat) (vl vd vs2 : Nat) (rs1 : BitVec 32) : Core where
  regs := vectorLoop (fun x _ => F.mul (rs1.setWidth 8) x) (fun _ i => i) (vs2 * V.vlenb)
    (vd * V.vlenb) vl s.regs
  mem := s.mem

/-- `vfwmacc.vf` -/
def vfwmacc (F : Flexfloat) (vl vd : Nat) (rs1 : BitVec 32) (vs2 : Nat) : Core where
  regs := vectorLoop (F.macc (rs1.setWidth 8)) (fun _ i => i) (vs2 * V.vlenb) (vd * V.vlenb) vl
    s.regs
  mem := s.mem

end Core

section

variable {op : Byte → BitVec 16 → BitVec 16} {dst : Buffer → Nat → Nat} {src base vl : Nat}
  {regs : Buffer}

theorem vectorLoop_succ : vectorLoop op dst src base (vl + 1) regs =
    storeLe (vectorLoop op dst src base vl regs)
      (base + 2 * dst (vectorLoop op dst src base vl regs) vl) 2
      (op (vectorLoop op dst src base vl regs (src + vl))
        (loadLe (vectorLoop op dst src base vl regs)
        (base + 2 * dst (vectorLoop op dst src base vl regs) vl) 2)) := by
  unfold vectorLoop
  rw [List.range_succ, List.foldl_append]
  rfl

/-- A loop that reads its elements and its places in front of those it writes, and writes each
once. -/
theorem vectorLoop_spec (op : Byte → BitVec 16 → BitVec 16) (regs : Buffer) (d : Nat → Nat)
    (front : src + vl ≤ base)
    (reads : ∀ regs' : Buffer, (∀ r < base, regs' r = regs r) → ∀ i < vl, dst regs' i = d i)
    (apart : ∀ i < vl, ∀ j < i, d j ≠ d i) :
    (∀ r < base, vectorLoop op dst src base vl regs r = regs r) ∧
      (∀ i < vl, loadLe (vectorLoop op dst src base vl regs) (base + 2 * d i) 2 =
        op (regs (src + i)) (loadLe regs (base + 2 * d i) 2)) ∧
      ∀ j, (∀ i < vl, d i ≠ j) →
        loadLe (vectorLoop op dst src base vl regs) (base + 2 * j) 2 =
          loadLe regs (base + 2 * j) 2 := by
  induction vl with
  | zero => exact ⟨fun _ _ => rfl, fun i hi => absurd hi (Nat.not_lt_zero i), fun _ _ => rfl⟩
  | succ vl ih =>
      obtain ⟨kept, written, other⟩ := ih (by omega)
        (fun regs' same i hi => reads regs' same i (by omega)) (fun i hi => apart i (by omega))
      have place := reads _ kept vl (Nat.lt_succ_self vl)
      rw [vectorLoop_succ, place, kept (src + vl) (by omega)]
      refine ⟨fun r hr => ?_, fun i hi => ?_, fun j free => ?_⟩
      · rw [storeLe_of_outside (Or.inl (by omega))]
        exact kept r hr
      · rcases Nat.lt_succ_iff_lt_or_eq.mp hi with before | rfl
        · have different := apart vl (Nat.lt_succ_self vl) i before
          rw [loadLe_storeLe_of_apart (by omega)]
          exact written i before
        · rw [loadLe_storeLe, other (d i) fun j hj => apart i (Nat.lt_succ_self i) j hj]
      · have different := free vl (Nat.lt_succ_self vl)
        rw [loadLe_storeLe_of_apart (by omega)]
        exact other j fun i hi => free i (by omega)

end

section

variable {V : Vlsu} {data : Buffer} {s : Core} {addr : BitVec 64} {vl vd : Nat}

theorem flw_low : (s.flw addr).setWidth 8 = s.mem addr := by
  have low : (s.flw addr).setWidth 8 = s.mem (byteAt addr 0) := by
    apply BitVec.eq_of_getLsbD_eq
    intro k hk
    have bit := getLsbD_loadLe (b := fun k => s.mem (byteAt addr k)) (a := 0) (n := 4) (i := 0)
      (by omega) hk
    rw [Nat.mul_zero, Nat.zero_add, Nat.zero_add] at bit
    rw [BitVec.getLsbD_setWidth, decide_eq_true hk, Bool.true_and]
    exact bit
  rw [low, byteAt_zero]

theorem vmvZero_of_lt {bytes r : Nat} (front : r < vd * V.vlenb) :
    (s.vmvZero V bytes vd).regs r = s.regs r :=
  if_neg (by omega)

/-- A load of bytes, which goes on to the next aligned address. -/
theorem vle8_spec (V : Vlsu) (data : Buffer) (s : Core) (vl : Nat) (addr : BitVec 64) (vd : Nat) :
    (s.vle8 V data vl addr vd).mem = s.mem ∧
      (∀ i < vl, (s.vle8 V data vl addr vd).regs (vd * V.vlenb + i) = s.mem (byteAt addr i)) ∧
      ∀ r, (r < vd * V.vlenb ∨ vd * V.vlenb + vl + V.intfWidth ≤ r) →
        (s.vle8 V data vl addr vd).regs r = s.regs r := by
  obtain ⟨stop, ends, loaded⟩ := V.load_spec addr vl (vl * Sew.e8.bytes) vd data s.regs s.mem
  have above := le_roundUp (n := addr.toNat + vl * Sew.e8.bytes) V.intfWidth_pos
  have below := roundUp_lt (n := addr.toNat + vl * Sew.e8.bytes) V.intfWidth_pos
  have bytes : vl * Sew.e8.bytes = vl := Nat.mul_one vl
  unfold Core.vle8
  rw [Vlsu.vle_eq]
  dsimp only
  rw [loaded.regs, loaded.mem]
  refine ⟨rfl, fun i hi => ?_, fun r outside => ?_⟩
  · rw [memcpy_at (by omega), Nat.zero_add]
  · exact memcpy_of_outside (by omega)

/-- A store of elements of two bytes between aligned addresses. -/
theorem vse16_spec (data : Buffer) (s : Core) (vd : Nat) (small : vl * 2 ≤ 2 ^ 64)
    (first : V.intfWidth ∣ addr.toNat)
    (last : V.intfWidth ∣ addr.toNat + vl * 2) :
    (s.vse16 V data vl addr vd).regs = s.regs ∧
      (∀ k < vl * 2, (s.vse16 V data vl addr vd).mem (byteAt addr k) = s.regs (vd * V.vlenb + k)) ∧
      ∀ a, (∀ k < vl * 2, a ≠ byteAt addr k) → (s.vse16 V data vl addr vd).mem a = s.mem a := by
  unfold Core.vse16
  rw [Vlsu.vse_eq]
  have stored : Vlsu.Stored addr (vd * V.vlenb) s.regs s.mem (vl * 2) (vl * 2)
      (V.unitStride V.storeBeat ⟨vl, 0⟩ (vl * 2) vd ⟨addr, data, s.regs, s.mem⟩) :=
    V.store_spec vl vd small last (Or.inl first)
  exact ⟨stored.source, stored.written, stored.kept⟩

end

/-! ## The dense kernel -/

/-- The arguments of the kernels. -/
structure MatmulArgs where
  matrixA : BitVec 64
  matrixB : BitVec 64
  matrixC : BitVec 64
  M : Nat
  N : Nat
  P : Nat

section

variable (V : Vlsu) (data : Buffer) (F : Flexfloat) (A : MatmulArgs)

/-- The loop over `n` for a row. -/
def denseRow (vl p m : Nat) (s : Core) : Core :=
  (List.range A.N).foldl (fun s n =>
    let fa0 := s.flw (byteAt A.matrixA (u32 (u32 (m * A.N) + n)))
    let s := s.vle8 V data vl (byteAt A.matrixB (u32 (p + u32 (n * A.P)))) 0
    if n = 0 then (s.vmvZero V vl 16).vfwmul V F vl 16 0 fa0
    else s.vfwmacc V F vl 16 fa0 0) s

/-- The body of the loop over the strips. -/
def denseStrip (_avl vl p : Nat) (s : Core) : Core :=
  (List.range A.M).foldl (fun s m =>
    let pC := byteAt A.matrixC (2 * u32 (m * A.P) + 2 * p)
    (denseRow V data F A vl p m s).vse16 V data vl pC 16) s

/-- `spatz_matmul_fp16`, where groups of eight registers hold the elements. -/
def spatzMatmulFp16 (fuel : Nat) (s : Core) : Option Core :=
  stripMine (8 * V.vlenb) (denseStrip V data F A) fuel A.P 0 s

end

/-! ## The matrices -/

/-- The sum of the products of a row and a column, of the entries of the column that count, in
their order. -/
def accumulate (F : Flexfloat) (counts : Nat → Bool) (row col : Nat → Byte) : Nat → BitVec 16
  | 0 => 0
  | n + 1 =>
    if counts n then
      if n = 0 then F.mul (row 0) (col 0)
        else F.macc (row n) (col n) (accumulate F counts row col n)
    else accumulate F counts row col n

namespace MatmulArgs

variable (A : MatmulArgs) (mem : Memory)

def a (m n : Nat) : Byte := mem (byteAt A.matrixA (m * A.N + n))

def b (n j : Nat) : Byte := mem (byteAt A.matrixB (n * A.P + j))

def c (m j : Nat) : BitVec 16 := loadLe (fun k => mem (byteAt A.matrixC k)) (2 * (m * A.P + j)) 2

/-- A matrix that does not overlap `C`. -/
def Apart (base : BitVec 64) (size : Nat) : Prop :=
  ∀ k < 2 * (A.M * A.P), ∀ i < size, byteAt base i ≠ byteAt A.matrixC k

/-- What the kernels need: the rows of `C` are aligned, the counters do not wrap, and `A` is apart
from `C`. -/
structure Fits (V : Vlsu) : Prop where
  vlenb_pos : 0 < V.vlenb
  width_dvd : V.intfWidth ∣ V.vlenb
  aligned : V.intfWidth ∣ A.matrixC.toNat
  rows : V.intfWidth ∣ 2 * A.P
  inner_pos : 0 < A.N
  a_lt : A.M * A.N < 2 ^ 32
  b_lt : A.N * A.P < 2 ^ 32
  c_le : A.matrixC.toNat + 2 * (A.M * A.P) ≤ 2 ^ 32
  a_apart : A.Apart A.matrixA (A.M * A.N)

end MatmulArgs

section

variable {V : Vlsu} {data : Buffer} {A : MatmulArgs} {s : Core} {m p vl : Nat}

open MatmulArgs

/-- A part of a row of `C` is stored. -/
theorem store_row (fits : A.Fits V) (hm : m < A.M) (inside : p + vl ≤ A.P)
    (start : V.intfWidth ∣ 2 * p) (stop : V.intfWidth ∣ 2 * (p + vl)) {s' : Core}
    (store : s' = s.vse16 V data vl (byteAt A.matrixC (2 * (m * A.P) + 2 * p)) 16) :
    (∀ i < vl, A.c s'.mem m (p + i) = loadLe s.regs (16 * V.vlenb + 2 * i) 2) ∧
      (∀ m' < A.M, ∀ j < A.P, m' ≠ m ∨ j < p ∨ p + vl ≤ j → A.c s'.mem m' j = A.c s.mem m' j) ∧
      ∀ x, (∀ k < 2 * (A.M * A.P), x ≠ byteAt A.matrixC k) → s'.mem x = s.mem x := by
  have size := fits.c_le
  have row := Nat.mul_le_mul_right A.P (Nat.succ_le_of_lt hm)
  rw [Nat.succ_mul] at row
  have place : (byteAt A.matrixC (2 * (m * A.P) + 2 * p)).toNat =
      A.matrixC.toNat + (2 * (m * A.P) + 2 * p) := by
    unfold byteAt
    rw [BitVec.toNat_add, BitVec.toNat_ofNat, Nat.add_mod_mod]
    exact Nat.mod_eq_of_lt (by omega)
  have rows : V.intfWidth ∣ 2 * (m * A.P) := by
    have times : 2 * (m * A.P) = m * (2 * A.P) := by ring
    rw [times]
    exact Dvd.dvd.mul_left fits.rows m
  have first : V.intfWidth ∣ (byteAt A.matrixC (2 * (m * A.P) + 2 * p)).toNat := by
    rw [place]
    exact Nat.dvd_add fits.aligned (Nat.dvd_add rows start)
  have last : V.intfWidth ∣ (byteAt A.matrixC (2 * (m * A.P) + 2 * p)).toNat + vl * 2 := by
    have sum : A.matrixC.toNat + (2 * (m * A.P) + 2 * p) + vl * 2 =
        A.matrixC.toNat + (2 * (m * A.P) + 2 * (p + vl)) := by ring
    rw [place, sum]
    exact Nat.dvd_add fits.aligned (Nat.dvd_add rows stop)
  obtain ⟨-, written, kept⟩ := vse16_spec data s 16 (by omega) first last
  rw [← store] at written kept
  refine ⟨fun i hi => ?_, fun m' hm' j hj other => ?_, fun x outside => ?_⟩
  · refine loadLe_eq_iff.mpr fun k hk => ?_
    have byte := written (2 * i + k) (by omega)
    rw [byteAt_add] at byte
    have here : 2 * (m * A.P + (p + i)) + k = 2 * (m * A.P) + 2 * p + (2 * i + k) := by ring
    rw [here, byte, Nat.add_assoc]
  · refine loadLe_eq_iff.mpr fun k hk => kept _ fun k' hk' same => ?_
    have below := block_lt hm' hj
    have byte := byteAt_inj (by omega) (by omega) (same.trans byteAt_add)
    have column : m' * A.P + j = m * A.P + (p + k' / 2) := by omega
    obtain ⟨rfl, rfl⟩ := block_inj hj (show p + k' / 2 < A.P by omega) column
    omega
  · refine kept x fun k hk => ?_
    rw [byteAt_add]
    exact outside _ (by omega)

/-- The scalar of a row. -/
theorem flw_a (size : A.M * A.N < 2 ^ 32) {n : Nat} (hm : m < A.M) (hn : n < A.N) :
    (s.flw (byteAt A.matrixA (u32 (u32 (m * A.N) + n)))).setWidth 8 = A.a s.mem m n := by
  have inside := block_lt hm hn
  have start : u32 (m * A.N) = m * A.N := u32_of_lt (by omega)
  have index : u32 (u32 (m * A.N) + n) = m * A.N + n := by
    rw [start]
    exact u32_of_lt (by omega)
  rw [flw_low, index]
  rfl

variable {F : Flexfloat}

/-! ## The dense kernel computes the product -/

/-- What a pass of the loop over `n` leaves in the group of the sums. -/
theorem denseRow_step (data : Buffer) (F : Flexfloat) (fits : A.Fits V) {n : Nat} (hm : m < A.M)
    (hn : n < A.N) (short : vl ≤ 8 * V.vlenb)
    (inside : p + vl ≤ A.P) {s' : Core}
    (pass : s' = (let fa0 := s.flw (byteAt A.matrixA (u32 (u32 (m * A.N) + n)))
      let t := s.vle8 V data vl (byteAt A.matrixB (u32 (p + u32 (n * A.P)))) 0
      if n = 0 then (t.vmvZero V vl 16).vfwmul V F vl 16 0 fa0 else t.vfwmacc V F vl 16 fa0 0)) :
    s'.mem = s.mem ∧ ∀ i < vl, loadLe s'.regs (16 * V.vlenb + 2 * i) 2 =
      if n = 0 then F.mul (A.a s.mem m 0) (A.b s.mem 0 (p + i))
      else F.macc (A.a s.mem m n) (A.b s.mem n (p + i))
        (loadLe s.regs (16 * V.vlenb + 2 * i) 2) := by
  have size := fits.b_lt
  have width := Nat.le_of_dvd fits.vlenb_pos fits.width_dvd
  have row := Nat.mul_le_mul_right A.P (Nat.succ_le_of_lt hn)
  rw [Nat.succ_mul] at row
  have start : u32 (n * A.P) = n * A.P := u32_of_lt (by omega)
  have index : u32 (p + n * A.P) = n * A.P + p := by
    rw [Nat.add_comm]
    exact u32_of_lt (by omega)
  obtain ⟨mem, loaded, kept⟩ := vle8_spec V data s vl (byteAt A.matrixB (n * A.P + p)) 0
  obtain ⟨t, ht⟩ : ∃ t, t = s.vle8 V data vl (byteAt A.matrixB (n * A.P + p)) 0 := ⟨_, rfl⟩
  rw [← ht] at mem loaded kept
  have element : ∀ i < vl, t.regs i = A.b s.mem n (p + i) := by
    intro i hi
    have byte := loaded i hi
    rw [Nat.zero_mul, Nat.zero_add, byteAt_add, Nat.add_assoc] at byte
    exact byte
  have scalar := flw_a (s := s) fits.a_lt hm hn
  have front : 0 * V.vlenb + vl ≤ 16 * V.vlenb := by omega
  dsimp only at pass
  rw [start, index, ← ht] at pass
  by_cases first : n = 0
  · subst first
    rw [if_pos rfl] at pass
    simp only [if_pos]
    obtain ⟨-, written, -⟩ :=
      vectorLoop_spec (fun x _ => F.mul (A.a s.mem m 0) x) (t.vmvZero V vl 16).regs
      (fun i => i) front (fun _ _ _ _ => rfl) (fun i _ j hj => Nat.ne_of_lt hj)
    rw [pass]
    refine ⟨mem, fun i hi => ?_⟩
    have result := written i hi
    rw [Nat.zero_mul, Nat.zero_add, vmvZero_of_lt (by omega), element i hi] at result
    unfold Core.vfwmul
    rw [scalar, Nat.zero_mul]
    exact result
  · rw [if_neg first] at pass
    simp only [if_neg first]
    obtain ⟨-, written, -⟩ := vectorLoop_spec (F.macc (A.a s.mem m n)) t.regs
      (fun i => i) front (fun _ _ _ _ => rfl) (fun i _ j hj => Nat.ne_of_lt hj)
    rw [pass]
    refine ⟨mem, fun i hi => ?_⟩
    have result := written i hi
    have old : loadLe t.regs (16 * V.vlenb + 2 * i) 2 = loadLe s.regs (16 * V.vlenb + 2 * i) 2 :=
      loadLe_eq_iff.mpr fun k _ => kept _ (Or.inr (by omega))
    rw [Nat.zero_mul, Nat.zero_add, element i hi, old] at result
    unfold Core.vfwmacc
    rw [scalar, Nat.zero_mul]
    exact result

/-- The group of the sums after the loop over `n`. -/
theorem denseRow_spec (data : Buffer) (F : Flexfloat) (fits : A.Fits V) (hm : m < A.M)
    (short : vl ≤ 8 * V.vlenb) (inside : p + vl ≤ A.P) :
    (denseRow V data F A vl p m s).mem = s.mem ∧ ∀ i < vl,
      loadLe (denseRow V data F A vl p m s).regs (16 * V.vlenb + 2 * i) 2 =
        accumulate F (fun _ => true) (A.a s.mem m) (fun n => A.b s.mem n (p + i)) A.N := by
  have passes : ∀ n ≤ A.N, ∀ s', s' = (List.range n).foldl (fun s n =>
        let fa0 := s.flw (byteAt A.matrixA (u32 (u32 (m * A.N) + n)))
        let s := s.vle8 V data vl (byteAt A.matrixB (u32 (p + u32 (n * A.P)))) 0
        if n = 0 then (s.vmvZero V vl 16).vfwmul V F vl 16 0 fa0
        else s.vfwmacc V F vl 16 fa0 0) s →
      s'.mem = s.mem ∧ (0 < n → ∀ i < vl, loadLe s'.regs (16 * V.vlenb + 2 * i) 2 =
        accumulate F (fun _ => true) (A.a s.mem m) (fun n => A.b s.mem n (p + i)) n) := by
    intro n
    induction n with
    | zero =>
        rintro - s' rfl
        exact ⟨rfl, fun none => absurd none (Nat.lt_irrefl 0)⟩
    | succ n ih =>
        intro le s' run
        rw [List.range_succ, List.foldl_append] at run
        obtain ⟨before, sums⟩ := ih (Nat.le_of_succ_le le) _ rfl
        obtain ⟨mem, pass⟩ := denseRow_step data F fits hm le short inside run
        refine ⟨mem.trans before, fun _ i hi => ?_⟩
        rw [pass i hi, before]
        unfold accumulate
        rw [if_pos rfl]
        by_cases first : n = 0
        · subst first
          rfl
        · rw [if_neg first, if_neg first, sums (Nat.pos_of_ne_zero first) i hi]
  obtain ⟨mem, sums⟩ := passes A.N (Nat.le_refl _) _ rfl
  exact ⟨mem, sums fits.inner_pos⟩

variable {mem₀ : Memory}

/-- The first `p` columns of `C` are done, and those of the first `m` rows up to column `q`. -/
structure Done (A : MatmulArgs) (sum : Nat → Nat → BitVec 16) (mem₀ : Memory) (p m q : Nat)
    (s : Core) :
    Prop where
  kept : ∀ x, (∀ k < 2 * (A.M * A.P), x ≠ byteAt A.matrixC k) → s.mem x = mem₀ x
  sums : ∀ m' < A.M, ∀ j < A.P, j < p ∨ m' < m ∧ j < q → A.c s.mem m' j = sum m' j

variable {sum : Nat → Nat → BitVec 16}

theorem done_zero (sum : Nat → Nat → BitVec 16) {q : Nat} : Done A sum s.mem 0 0 q s :=
  ⟨fun _ _ => rfl, fun _ _ _ _ before => absurd before (by omega)⟩

theorem Done.a_kept {q : Nat} (done : Done A sum mem₀ p m q s) (fits : A.Fits V) {m' n : Nat}
    (hm : m' < A.M) (hn : n < A.N) : A.a s.mem m' n = A.a mem₀ m' n :=
  done.kept _ fun k hk => fits.a_apart k hk _ (block_lt hm hn)

/-- The sums of a row are stored. -/
theorem Done.store (fits : A.Fits V) (done : Done A sum mem₀ p m (p + vl) s) (hm : m < A.M)
    (inside : p + vl ≤ A.P) (start : V.intfWidth ∣ 2 * p) (stop : V.intfWidth ∣ 2 * (p + vl))
    {r : Core}
    (mem : r.mem = s.mem) (sums : ∀ i < vl,
      loadLe r.regs (16 * V.vlenb + 2 * i) 2 = sum m (p + i)) :
    Done A sum mem₀ p (m + 1) (p + vl) (r.vse16 V data vl
      (byteAt A.matrixC (2 * u32 (m * A.P) + 2 * p)) 16) := by
  have size := fits.c_le
  have row := Nat.mul_le_mul_right A.P (Nat.succ_le_of_lt hm)
  rw [Nat.succ_mul] at row
  have place : u32 (m * A.P) = m * A.P := u32_of_lt (by omega)
  obtain ⟨t, ht⟩ : ∃ t, t = r.vse16 V data vl (byteAt A.matrixC (2 * (m * A.P) + 2 * p)) 16 :=
    ⟨_, rfl⟩
  obtain ⟨written, others, kept⟩ := store_row fits hm inside start stop ht
  rw [mem] at others kept
  rw [place, ← ht]
  refine ⟨fun x outside => (kept x outside).trans (done.kept x outside),
    fun m' hm' j hj before => ?_⟩
  by_cases here : m' = m ∧ p ≤ j ∧ j < p + vl
  · obtain ⟨rfl, low, high⟩ := here
    obtain ⟨i, rfl⟩ := Nat.exists_eq_add_of_le low
    rw [written i (by omega), sums i (by omega)]
  · rw [others m' hm' j hj (by omega)]
    exact done.sums m' hm' j hj (by omega)

/-- The rows of a strip. -/
theorem Done.rows (data : Buffer) (fits : A.Fits V) {q : Nat} (done : Done A sum mem₀ p 0 q s)
    (inside : p + vl ≤ A.P)
    (start : V.intfWidth ∣ 2 * p) (stop : V.intfWidth ∣ 2 * (p + vl)) (row : Nat → Core → Core)
    (sums : ∀ m < A.M, ∀ s, Done A sum mem₀ p m (p + vl) s → (row m s).mem = s.mem ∧
      ∀ i < vl, loadLe (row m s).regs (16 * V.vlenb + 2 * i) 2 = sum m (p + i)) :
    Done A sum mem₀ (p + vl) 0 q ((List.range A.M).foldl (fun s m => (row m s).vse16 V data vl
      (byteAt A.matrixC (2 * u32 (m * A.P) + 2 * p)) 16) s) := by
  have rows : ∀ m ≤ A.M, Done A sum mem₀ p m (p + vl) ((List.range m).foldl (fun s m =>
      (row m s).vse16 V data vl (byteAt A.matrixC (2 * u32 (m * A.P) + 2 * p)) 16) s) := by
    intro m
    induction m with
    | zero => exact fun _ => ⟨done.kept, fun m' hm' j hj before => done.sums m' hm' j hj (by omega)⟩
    | succ m ih =>
        intro le
        have before := ih (Nat.le_of_succ_le le)
        obtain ⟨mem, result⟩ := sums m le _ before
        rw [List.range_succ, List.foldl_append]
        exact before.store fits le inside start stop mem result
  have all := rows A.M (Nat.le_refl _)
  exact ⟨all.kept, fun m' hm' j hj before => all.sums m' hm' j hj (by omega)⟩

theorem accumulate_congr {counts : Nat → Bool} {row row' col col' : Nat → Byte} {n : Nat}
    (rows : ∀ k < n, row k = row' k) (cols : ∀ k < n, col k = col' k) :
    accumulate F counts row col n = accumulate F counts row' col' n := by
  induction n with
  | zero => rfl
  | succ n ih =>
      have first := rows 0 (Nat.succ_pos n)
      have first' := cols 0 (Nat.succ_pos n)
      unfold accumulate
      rw [rows n (Nat.lt_succ_self n), cols n (Nat.lt_succ_self n), first, first',
        ih (fun k hk => rows k (Nat.lt_succ_of_lt hk)) fun k hk => cols k (Nat.lt_succ_of_lt hk)]

/-- The entries of the product. -/
def product (F : Flexfloat) (A : MatmulArgs) (mem : Memory) (m j : Nat) : BitVec 16 :=
  accumulate F (fun _ => true) (A.a mem m) (fun n => A.b mem n j) A.N

/-- A strip of the dense kernel. -/
theorem Done.strip (fits : A.Fits V) (apart : A.Apart A.matrixB (A.N * A.P)) {avl q : Nat}
    (done : Done A (product F A mem₀) mem₀ p 0 q s) (short : vl ≤ 8 * V.vlenb)
    (inside : p + vl ≤ A.P) (start : V.intfWidth ∣ 2 * p) (stop : V.intfWidth ∣ 2 * (p + vl)) :
    Done A (product F A mem₀) mem₀ (p + vl) 0 q (denseStrip V data F A avl vl p s) := by
  refine done.rows data fits inside start stop (fun m => denseRow V data F A vl p m)
    fun m hm s done => ?_
  obtain ⟨mem, sums⟩ := denseRow_spec (s := s) data F fits hm short inside
  refine ⟨mem, fun i hi => (sums i hi).trans ?_⟩
  refine accumulate_congr (fun n hn => done.a_kept fits hm hn) fun n hn => ?_
  exact done.kept _ fun k hk => apart k hk _ (block_lt hn (by omega))

/-- The kernel leaves in `C` the product of `A` and `B`, each sum in the order of the rows of `B`,
and changes nothing else. -/
theorem dense_product (fits : A.Fits V) (apart : A.Apart A.matrixB (A.N * A.P)) (data : Buffer)
    (F : Flexfloat) (s : Core) : ∃ t, spatzMatmulFp16 V data F A (A.P + 1) s = some t ∧
      (∀ m < A.M, ∀ j < A.P, A.c t.mem m j = product F A s.mem m j) ∧
      ∀ x, (∀ k < 2 * (A.M * A.P), x ≠ byteAt A.matrixC k) → t.mem x = s.mem x := by
  have size := fits.b_lt
  have room := fits.vlenb_pos
  have columns := Nat.le_mul_of_pos_left A.P fits.inner_pos
  have group : V.intfWidth ∣ 2 * (8 * V.vlenb) :=
    Dvd.dvd.mul_left (Dvd.dvd.mul_left fits.width_dvd 8) 2
  have lanes : 0 < 8 * V.vlenb := by omega
  obtain ⟨t, ran, done⟩ := stripMine_spec lanes (by omega) (denseStrip V data F A)
    (fun p s' => Done A (product F A s.mem) s.mem p 0 0 s')
    (fun p avl s' total whole done => by
      have start : V.intfWidth ∣ 2 * p := group.trans (Nat.mul_dvd_mul_left 2 whole)
      rcases vsetvli_cases (8 * V.vlenb) avl with ⟨vl, le⟩ | ⟨vl, le⟩
      · rw [vl]
        refine done.strip fits apart (Nat.le_refl _) (by omega) start ?_
        rw [Nat.mul_add]
        exact Nat.dvd_add start group
      · rw [vl]
        refine done.strip fits apart le (by omega) start ?_
        rw [total]
        exact fits.rows)
    (A.P + 1) 0 A.P s (Nat.lt_succ_self _) (Nat.zero_add _) (Nat.dvd_zero _) (done_zero _)
  exact ⟨t, ran, fun m hm j hj => done.sums m hm j hj (Or.inl hj), done.kept⟩

end

/-! ### Two by two ones -/

/-- A beat and a register of two bytes. -/
def narrow : Vlsu := ⟨2, 2, 1, by decide, rfl⟩

/-- The products of `1.0` and `1.0`, and the sums of at most two of them. -/
def ones : Flexfloat := ⟨fun _ _ => 0x3C00, fun _ _ sum => if sum = 0 then 0x3C00 else 0x4000⟩

def twoByTwo : MatmulArgs where
  matrixA := 0x00
  matrixB := 0x10
  matrixC := 0x20
  M := 2
  N := 2
  P := 2

theorem dense_product_twoByTwo : ∃ t,
    spatzMatmulFp16 narrow (fun _ => 0) ones twoByTwo 3 ⟨fun _ => 0, fun _ => 0x3C⟩ = some t ∧
      ∀ m < 2, ∀ j < 2, twoByTwo.c t.mem m j = 0x4000 := by
  have fits : twoByTwo.Fits narrow :=
    { vlenb_pos := by decide
      width_dvd := by decide
      aligned := by decide
      rows := by decide
      inner_pos := by decide
      a_lt := by decide
      b_lt := by decide
      c_le := by decide
      a_apart := by unfold MatmulArgs.Apart; decide }
  have apart : twoByTwo.Apart twoByTwo.matrixB 4 := by
    unfold MatmulArgs.Apart
    decide
  obtain ⟨t, ran, sums, -⟩ := dense_product fits apart (fun _ => 0) ones ⟨fun _ => 0, fun _ => 0x3C⟩
  exact ⟨t, ran, sums⟩

end SoftHier.Spatz
