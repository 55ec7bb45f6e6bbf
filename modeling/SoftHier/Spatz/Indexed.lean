import SoftHier.Spatz.UnitStride
import SoftHier.Lib.Loops

/-!
# Indexed loads and stores

`VLUXEI8` to `VLUXEI64` and `VSUXEI8` to `VSUXEI64` move the elements at `base + SEW / 8 * index`.
A store accesses just the bytes of the element.  A load fetches the whole chunk of `INTF_WIDTH`
bytes and selects the element by the low bits of its address, so that an element must not reach
beyond its chunk.

* `loadsInside_iff`: the loads keep to their buffer exactly if the elements are aligned or the
  chunk is longer than the offset can be.
* `loadsBack_iff`: what a store wrote is loaded back exactly if every element is within its chunk.
-/

namespace SoftHier.Spatz

/-- `bytes_to_uint(input, nbytes)` -/
def bytesToUint (input : Buffer) (nbytes : Nat) : BitVec 64 :=
  (List.range nbytes).foldl (fun result i => result ||| (input i).setWidth 64 <<< (8 * i)) 0

/-- The first byte of an index is its low byte. -/
theorem bytesToUint_low {input : Buffer} (high : ∀ k, 0 < k → input k = 0) (n : Nat) :
    bytesToUint input (n + 1) = (input 0).setWidth 64 := by
  unfold bytesToUint
  induction n with
  | zero => simp
  | succ n ih =>
    rw [List.range_succ, List.foldl_append, ih]
    simp [high (n + 1) (Nat.succ_pos n)]

theorem bytesToUint_congr {input input' : Buffer} {n : Nat} (same : ∀ k < n, input k = input' k) :
    bytesToUint input n = bytesToUint input' n := by
  unfold bytesToUint
  induction n with
  | zero => rfl
  | succ n ih =>
    rw [List.range_succ, List.foldl_append, List.foldl_append,
      ih fun k less => same k (Nat.lt_succ_of_lt less)]
    simp [same n (Nat.lt_succ_self n)]

namespace Sew

variable (e : Sew)

theorem bytes_pos : 0 < e.bytes := by cases e <;> decide

theorem bytes_le : e.bytes ≤ 8 := by cases e <;> decide

theorem bytes_pow : ∃ w < 4, e.bytes = 2 ^ w := by
  cases e with
  | e8 => exact ⟨0, by decide, rfl⟩
  | e16 => exact ⟨1, by decide, rfl⟩
  | e32 => exact ⟨2, by decide, rfl⟩
  | e64 => exact ⟨3, by decide, rfl⟩

end Sew

/-- `start_add + (sew_bytes * index)` -/
def elementAddr (e : Sew) (startAdd index : BitVec 64) : BitVec 64 :=
  startAdd + BitVec.ofNat 64 e.bytes * index

namespace Vlsu

variable (v : Vlsu)

/-! ## The code -/

/-- The index of element `i`, of `iw` bytes. -/
def indexAt (regs : Buffer) (vs2 iw i : Nat) : BitVec 64 :=
  bytesToUint (fun k => regs (vs2 * v.vlenb + (i * iw + k))) iw

/-- `uint8_t offset = addr % INTF_WIDTH` -/
def chunkOffset (addr : BitVec 64) : Nat := addr.toNat % v.intfWidth % 2 ^ 8

/-- The body of the loads.  The bytes `data[offset + j]` behind the buffer are not there: `none`. -/
def loadIndexed (e : Sew) (c : Csr) (iw vs2 vd : Nat) (s : Access) (i : Nat) : Option Access :=
  let addr := elementAddr e s.startAdd (v.indexAt s.regs vs2 iw i)
  let offset := v.chunkOffset addr
  let s := s.ioRead (addr - BitVec.ofNat 64 offset) v.intfWidth
  if offset + e.bytes ≤ v.intfWidth then
    some { s with
      regs := memcpy s.regs (vd * v.vlenb + (c.vstart + i * e.bytes)) s.data offset e.bytes }
  else none

/-- The body of the stores, for a buffer that has room for an element. -/
def storeIndexed (e : Sew) (c : Csr) (iw vs2 vs3 : Nat) (s : Access) (i : Nat) : Access :=
  let addr := elementAddr e s.startAdd (v.indexAt s.regs vs2 iw i)
  let s := { s with
    data := memcpy s.data 0 s.regs (vs3 * v.vlenb + (c.vstart + i * e.bytes)) e.bytes }
  s.ioWrite addr e.bytes

/-- The loop of the loads.  The mask `vm` is not read. -/
def loadLoop (e : Sew) (c : Csr) (iw vs2 vd : Nat) (s : Access) : Option Access :=
  (List.range c.vl).foldlM (v.loadIndexed e c iw vs2 vd) s

/-- The loop of the stores. -/
def storeLoop (e : Sew) (c : Csr) (iw vs2 vs3 : Nat) (s : Access) : Access :=
  (List.range c.vl).foldl (v.storeIndexed e c iw vs2 vs3) s

section

variable (e : Sew) (c : Csr) (rs1 : BitVec 64) (vs2 reg : Nat) (data regs : Buffer) (mem : Memory)

/-- `lib_VLUXEI8V(iss, rs1, vs2, vd, vm)` -/
def libVLUXEI8V : Option Access := v.loadLoop e c 1 vs2 reg ⟨rs1, data, regs, mem⟩

/-- `lib_VLUXEI16V(iss, rs1, vs2, vd, vm)` -/
def libVLUXEI16V : Option Access := v.loadLoop e c 2 vs2 reg ⟨rs1, data, regs, mem⟩

/-- `lib_VLUXEI32V(iss, rs1, vs2, vd, vm)` -/
def libVLUXEI32V : Option Access := v.loadLoop e c 4 vs2 reg ⟨rs1, data, regs, mem⟩

/-- `lib_VLUXEI64V(iss, rs1, vs2, vd, vm)` -/
def libVLUXEI64V : Option Access := v.loadLoop e c 8 vs2 reg ⟨rs1, data, regs, mem⟩

/-- `lib_VSUXEI8V(iss, rs1, vs2, vd, vm)` -/
def libVSUXEI8V : Access := v.storeLoop e c 1 vs2 reg ⟨rs1, data, regs, mem⟩

/-- `lib_VSUXEI16V(iss, rs1, vs2, vd, vm)` -/
def libVSUXEI16V : Access := v.storeLoop e c 2 vs2 reg ⟨rs1, data, regs, mem⟩

/-- `lib_VSUXEI32V(iss, rs1, vs2, vd, vm)` -/
def libVSUXEI32V : Access := v.storeLoop e c 4 vs2 reg ⟨rs1, data, regs, mem⟩

/-- `lib_VSUXEI64V(iss, rs1, vs2, vd, vm)` -/
def libVSUXEI64V : Access := v.storeLoop e c 8 vs2 reg ⟨rs1, data, regs, mem⟩

/-- The load with indices of a width. -/
def vluxei : Sew → Option Access
  | .e8 => v.libVLUXEI8V e c rs1 vs2 reg data regs mem
  | .e16 => v.libVLUXEI16V e c rs1 vs2 reg data regs mem
  | .e32 => v.libVLUXEI32V e c rs1 vs2 reg data regs mem
  | .e64 => v.libVLUXEI64V e c rs1 vs2 reg data regs mem

/-- The store with indices of a width. -/
def vsuxei : Sew → Access
  | .e8 => v.libVSUXEI8V e c rs1 vs2 reg data regs mem
  | .e16 => v.libVSUXEI16V e c rs1 vs2 reg data regs mem
  | .e32 => v.libVSUXEI32V e c rs1 vs2 reg data regs mem
  | .e64 => v.libVSUXEI64V e c rs1 vs2 reg data regs mem

theorem vluxei_eq (eew : Sew) : v.vluxei e c rs1 vs2 reg data regs mem eew =
    v.loadLoop e c eew.bytes vs2 reg ⟨rs1, data, regs, mem⟩ := by
  cases eew <;> rfl

theorem vsuxei_eq (eew : Sew) : v.vsuxei e c rs1 vs2 reg data regs mem eew =
    v.storeLoop e c eew.bytes vs2 reg ⟨rs1, data, regs, mem⟩ := by
  cases eew <;> rfl

end

/-! ## Chunks -/

/-- The element is within its chunk. -/
def InChunk (e : Sew) (addr : BitVec 64) : Prop := v.chunkOffset addr + e.bytes ≤ v.intfWidth

instance (e : Sew) (addr : BitVec 64) : Decidable (v.InChunk e addr) :=
  inferInstanceAs (Decidable (_ ≤ _))

variable {v} {e : Sew} {addr base index : BitVec 64}

theorem intfWidth_dvd : v.intfWidth ∣ 2 ^ 64 := by
  obtain ⟨w, less, eq⟩ := v.pow
  rw [eq]
  exact Nat.pow_dvd_pow 2 (by omega)

theorem bytes_dvd (fits : e.bytes ≤ v.intfWidth) : e.bytes ∣ v.intfWidth := by
  obtain ⟨w, -, eq⟩ := v.pow
  obtain ⟨k, -, eq'⟩ := e.bytes_pow
  rw [eq, eq'] at fits
  rw [eq, eq']
  exact Nat.pow_dvd_pow 2 ((Nat.pow_le_pow_iff_right (by decide)).mp fits)

/-- The address of an element in a chunk's range. -/
theorem elementAddr_mod :
    (elementAddr e base index).toNat % v.intfWidth =
      (base.toNat + e.bytes * index.toNat) % v.intfWidth := by
  have word : (elementAddr e base index).toNat = (base.toNat + e.bytes * index.toNat) % 2 ^ 64 := by
    unfold elementAddr
    simp
  rw [word, Nat.mod_mod_of_dvd _ intfWidth_dvd]

/-- An aligned element is within its chunk. -/
theorem inChunk_of_dvd (fits : e.bytes ≤ v.intfWidth) (aligned : e.bytes ∣ base.toNat) :
    v.InChunk e (elementAddr e base index) := by
  unfold InChunk chunkOffset
  rw [elementAddr_mod]
  have dvd := bytes_dvd fits
  have here : e.bytes ∣ (base.toNat + e.bytes * index.toNat) % v.intfWidth :=
    (Nat.dvd_mod_iff dvd).mpr (Nat.dvd_add aligned (Nat.dvd_mul_right _ _))
  have low := Nat.mod_lt (base.toNat + e.bytes * index.toNat) v.intfWidth_pos
  have room : e.bytes ≤ v.intfWidth - (base.toNat + e.bytes * index.toNat) % v.intfWidth :=
    Nat.le_of_dvd (Nat.sub_pos_of_lt low) (Nat.dvd_sub dvd here)
  have le := Nat.mod_le ((base.toNat + e.bytes * index.toNat) % v.intfWidth) (2 ^ 8)
  omega

/-- An offset of eight bits does not reach the end of a longer chunk. -/
theorem inChunk_of_long (long : 2 ^ 8 < v.intfWidth) : v.InChunk e addr := by
  obtain ⟨w, less, eq⟩ := v.pow
  have above : 9 ≤ w := by
    rw [eq] at long
    exact (Nat.pow_lt_pow_iff_right (by decide)).mp long
  have wide : 2 ^ 9 ≤ v.intfWidth := by
    rw [eq]
    exact Nat.pow_le_pow_right (by decide) above
  have low : v.chunkOffset addr < 2 ^ 8 := Nat.mod_lt _ (by decide)
  have le := e.bytes_le
  unfold InChunk
  omega

/-- From a base that is not aligned, a small index leads to an element across the end of a chunk. -/
theorem exists_not_inChunk (fits : e.bytes ≤ v.intfWidth) (unaligned : ¬ e.bytes ∣ base.toNat)
    (short : v.intfWidth ≤ 2 ^ 8) :
    ∃ t : Byte, ¬ v.InChunk e (elementAddr e base (t.setWidth 64)) := by
  obtain ⟨m, width⟩ := bytes_dvd fits
  have pos := e.bytes_pos
  have wide := v.intfWidth_pos
  rw [width] at short wide
  have some : 0 < m := Nat.pos_of_mul_pos_left wide
  have few : m ≤ e.bytes * m := Nat.le_mul_of_pos_left m pos
  let q := base.toNat / e.bytes
  let r := base.toNat % e.bytes
  have split : e.bytes * q + r = base.toNat := Nat.div_add_mod _ _
  have odd : 0 < r := Nat.pos_of_ne_zero fun zero => unaligned (Nat.dvd_of_mod_eq_zero zero)
  have low : r < e.bytes := Nat.mod_lt _ pos
  have block : q % m < m := Nat.mod_lt q some
  -- the element in the last place of its chunk
  let t := m - 1 - q % m
  have last : q + t = m * (q / m) + (m - 1) := by
    have := Nat.div_add_mod q m
    omega
  have place : base.toNat + e.bytes * t = e.bytes * (m - 1) + r + e.bytes * m * (q / m) := by
    calc base.toNat + e.bytes * t = e.bytes * (q + t) + r := by
          rw [← split, Nat.mul_add]
          omega
      _ = e.bytes * (m - 1) + r + e.bytes * m * (q / m) := by
          rw [last, Nat.mul_add, Nat.mul_assoc]
          omega
  have behind : e.bytes * (m - 1) + e.bytes = e.bytes * m := by
    rw [← Nat.mul_succ, Nat.succ_eq_add_one, Nat.sub_add_cancel some]
  have byte : (BitVec.setWidth 64 (BitVec.ofNat 8 t)).toNat = t := by
    rw [BitVec.toNat_setWidth, BitVec.toNat_ofNat]
    omega
  refine ⟨BitVec.ofNat 8 t, ?_⟩
  unfold InChunk chunkOffset
  have inside : e.bytes * (m - 1) + r < e.bytes * m := by omega
  rw [elementAddr_mod, byte, place, width, Nat.add_mul_mod_self_left, Nat.mod_eq_of_lt inside,
    Nat.mod_eq_of_lt (inside.trans_le short)]
  omega

/-! ## Loads -/

section

variable {iw vs2 i : Nat} {s : Access} (c : Csr) (vd : Nat)

/-- An element within its chunk is copied from its address. -/
theorem loadIndexed_of_inChunk
    (inside : v.InChunk e (elementAddr e s.startAdd (v.indexAt s.regs vs2 iw i))) :
    ∃ t, v.loadIndexed e c iw vs2 vd s i = some t ∧ t.startAdd = s.startAdd ∧ t.mem = s.mem ∧
      t.regs = memcpy s.regs (vd * v.vlenb + (c.vstart + i * e.bytes))
        (fun k => s.mem (byteAt (elementAddr e s.startAdd (v.indexAt s.regs vs2 iw i)) k)) 0
          e.bytes := by
  refine ⟨_, if_pos inside, rfl, rfl, funext fun r => memcpy_congr (fun j less => ?_) rfl⟩
  unfold InChunk at inside
  rw [Access.ioRead_data (by omega), ← byteAt_add, Nat.zero_add]
  unfold byteAt
  rw [BitVec.sub_add_cancel]

theorem loadIndexed_of_not_inChunk
    (outside : ¬ v.InChunk e (elementAddr e s.startAdd (v.indexAt s.regs vs2 iw i))) :
    v.loadIndexed e c iw vs2 vd s i = none := if_neg outside

end

/-- The loads read nothing behind their buffer, for all contents. -/
def LoadsInside (v : Vlsu) (e eew : Sew) (c : Csr) (base : BitVec 64) (vs2 vd : Nat) : Prop :=
  ∀ (data regs : Buffer) (mem : Memory), v.vluxei e c base vs2 vd data regs mem eew ≠ none

section

variable {eew : Sew} {c : Csr} {vs2 vd : Nat}

/-- The first index alone can lead out of the buffer. -/
theorem LoadsInside.of_pos (fits : e.bytes ≤ v.intfWidth)
    (inside : v.LoadsInside e eew c base vs2 vd) (pos : 0 < c.vl) :
    e.bytes ∣ base.toNat ∨ 2 ^ 8 < v.intfWidth := by
  by_contra both
  obtain ⟨unaligned, short⟩ := not_or.mp both
  obtain ⟨t, outside⟩ := exists_not_inChunk fits unaligned (Nat.not_lt.mp short)
  apply inside (fun _ => 0) (fun r => if r = vs2 * v.vlenb then t else 0) fun _ => 0
  have first : v.indexAt (fun r => if r = vs2 * v.vlenb then t else 0) vs2 eew.bytes 0 =
      t.setWidth 64 := by
    unfold indexAt
    obtain ⟨n, width⟩ := Nat.exists_eq_add_of_le' eew.bytes_pos
    rw [width, bytesToUint_low]
    · simp
    · intro k some
      exact if_neg (by omega)
  obtain ⟨n, length⟩ := Nat.exists_eq_add_of_le' pos
  rw [vluxei_eq, loadLoop, length, List.range_succ_eq_map, List.foldlM_cons,
    loadIndexed_of_not_inChunk]
  · rfl
  · rwa [first]

/-- The loads keep to their buffer, whatever the indices are, exactly if there is no element, the
base is aligned to the elements, or the chunk is longer than an offset of eight bits can be. -/
theorem loadsInside_iff (fits : e.bytes ≤ v.intfWidth) : v.LoadsInside e eew c base vs2 vd ↔
    c.vl = 0 ∨ e.bytes ∣ base.toNat ∨ 2 ^ 8 < v.intfWidth := by
  constructor
  · intro inside
    rcases Nat.eq_zero_or_pos c.vl with none | some
    · exact .inl none
    · exact .inr (inside.of_pos fits some)
  · intro safe data regs mem
    rw [vluxei_eq, loadLoop]
    have stays : ∀ i < c.vl, ∀ t : Access, t.startAdd = base → True →
        ∃ u, v.loadIndexed e c eew.bytes vs2 vd t i = some u ∧ u.startAdd = base := by
      intro i less t here _
      have inside : v.InChunk e (elementAddr e t.startAdd (v.indexAt t.regs vs2 eew.bytes i)) := by
        rw [here]
        rcases safe with none | aligned | long
        · omega
        · exact inChunk_of_dvd fits aligned
        · exact inChunk_of_long long
      obtain ⟨u, step, kept, -⟩ := loadIndexed_of_inChunk c vd inside
      exact ⟨u, step, kept.trans here⟩
    have start : (⟨base, data, regs, mem⟩ : Access).startAdd = base := rfl
    have result :=
      foldlM_range (fun _ (t : Access) => t.startAdd = base) (fun _ => True) start stays
      fun _ _ _ _ never => absurd trivial never
    rcases result with ⟨-, u, run, -⟩ | ⟨⟨_, _, never⟩, -⟩
    · rw [run]
      exact Option.some_ne_none u
    · exact absurd trivial never

end

/-- An element of two bytes begins in the last byte of its chunk of four. -/
theorem unaligned_beyond_buffer :
    ¬ Vlsu.LoadsInside ⟨4, 2048, 2, by decide, rfl⟩ .e16 .e8 ⟨1, 0⟩ 0x1003 16 8 := by
  rw [loadsInside_iff (by decide)]
  decide

/-! ## Round trip -/

/-- The first `i` elements have been written from the registers from `r` on. -/
structure Scattered (e : Sew) (base : BitVec 64) (addr : Nat → BitVec 64) (r : Nat) (regs : Buffer)
    (i : Nat) (s : Access) : Prop where
  startAdd : s.startAdd = base
  source : s.regs = regs
  written : ∀ p < i, ∀ j < e.bytes, s.mem (byteAt (addr p) j) = regs (r + (p * e.bytes + j))

/-- The first `i` elements have been fetched to the registers from `r` on. -/
structure Gathered (e : Sew) (base : BitVec 64) (addr : Nat → BitVec 64) (r : Nat) (regs : Buffer)
    (mem : Memory) (i : Nat) (s : Access) : Prop where
  startAdd : s.startAdd = base
  loaded : ∀ p < i, ∀ j < e.bytes, s.regs (r + (p * e.bytes + j)) = mem (byteAt (addr p) j)
  kept : ∀ q, (q < r ∨ r + i * e.bytes ≤ q) → s.regs q = regs q
  source : s.mem = mem

/-- Different elements have no byte in common. -/
def Apart (e : Sew) (addr : Nat → BitVec 64) (n : Nat) : Prop :=
  ∀ p < n, ∀ i < n, p ≠ i → ∀ j < e.bytes, ∀ k < e.bytes, byteAt (addr p) j ≠ byteAt (addr i) k

section

variable {addr : Nat → BitVec 64} {r : Nat} {regs : Buffer} {mem : Memory} {s : Access}
  {vl iw vs2 reg i : Nat}

theorem Scattered.next (here : Scattered e base addr (reg * v.vlenb) regs i s)
    (same : addr i = elementAddr e base (v.indexAt regs vs2 iw i))
    (apart : ∀ p < i, ∀ j < e.bytes, ∀ k < e.bytes, byteAt (addr p) j ≠ byteAt (addr i) k) :
    Scattered e base addr (reg * v.vlenb) regs (i + 1)
      (v.storeIndexed e ⟨vl, 0⟩ iw vs2 reg s i) where
  startAdd := here.startAdd
  source := here.source
  written := by
    have word : e.bytes ≤ 2 ^ 64 := e.bytes_le.trans (by decide)
    have target : elementAddr e s.startAdd (v.indexAt s.regs vs2 iw i) = addr i := by
      rw [here.startAdd, here.source, same]
    intro p less j inside
    unfold storeIndexed
    dsimp only
    rw [target]
    rcases Nat.lt_succ_iff_lt_or_eq.mp less with before | rfl
    · rw [Access.ioWrite_of_outside (apart p before j inside)]
      exact here.written p before j inside
    · rw [Access.ioWrite_at inside word]
      have copied : memcpy s.data 0 s.regs (reg * v.vlenb + (0 + p * e.bytes)) e.bytes (0 + j) =
          s.regs (reg * v.vlenb + (0 + p * e.bytes) + j) := memcpy_at inside
      rw [Nat.zero_add, Nat.zero_add, Nat.add_assoc, here.source] at copied
      rw [here.source, Nat.zero_add]
      exact copied

theorem Gathered.next {c : Csr}
    (here : Gathered e base addr (reg * v.vlenb + c.vstart) regs mem i s)
    (same : addr i = elementAddr e base (v.indexAt s.regs vs2 iw i))
    (inside : v.InChunk e (addr i)) :
    ∃ t, v.loadIndexed e c iw vs2 reg s i = some t ∧
      Gathered e base addr (reg * v.vlenb + c.vstart) regs mem (i + 1) t := by
  have target : elementAddr e s.startAdd (v.indexAt s.regs vs2 iw i) = addr i := by
    rw [here.startAdd, same]
  rw [← target] at inside
  obtain ⟨t, step, startAdd, source, copied⟩ := loadIndexed_of_inChunk c reg inside
  rw [target, here.source, ← Nat.add_assoc] at copied
  have ends : (i + 1) * e.bytes = i * e.bytes + e.bytes := Nat.succ_mul i e.bytes
  refine ⟨t, step, startAdd.trans here.startAdd, ?_, ?_, source.trans here.source⟩
  · intro p less j low
    rw [copied]
    rcases Nat.lt_succ_iff_lt_or_eq.mp less with before | rfl
    · have upto : (p + 1) * e.bytes ≤ i * e.bytes := Nat.mul_le_mul_right _ before
      rw [Nat.succ_mul] at upto
      rw [memcpy_of_outside (by omega)]
      exact here.loaded p before j low
    · rw [← Nat.add_assoc, memcpy_at low, Nat.zero_add]
  · intro q outside
    rw [ends] at outside
    rw [copied, memcpy_of_outside (by omega)]
    exact here.kept q (by omega)

/-- The indices are those of the registers before the load as long as it has not reached them. -/
theorem Gathered.indexAt_eq (here : Gathered e base addr r regs mem i s) (less : i < vl)
    (apart : r + vl * e.bytes ≤ vs2 * v.vlenb ∨ vs2 * v.vlenb + vl * iw ≤ r) :
    v.indexAt s.regs vs2 iw i = v.indexAt regs vs2 iw i := by
  have elements : i * e.bytes ≤ vl * e.bytes := Nat.mul_le_mul_right _ less.le
  have indices : (i + 1) * iw ≤ vl * iw := Nat.mul_le_mul_right _ less
  rw [Nat.succ_mul] at indices
  apply bytesToUint_congr
  intro k low
  exact here.kept _ (by omega)

end

/-- What an indexed store followed by the load of the same elements relies on: the indices are
distinct, no element wraps around, and the destination of the load does not meet the indices. -/
structure Scatters (v : Vlsu) (e eew : Sew) (vl : Nat) (base : BitVec 64) (vs2 vd : Nat)
    (regs : Buffer) : Prop where
  distinct : ∀ p < vl, ∀ i < vl,
    v.indexAt regs vs2 eew.bytes p = v.indexAt regs vs2 eew.bytes i → p = i
  word : ∀ p < vl, base.toNat + e.bytes * (v.indexAt regs vs2 eew.bytes p).toNat + e.bytes ≤ 2 ^ 64
  apart : vd * v.vlenb + vl * e.bytes ≤ vs2 * v.vlenb ∨
    vs2 * v.vlenb + vl * eew.bytes ≤ vd * v.vlenb

/-- A store of the elements from `vs3` on and a load to `vd` right behind it, for all contents of
the memory and of the buffers: the load returns the elements. -/
def LoadsBack (v : Vlsu) (e eew : Sew) (vl : Nat) (base : BitVec 64) (vs2 vs3 vd : Nat)
    (regs : Buffer) : Prop :=
  ∀ (data data' : Buffer) (mem : Memory),
    let s := v.vsuxei e ⟨vl, 0⟩ base vs2 vs3 data regs mem eew
    ∃ t, v.vluxei e ⟨vl, 0⟩ base vs2 vd data' s.regs s.mem eew = some t ∧
      ∀ p < vl, ∀ j < e.bytes,
        t.regs (vd * v.vlenb + (p * e.bytes + j)) = regs (vs3 * v.vlenb + (p * e.bytes + j))

section

variable {eew : Sew} {vl vs2 vs3 vd : Nat} {regs : Buffer}

theorem elementAddr_eq : elementAddr e base index = byteAt base (e.bytes * index.toNat) := by
  unfold elementAddr byteAt
  rw [BitVec.ofNat_mul, BitVec.ofNat_toNat, BitVec.setWidth_eq]

theorem Scatters.elements_apart (scatters : v.Scatters e eew vl base vs2 vd regs) :
    Apart e (fun p => elementAddr e base (v.indexAt regs vs2 eew.bytes p)) vl := by
  intro p hp i hi other j hj k hk same
  apply other
  apply scatters.distinct p hp i hi
  have := scatters.word p hp
  have := scatters.word i hi
  dsimp only at same
  rw [elementAddr_eq, elementAddr_eq, byteAt_add, byteAt_add] at same
  have offset := byteAt_inj (by omega) (by omega) same
  apply BitVec.eq_of_toNat_eq
  rcases Nat.lt_trichotomy (v.indexAt regs vs2 eew.bytes p).toNat
    (v.indexAt regs vs2 eew.bytes i).toNat with below | equal | above
  · have := Nat.mul_le_mul_left e.bytes (Nat.succ_le_of_lt below)
    rw [Nat.mul_succ] at this
    omega
  · exact equal
  · have := Nat.mul_le_mul_left e.bytes (Nat.succ_le_of_lt above)
    rw [Nat.mul_succ] at this
    omega

/-- Behind a store all elements are where the indices say. -/
theorem store_scattered (vs3 : Nat) (scatters : v.Scatters e eew vl base vs2 vd regs)
    (data : Buffer) (mem : Memory) :
    Scattered e base (fun p => elementAddr e base (v.indexAt regs vs2 eew.bytes p)) (vs3 * v.vlenb)
      regs vl (v.vsuxei e ⟨vl, 0⟩ base vs2 vs3 data regs mem eew) := by
  rw [vsuxei_eq, storeLoop]
  dsimp only
  have run : ∀ n ≤ vl, Scattered e base
      (fun p => elementAddr e base (v.indexAt regs vs2 eew.bytes p))
      (vs3 * v.vlenb) regs n ((List.range n).foldl (v.storeIndexed e ⟨vl, 0⟩ eew.bytes vs2 vs3)
        ⟨base, data, regs, mem⟩) := by
    intro n
    induction n with
    | zero => exact fun _ => ⟨rfl, rfl, fun _ less => absurd less (Nat.not_lt_zero _)⟩
    | succ n ih =>
      intro le
      rw [List.range_succ, List.foldl_append]
      apply (ih (Nat.le_of_succ_le le)).next rfl
      intro p less
      exact scatters.elements_apart p (by omega) n le (Nat.ne_of_lt less)
  exact run vl le_rfl

/-- A load whose indices stay fetches all elements, or reads behind its buffer. -/
theorem load_gathered {c : Csr} (apart : vd * v.vlenb + c.vstart + c.vl * e.bytes ≤ vs2 * v.vlenb ∨
    vs2 * v.vlenb + c.vl * eew.bytes ≤ vd * v.vlenb + c.vstart) (data : Buffer) (mem : Memory) :
    ((∀ p < c.vl, v.InChunk e (elementAddr e base (v.indexAt regs vs2 eew.bytes p))) ∧
      ∃ t, v.vluxei e c base vs2 vd data regs mem eew = some t ∧
        Gathered e base (fun p => elementAddr e base (v.indexAt regs vs2 eew.bytes p))
          (vd * v.vlenb + c.vstart) regs mem c.vl t) ∨
    (∃ p < c.vl, ¬ v.InChunk e (elementAddr e base (v.indexAt regs vs2 eew.bytes p))) ∧
      v.vluxei e c base vs2 vd data regs mem eew = none := by
  rw [vluxei_eq, loadLoop]
  apply foldlM_range (Gathered e base (fun p => elementAddr e base (v.indexAt regs vs2 eew.bytes p))
    (vd * v.vlenb + c.vstart) regs mem)
  · exact ⟨rfl, fun _ less => absurd less (Nat.not_lt_zero _), fun _ _ => rfl, rfl⟩
  · intro i less t here inside
    apply here.next _ inside
    rw [here.indexAt_eq less apart]
  · intro i less t here outside
    apply loadIndexed_of_not_inChunk
    rwa [here.startAdd, here.indexAt_eq less apart]

/-- With given indices, which it does not overwrite, a load keeps to its buffer exactly if every
element is within its chunk. -/
theorem loadsInside_given_iff {c : Csr}
    (apart : vd * v.vlenb + c.vstart + c.vl * e.bytes ≤ vs2 * v.vlenb ∨
      vs2 * v.vlenb + c.vl * eew.bytes ≤ vd * v.vlenb + c.vstart) :
    (∀ (data : Buffer) (mem : Memory), v.vluxei e c base vs2 vd data regs mem eew ≠ none) ↔
      ∀ p < c.vl, v.InChunk e (elementAddr e base (v.indexAt regs vs2 eew.bytes p)) := by
  constructor
  · intro inside
    by_contra beyond
    have failed : v.vluxei e c base vs2 vd (fun _ => 0) regs (fun _ => 0) eew = none :=
      ((load_gathered apart _ _).resolve_left fun loaded => beyond loaded.1).2
    exact inside _ _ failed
  · intro all data mem
    rcases load_gathered apart data mem with ⟨-, t, run, -⟩ | ⟨⟨p, less, outside⟩, -⟩
    · rw [run]
      exact Option.some_ne_none t
    · exact absurd (all p less) outside

/-- What was stored is loaded back exactly if every element is within its chunk. -/
theorem loadsBack_iff (scatters : v.Scatters e eew vl base vs2 vd regs) :
    v.LoadsBack e eew vl base vs2 vs3 vd regs ↔
      ∀ p < vl, v.InChunk e (elementAddr e base (v.indexAt regs vs2 eew.bytes p)) := by
  constructor
  · intro back
    obtain ⟨t, run, -⟩ := back (fun _ => 0) (fun _ => 0) fun _ => 0
    rw [(store_scattered vs3 scatters _ _).source] at run
    rcases load_gathered (c := ⟨vl, 0⟩) scatters.apart _ _ with ⟨inside, -⟩ | ⟨-, failed⟩
    · exact inside
    · exact absurd (run.symm.trans failed) (Option.some_ne_none t)
  · intro inside data data' mem
    have stored := store_scattered vs3 scatters data mem
    dsimp only
    rw [stored.source]
    rcases load_gathered (c := ⟨vl, 0⟩) scatters.apart data' _ with ⟨-, t, run, fetched⟩ |
      ⟨⟨p, less, outside⟩, -⟩
    · exact ⟨t, run, fun p less j low =>
        (fetched.loaded p less j low).trans (stored.written p less j low)⟩
    · exact absurd (inside p less) outside

/-- For elements no longer than the interface: the loads read nothing behind their buffer, whatever
the indices are, exactly if there is no element, the base is aligned to the elements, or a chunk is
longer than an offset of eight bits can be.  With given indices, which the load does not overwrite,
they do so, and load back what was stored, exactly if every element is within its chunk. -/
theorem indexed_iff (v : Vlsu) (e eew : Sew) (fits : e.bytes ≤ v.intfWidth) (base : BitVec 64)
    (vs2 vs3 vd : Nat) :
    (∀ c : Csr, v.LoadsInside e eew c base vs2 vd ↔
      c.vl = 0 ∨ e.bytes ∣ base.toNat ∨ 2 ^ 8 < v.intfWidth) ∧
    (∀ (c : Csr) (regs : Buffer),
      (vd * v.vlenb + c.vstart + c.vl * e.bytes ≤ vs2 * v.vlenb ∨
        vs2 * v.vlenb + c.vl * eew.bytes ≤ vd * v.vlenb + c.vstart) →
      ((∀ (data : Buffer) (mem : Memory), v.vluxei e c base vs2 vd data regs mem eew ≠ none) ↔
        ∀ p < c.vl, v.InChunk e (elementAddr e base (v.indexAt regs vs2 eew.bytes p)))) ∧
    ∀ (vl : Nat) (regs : Buffer), v.Scatters e eew vl base vs2 vd regs →
      (v.LoadsBack e eew vl base vs2 vs3 vd regs ↔
        ∀ p < vl, v.InChunk e (elementAddr e base (v.indexAt regs vs2 eew.bytes p))) :=
  ⟨fun _ => loadsInside_iff fits, fun _ _ => loadsInside_given_iff, fun _ _ => loadsBack_iff⟩

end

/-- Two elements of two bytes: any indices at an aligned base, and the indices 4 and 0 at an odd
one. -/
theorem indexed_aligned :
    Vlsu.LoadsInside ⟨4, 2048, 2, by decide, rfl⟩ .e16 .e8 ⟨2, 0⟩ 0x1002 16 8 ∧
    (∀ (data : Buffer) (mem : Memory),
      Vlsu.vluxei ⟨4, 2048, 2, by decide, rfl⟩ .e16 ⟨2, 0⟩ 0x1001 16 8 data
      (fun r => if r = 16 * 2048 then 4 else 0) mem .e8 ≠ none) ∧
    Vlsu.LoadsBack ⟨4, 2048, 2, by decide, rfl⟩ .e16 .e8 2 0x1002 16 24 8
      (fun r => if r = 16 * 2048 then 5 else 0) := by
  have aligned := indexed_iff ⟨4, 2048, 2, by decide, rfl⟩ .e16 .e8 (by decide) 0x1002 16 24 8
  have odd := indexed_iff ⟨4, 2048, 2, by decide, rfl⟩ .e16 .e8 (by decide) 0x1001 16 24 8
  refine ⟨(aligned.1 _).mpr (by decide), (odd.2.1 ⟨2, 0⟩ _ (by decide)).mpr (by decide), ?_⟩
  exact (aligned.2.2 2 _ ⟨by decide, by decide, by decide⟩).mpr (by decide)

end Vlsu

end SoftHier.Spatz
