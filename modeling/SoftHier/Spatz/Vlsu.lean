import SoftHier.Lib.Bytes

/-!
# The load-store unit of the vector core

A vector instruction moves bytes between the register file and a local buffer `data`, and
`Vlsu_io_access` moves them between the buffer and the memory.  Addresses are words of 64 bits and
wrap.  The register file is flat: `vregs[vd][i]` is the byte `vd * vlenb + i`, whatever `i` is, and
the bytes behind the last register are those that follow the array.
-/

namespace SoftHier.Spatz

abbrev Memory := BitVec 64 → Byte

/-- The parameters of a vector core. -/
structure Vlsu where
  /-- `INTF_WIDTH`, the bytes of the interface to the memory -/
  intfWidth : Nat
  /-- The bytes of a vector register. -/
  vlenb : Nat
  pow : ∃ w < 31, intfWidth = 2 ^ w

namespace Vlsu

variable (v : Vlsu)

theorem intfWidth_pos : 0 < v.intfWidth := by
  obtain ⟨w, -, eq⟩ := v.pow
  rw [eq]
  exact Nat.two_pow_pos w

theorem intfWidth_le : v.intfWidth ≤ 2 ^ 64 := by
  obtain ⟨w, less, eq⟩ := v.pow
  rw [eq]
  exact Nat.pow_le_pow_right (by decide) (by omega)

end Vlsu

/-- The address of byte `j` of an access to `base`. -/
def byteAt (base : BitVec 64) (j : Nat) : BitVec 64 := base + BitVec.ofNat 64 j

section

variable {base : BitVec 64} {i j : Nat}

@[simp] theorem byteAt_zero : byteAt base 0 = base := BitVec.add_zero base

theorem byteAt_add : byteAt (byteAt base i) j = byteAt base (i + j) := by
  unfold byteAt
  rw [BitVec.add_assoc, BitVec.ofNat_add]

theorem byteAt_sub (word : j < 2 ^ 64) : (byteAt base j - base).toNat = j := by
  unfold byteAt
  rw [BitVec.add_comm, BitVec.add_sub_cancel, BitVec.toNat_ofNat, Nat.mod_eq_of_lt word]

/-- Different bytes of an access that does not wrap around have different addresses. -/
theorem byteAt_inj (hi : i < 2 ^ 64) (hj : j < 2 ^ 64) (same : byteAt base i = byteAt base j) :
    i = j := by
  rw [← byteAt_sub hi, same, byteAt_sub hj]

theorem byteAt_top : byteAt base (2 ^ 64) = base := BitVec.add_zero base

end

/-- What an instruction works on: its address `start_add`, its buffer `data`, the registers and the
memory. -/
structure Access where
  startAdd : BitVec 64
  data : Buffer
  regs : Buffer
  mem : Memory

namespace Access

/-- `Vlsu_io_access(iss, add, size, data, false)` -/
def ioRead (s : Access) (add : BitVec 64) (size : Nat) : Access :=
  { s with data := fun k => if k < size then s.mem (byteAt add k) else s.data k }

/-- `Vlsu_io_access(iss, add, size, data, true)` -/
def ioWrite (s : Access) (add : BitVec 64) (size : Nat) : Access :=
  { s with
    mem := fun a => if (a - add).toNat < size then s.data (a - add).toNat else s.mem a }

variable {s : Access} {add a : BitVec 64} {size k : Nat}

@[simp] theorem ioRead_startAdd : (s.ioRead add size).startAdd = s.startAdd := rfl

@[simp] theorem ioRead_regs : (s.ioRead add size).regs = s.regs := rfl

@[simp] theorem ioRead_mem : (s.ioRead add size).mem = s.mem := rfl

theorem ioRead_data (inside : k < size) : (s.ioRead add size).data k = s.mem (byteAt add k) :=
  if_pos inside

@[simp] theorem ioWrite_startAdd : (s.ioWrite add size).startAdd = s.startAdd := rfl

@[simp] theorem ioWrite_regs : (s.ioWrite add size).regs = s.regs := rfl

theorem ioWrite_at (inside : k < size) (word : size ≤ 2 ^ 64) :
    (s.ioWrite add size).mem (byteAt add k) = s.data k := by
  have offset : (byteAt add k - add).toNat = k := byteAt_sub (inside.trans_le word)
  unfold ioWrite
  simp only [offset, if_pos inside]

theorem ioWrite_of_outside (outside : ∀ k < size, a ≠ byteAt add k) :
    (s.ioWrite add size).mem a = s.mem a := by
  unfold ioWrite
  apply if_neg
  intro inside
  apply outside _ inside
  unfold byteAt
  rw [BitVec.ofNat_toNat, BitVec.setWidth_eq, BitVec.add_comm, BitVec.sub_add_cancel]

end Access

end SoftHier.Spatz
