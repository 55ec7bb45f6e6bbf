import SoftHier.Spatz.Vlsu
import SoftHier.Lib.Strided

/-!
# Unit-stride loads and stores

`VLE8` to `VLE64` and `VSE8` to `VSE64` move `VL` elements in beats of the width of the interface: a
short beat up to the first aligned address and whole beats from there on.  Every beat is an access
of the full width, also the short one and the last.

* `load_spec`: a load fills the registers up to the first aligned address behind its elements.
* `loadsGroup_iff`: it keeps to its destination exactly if that address is still in the group.
* `storesElements_iff`: a store writes nothing but its elements exactly if they end at an aligned
  address, and begin at one or fill a beat.
-/

namespace SoftHier.Spatz

/-- `VL` and `VSTART`.  A vector is at most eight registers long, which is far below the range of
the counters of type `int` that run over its bytes. -/
structure Csr where
  vl : Nat
  vstart : Nat

/-- The element widths. -/
inductive Sew
  | e8 | e16 | e32 | e64
  deriving DecidableEq, Repr

def Sew.bytes : Sew → Nat
  | e8 => 1
  | e16 => 2
  | e32 => 4
  | e64 => 8

namespace Vlsu

variable (v : Vlsu)

/-! ## The code -/

/-- Bytes are read from `start_add` on, and `count` of them go to the registers from `r` on. -/
def loadBeat (r count : Nat) (s : Access) : Access :=
  let s := s.ioRead s.startAdd v.intfWidth
  let s := { s with regs := memcpy s.regs r s.data 0 count }
  { s with startAdd := byteAt s.startAdd count }

/-- The bytes of the registers from `r` on replace `count` bytes of `data`, which is written to
`start_add`. -/
def storeBeat (r count : Nat) (s : Access) : Access :=
  let s := { s with data := memcpy s.data 0 s.regs r count }
  let s := s.ioWrite s.startAdd v.intfWidth
  { s with startAdd := byteAt s.startAdd count }

/-- The common body of the loads and stores: a short beat up to the first aligned address, and
whole beats up to the bytes of the elements.  The mask `vm` is not read. -/
def unitStride (beat : Nat → Nat → Access → Access) (c : Csr) (bytes reg : Nat) (s : Access) :
    Access :=
  let align := s.startAdd.toNat % v.intfWidth
  let (s, align) :=
    if align ≠ 0 then
      let count := v.intfWidth - align
      (beat (reg * v.vlenb + c.vstart) count s, align)
    else (s, v.intfWidth)
  strided bytes v.intfWidth_pos (fun i => beat (reg * v.vlenb + i) v.intfWidth)
    (c.vstart + (v.intfWidth - align)) s

section

variable (c : Csr) (rs1 : BitVec 64) (reg : Nat) (data regs : Buffer) (mem : Memory)

/-- `lib_VLE8V(iss, rs1, vd, vm)`; `data` is what the local buffer holds. -/
def libVLE8V : Access := v.unitStride v.loadBeat c c.vl reg ⟨rs1, data, regs, mem⟩

/-- `lib_VLE16V(iss, rs1, vd, vm)` -/
def libVLE16V : Access := v.unitStride v.loadBeat c (c.vl * 2) reg ⟨rs1, data, regs, mem⟩

/-- `lib_VLE32V(iss, rs1, vd, vm)` -/
def libVLE32V : Access := v.unitStride v.loadBeat c (c.vl * 4) reg ⟨rs1, data, regs, mem⟩

/-- `lib_VLE64V(iss, rs1, vd, vm)` -/
def libVLE64V : Access := v.unitStride v.loadBeat c (c.vl * 8) reg ⟨rs1, data, regs, mem⟩

/-- `lib_VSE8V(iss, rs1, vs3, vm)` -/
def libVSE8V : Access := v.unitStride v.storeBeat c c.vl reg ⟨rs1, data, regs, mem⟩

/-- `lib_VSE16V(iss, rs1, vs3, vm)` -/
def libVSE16V : Access := v.unitStride v.storeBeat c (c.vl * 2) reg ⟨rs1, data, regs, mem⟩

/-- `lib_VSE32V(iss, rs1, vs3, vm)` -/
def libVSE32V : Access := v.unitStride v.storeBeat c (c.vl * 4) reg ⟨rs1, data, regs, mem⟩

/-- `lib_VSE64V(iss, rs1, vs3, vm)` -/
def libVSE64V : Access := v.unitStride v.storeBeat c (c.vl * 8) reg ⟨rs1, data, regs, mem⟩

/-- The load of an element width. -/
def vle : Sew → Access
  | .e8 => v.libVLE8V c rs1 reg data regs mem
  | .e16 => v.libVLE16V c rs1 reg data regs mem
  | .e32 => v.libVLE32V c rs1 reg data regs mem
  | .e64 => v.libVLE64V c rs1 reg data regs mem

/-- The store of an element width. -/
def vse : Sew → Access
  | .e8 => v.libVSE8V c rs1 reg data regs mem
  | .e16 => v.libVSE16V c rs1 reg data regs mem
  | .e32 => v.libVSE32V c rs1 reg data regs mem
  | .e64 => v.libVSE64V c rs1 reg data regs mem

theorem vle_eq (e : Sew) : v.vle c rs1 reg data regs mem e =
    v.unitStride v.loadBeat c (c.vl * e.bytes) reg ⟨rs1, data, regs, mem⟩ := by
  cases e with
  | e8 => rw [Sew.bytes, Nat.mul_one]; rfl
  | e16 | e32 | e64 => rfl

theorem vse_eq (e : Sew) : v.vse c rs1 reg data regs mem e =
    v.unitStride v.storeBeat c (c.vl * e.bytes) reg ⟨rs1, data, regs, mem⟩ := by
  cases e with
  | e8 => rw [Sew.bytes, Nat.mul_one]; rfl
  | e16 | e32 | e64 => rfl

end

/-! ## The beats -/

/-- The bytes up to the first aligned address. -/
def lead (base : BitVec 64) : Nat := roundUp v.intfWidth base.toNat - base.toNat

section

variable (base : BitVec 64)

theorem add_lead : base.toNat + v.lead base = roundUp v.intfWidth base.toNat :=
  Nat.add_sub_of_le (le_roundUp v.intfWidth_pos)

theorem dvd_add_lead : v.intfWidth ∣ base.toNat + v.lead base := by
  rw [add_lead]
  exact dvd_roundUp

theorem lead_lt : v.lead base < v.intfWidth := by
  have less := roundUp_lt (n := base.toNat) v.intfWidth_pos
  rw [← v.add_lead] at less
  omega

/-- Where the beats end. -/
theorem add_strideEnd_lead (n : Nat) :
    base.toNat + strideEnd n v.intfWidth (v.lead base) = roundUp v.intfWidth (base.toNat + n) :=
  add_strideEnd v.intfWidth_pos (v.dvd_add_lead base) (v.lead_lt base)

theorem lead_of_aligned (aligned : base.toNat % v.intfWidth = 0) : v.lead base = 0 := by
  unfold lead
  rw [roundUp_of_dvd v.intfWidth_pos (Nat.dvd_of_mod_eq_zero aligned), Nat.sub_self]

theorem lead_of_unaligned (unaligned : base.toNat % v.intfWidth ≠ 0) :
    v.lead base = v.intfWidth - base.toNat % v.intfWidth := by
  have low := Nat.mod_lt base.toNat v.intfWidth_pos
  have less := v.lead_lt base
  have dvd := Nat.mod_eq_zero_of_dvd (v.dvd_add_lead base)
  rw [← Nat.mod_add_mod] at dvd
  rcases Nat.lt_or_ge (base.toNat % v.intfWidth + v.lead base) v.intfWidth with short | whole
  · rw [Nat.mod_eq_of_lt short] at dvd
    omega
  · rw [Nat.mod_eq_sub_mod whole, Nat.mod_eq_of_lt (by omega)] at dvd
    omega

theorem lead_eq_zero_iff : v.lead base = 0 ↔ v.intfWidth ∣ base.toNat := by
  constructor
  · intro zero
    have dvd := v.dvd_add_lead base
    rwa [zero, Nat.add_zero] at dvd
  · intro dvd
    exact v.lead_of_aligned base (Nat.mod_eq_zero_of_dvd dvd)

end

/-- An instruction with `VSTART = 0`: a short beat if the address is not aligned, and whole beats
from the first aligned address on. -/
theorem unitStride_eq (beat : Nat → Nat → Access → Access) (vl bytes reg : Nat) (s : Access) :
    v.unitStride beat ⟨vl, 0⟩ bytes reg s =
      strided bytes v.intfWidth_pos (fun i => beat (reg * v.vlenb + i) v.intfWidth)
        (v.lead s.startAdd)
        (if v.lead s.startAdd = 0 then s else beat (reg * v.vlenb) (v.lead s.startAdd) s) := by
  unfold unitStride
  rcases Decidable.em (s.startAdd.toNat % v.intfWidth = 0) with aligned | unaligned
  · rw [v.lead_of_aligned _ aligned]
    simp [aligned]
  · have ahead := v.lead_of_unaligned _ unaligned
    have low := Nat.mod_lt s.startAdd.toNat v.intfWidth_pos
    have some : v.lead s.startAdd ≠ 0 := by omega
    rw [if_neg some, ahead]
    simp only [if_pos unaligned, Nat.add_zero, Nat.zero_add]

/-! ## Loads -/

/-- `i` bytes have been loaded. -/
structure Loaded (base : BitVec 64) (r : Nat) (regs : Buffer) (mem : Memory) (i : Nat)
    (s : Access) :
    Prop where
  startAdd : s.startAdd = byteAt base i
  regs : s.regs = memcpy regs r (fun k => mem (byteAt base k)) 0 i
  mem : s.mem = mem

theorem loaded_zero {base : BitVec 64} {r : Nat} {data regs : Buffer} {mem : Memory} :
    Loaded base r regs mem 0 ⟨base, data, regs, mem⟩ :=
  ⟨byteAt_zero.symm, memcpy_size_zero.symm, rfl⟩

variable {v} in
theorem Loaded.beat {base : BitVec 64} {r i count : Nat} {regs : Buffer} {mem : Memory} {s : Access}
    (loaded : Loaded base r regs mem i s) (le : count ≤ v.intfWidth) :
    Loaded base r regs mem (i + count) (v.loadBeat (r + i) count s) where
  startAdd := by
    rw [← byteAt_add, ← loaded.startAdd]
    rfl
  regs := by
    have pieces : memcpy s.regs (r + i) (s.ioRead s.startAdd v.intfWidth).data 0 count =
        memcpy regs r (fun k => mem (byteAt base k)) 0 (i + count) := by
      rw [loaded.regs]
      apply memcpy_append
      intro j less
      rw [Nat.zero_add, Nat.zero_add, Access.ioRead_data (less.trans_le le), loaded.startAdd,
        loaded.mem, byteAt_add]
    exact pieces
  mem := loaded.mem

/-- A load fills the registers up to the first aligned address behind its elements. -/
theorem load_spec (base : BitVec 64) (vl bytes vd : Nat) (data regs : Buffer) (mem : Memory) :
    ∃ e, base.toNat + e = roundUp v.intfWidth (base.toNat + bytes) ∧
      Loaded base (vd * v.vlenb) regs mem e
        (v.unitStride v.loadBeat ⟨vl, 0⟩ bytes vd ⟨base, data, regs, mem⟩) := by
  refine ⟨strideEnd bytes v.intfWidth (v.lead base), v.add_strideEnd_lead base bytes, ?_⟩
  have start : Loaded base (vd * v.vlenb) regs mem 0 ⟨base, data, regs, mem⟩ := loaded_zero
  have head := start.beat (v.lead_lt base).le
  rw [Nat.zero_add] at head
  rw [unitStride_eq]
  apply strided_inv v.intfWidth_pos
  · exact fun i t _ _ loaded => loaded.beat le_rfl
  · split
    · rename_i none
      rw [none]
      exact start
    · exact head

/-- The load of `vl` elements to the `lmul` registers from `vd` on, for all contents: it fills the
group with its elements and leaves everything outside the group unchanged. -/
def LoadsGroup (e : Sew) (vl : Nat) (base : BitVec 64) (vd lmul : Nat) : Prop :=
  ∀ (data regs : Buffer) (mem : Memory),
    (∀ j < vl * e.bytes,
      (v.vle ⟨vl, 0⟩ base vd data regs mem e).regs (vd * v.vlenb + j) = mem (byteAt base j)) ∧
    ∀ r, (r < vd * v.vlenb ∨ vd * v.vlenb + lmul * v.vlenb ≤ r) →
      (v.vle ⟨vl, 0⟩ base vd data regs mem e).regs r = regs r

variable {v} {e : Sew} {vl vd lmul : Nat} {base : BitVec 64}

/-- The last beat of a load that keeps to its group ends in the group. -/
theorem LoadsGroup.roundUp_le (loads : v.LoadsGroup e vl base vd lmul) :
    roundUp v.intfWidth (base.toNat + vl * e.bytes) ≤ base.toNat + lmul * v.vlenb := by
  by_contra beyond
  obtain ⟨_, kept⟩ := loads (fun _ => 0) (fun _ => 0) fun _ => 1
  obtain ⟨stop, ends, loaded⟩ :=
    v.load_spec base vl (vl * e.bytes) vd (fun _ => 0) (fun _ => 0) fun _ => 1
  have spill : lmul * v.vlenb < stop := by omega
  have same := kept (vd * v.vlenb + lmul * v.vlenb) (.inr le_rfl)
  rw [vle_eq, loaded.regs, memcpy_at spill] at same
  exact absurd same (by decide)

/-- A load keeps to its destination exactly if the first aligned address behind its elements is at
most the address behind a full group. -/
theorem loadsGroup_iff : v.LoadsGroup e vl base vd lmul ↔
    roundUp v.intfWidth (base.toNat + vl * e.bytes) ≤ base.toNat + lmul * v.vlenb := by
  constructor
  · exact LoadsGroup.roundUp_le
  · intro within data regs mem
    obtain ⟨stop, ends, loaded⟩ := v.load_spec base vl (vl * e.bytes) vd data regs mem
    have above := le_roundUp (n := base.toNat + vl * e.bytes) v.intfWidth_pos
    rw [vle_eq, loaded.regs]
    constructor
    · intro j less
      rw [memcpy_at (by omega), Nat.zero_add]
    · intro r outside
      exact memcpy_of_outside (by omega)

/-- A full register of bytes from an address that is not aligned: the last beat spills into the next
register. -/
theorem unaligned_spills :
    ¬ Vlsu.LoadsGroup ⟨4, 2048, 2, by decide, rfl⟩ .e8 2048 0x1001 8 1 := by
  intro loads
  exact absurd loads.roundUp_le (by decide)

/-! ## Stores -/

/-- A store from the registers `regs` is at its byte `i`. -/
structure Storing (base : BitVec 64) (regs : Buffer) (i : Nat) (s : Access) : Prop where
  startAdd : s.startAdd = byteAt base i
  source : s.regs = regs

section

variable {regs : Buffer} {s : Access} {r i count k : Nat} {a : BitVec 64}

theorem storing_zero {data : Buffer} {mem : Memory} : Storing base regs 0 ⟨base, data, regs, mem⟩ :=
  ⟨byteAt_zero.symm, rfl⟩

theorem Storing.beat (storing : Storing base regs i s) :
    Storing base regs (i + count) (v.storeBeat r count s) where
  startAdd := by
    rw [← byteAt_add, ← storing.startAdd]
    rfl
  source := storing.source

/-- The bytes of a beat that come from the registers. -/
theorem Storing.beat_regs (storing : Storing base regs i s) (le : count ≤ v.intfWidth)
    (less : k < count) : (v.storeBeat r count s).mem (byteAt base (i + k)) = regs (r + k) := by
  have written : (v.storeBeat r count s).mem (byteAt s.startAdd k) =
      memcpy s.data 0 s.regs r count k := Access.ioWrite_at (less.trans_le le) v.intfWidth_le
  have copied : memcpy s.data 0 s.regs r count (0 + k) = s.regs (r + k) := memcpy_at less
  rw [Nat.zero_add] at copied
  rw [← byteAt_add, ← storing.startAdd, written, copied, storing.source]

/-- The other bytes of a beat are what the buffer held before. -/
theorem Storing.beat_data (storing : Storing base regs i s) (le : count ≤ k)
    (less : k < v.intfWidth) : (v.storeBeat r count s).mem (byteAt base (i + k)) = s.data k := by
  have written : (v.storeBeat r count s).mem (byteAt s.startAdd k) =
      memcpy s.data 0 s.regs r count k := Access.ioWrite_at less v.intfWidth_le
  rw [← byteAt_add, ← storing.startAdd, written]
  exact memcpy_of_outside (by omega)

theorem Storing.beat_of_outside (storing : Storing base regs i s)
    (outside : ∀ k < v.intfWidth, a ≠ byteAt base (i + k)) :
    (v.storeBeat r count s).mem a = s.mem a := by
  apply Access.ioWrite_of_outside
  intro k less
  rw [storing.startAdd, byteAt_add]
  exact outside k less

end

/-- `i` bytes have been stored, and nothing but the `n` bytes from `base` on has changed. -/
structure Stored (base : BitVec 64) (r : Nat) (regs : Buffer) (mem : Memory) (n i : Nat)
    (s : Access) :
    Prop extends Storing base regs i s where
  written : ∀ p < i, s.mem (byteAt base p) = regs (r + p)
  kept : ∀ a, (∀ p < n, a ≠ byteAt base p) → s.mem a = mem a

section

variable {regs data : Buffer} {mem : Memory} {s : Access} {r i n count : Nat}

theorem stored_zero : Stored base r regs mem n 0 ⟨base, data, regs, mem⟩ where
  toStoring := storing_zero
  written := fun _ less => absurd less (Nat.not_lt_zero _)
  kept := fun _ _ => rfl

/-- A beat within the `n` bytes. -/
theorem Stored.beat (stored : Stored base r regs mem n i s) (le : count ≤ v.intfWidth)
    (reach : i + v.intfWidth ≤ n) (word : n ≤ 2 ^ 64) :
    Stored base r regs mem n (i + count) (v.storeBeat (r + i) count s) where
  toStoring := stored.toStoring.beat
  written := by
    intro p less
    rcases Nat.lt_or_ge p i with before | here
    · have outside : ∀ k < v.intfWidth, byteAt base p ≠ byteAt base (i + k) := by
        intro k inside same
        have := byteAt_inj (by omega) (by omega) same
        omega
      rw [stored.toStoring.beat_of_outside outside]
      exact stored.written p before
    · obtain ⟨k, rfl⟩ := Nat.exists_eq_add_of_le here
      rw [stored.toStoring.beat_regs le (Nat.lt_of_add_lt_add_left less), Nat.add_assoc]
  kept := by
    intro a other
    have outside : ∀ k < v.intfWidth, a ≠ byteAt base (i + k) := fun k inside => other _ (by omega)
    rw [stored.toStoring.beat_of_outside outside]
    exact stored.kept a other

/-- A store whose elements end at an aligned address, and begin at one or fill a beat. -/
theorem store_spec (vl vs3 : Nat) (word : n ≤ 2 ^ 64) (ends : v.intfWidth ∣ base.toNat + n)
    (full : v.intfWidth ∣ base.toNat ∨ v.intfWidth ≤ n) :
    Stored base (vs3 * v.vlenb) regs mem n n
      (v.unitStride v.storeBeat ⟨vl, 0⟩ n vs3 ⟨base, data, regs, mem⟩) := by
  have stop : strideEnd n v.intfWidth (v.lead base) = n := by
    have grid := v.add_strideEnd_lead base n
    rw [roundUp_of_dvd v.intfWidth_pos ends] at grid
    exact Nat.add_left_cancel grid
  have start : Stored base (vs3 * v.vlenb) regs mem n 0 ⟨base, data, regs, mem⟩ := stored_zero
  have run : Stored base (vs3 * v.vlenb) regs mem n (strideEnd n v.intfWidth (v.lead base))
      (v.unitStride v.storeBeat ⟨vl, 0⟩ n vs3 ⟨base, data, regs, mem⟩) := by
    rw [unitStride_eq]
    apply strided_inv v.intfWidth_pos
    · intro i t _ reach stored
      rw [stop] at reach
      exact stored.beat le_rfl reach word
    · split
      · rename_i none
        rw [none]
        exact start
      · rename_i some
        have whole : v.intfWidth ≤ n := full.resolve_left fun aligned =>
          some ((v.lead_eq_zero_iff base).mpr aligned)
        have head := start.beat (v.lead_lt base).le ((Nat.zero_add _).le.trans whole) word
        rwa [Nat.zero_add] at head
  rwa [stop] at run

/-- The last beat of a loop that does not end with the elements. -/
theorem store_behind_loop (vl vs3 : Nat) (runs : v.lead base < n)
    (behind : ¬ v.intfWidth ∣ base.toNat + n) :
    (v.unitStride v.storeBeat ⟨vl, 0⟩ n vs3 ⟨base, data, regs, mem⟩).mem (byteAt base n) =
      regs (vs3 * v.vlenb + n) := by
  have start : Storing base regs 0 ⟨base, data, regs, mem⟩ := storing_zero
  have head : Storing base regs (v.lead base) (if v.lead base = 0 then ⟨base, data, regs, mem⟩
      else v.storeBeat (vs3 * v.vlenb) (v.lead base) ⟨base, data, regs, mem⟩) := by
    split
    · rename_i none
      rwa [none]
    · have first : Storing base regs (0 + v.lead base)
          (v.storeBeat (vs3 * v.vlenb) (v.lead base) ⟨base, data, regs, mem⟩) := start.beat
      rwa [Nat.zero_add] at first
  have keep : ∀ j t, j < n → j + v.intfWidth ≤ strideEnd n v.intfWidth (v.lead base) →
      Storing base regs j t →
      Storing base regs (j + v.intfWidth) (v.storeBeat (vs3 * v.vlenb + j) v.intfWidth t) :=
    fun _ _ _ _ storing => storing.beat
  obtain ⟨j, t, before, last, storing, result⟩ := strided_last v.intfWidth_pos keep head runs
  have ends := v.add_strideEnd_lead base n
  have reach : n ≠ j + v.intfWidth := by
    intro same
    rw [← last, ← same] at ends
    exact behind (ends ▸ dvd_roundUp)
  have above : n ≤ strideEnd n v.intfWidth (v.lead base) := le_strideEnd v.intfWidth_pos
  obtain ⟨k, rfl⟩ := Nat.exists_eq_add_of_le before.le
  rw [unitStride_eq, result, storing.beat_regs le_rfl (by omega), Nat.add_assoc]

/-- The short beat of a store that is done with it. -/
theorem store_behind_head (vl vs3 : Nat) (unaligned : v.lead base ≠ 0) (done : n ≤ v.lead base) :
    let s := v.unitStride v.storeBeat ⟨vl, 0⟩ n vs3 ⟨base, data, regs, mem⟩
    s.mem (byteAt base n) = regs (vs3 * v.vlenb + n) ∨ s.mem (byteAt base n) = data n := by
  have short := v.lead_lt base
  have start : Storing base regs 0 ⟨base, data, regs, mem⟩ := storing_zero
  dsimp only
  rw [unitStride_eq, strided_of_le done, if_neg unaligned, ← Nat.zero_add n]
  rcases Nat.lt_or_ge n (v.lead base) with copied | rest
  · rw [start.beat_regs short.le copied, Nat.zero_add]
    exact .inl rfl
  · rw [start.beat_data rest (done.trans_lt short), Nat.zero_add]
    exact .inr rfl

/-- The byte behind the elements of any other store is written too. -/
theorem store_behind (vl vs3 : Nat)
    (beyond : ¬ (v.intfWidth ∣ base.toNat + n ∧ (v.intfWidth ∣ base.toNat ∨ v.intfWidth ≤ n))) :
    let s := v.unitStride v.storeBeat ⟨vl, 0⟩ n vs3 ⟨base, data, regs, mem⟩
    s.mem (byteAt base n) = regs (vs3 * v.vlenb + n) ∨ s.mem (byteAt base n) = data n := by
  rcases Nat.lt_or_ge (v.lead base) n with runs | done
  · refine .inl (store_behind_loop vl vs3 runs fun aligned => beyond ⟨aligned, .inr ?_⟩)
    have apart : v.intfWidth ∣ n - v.lead base := by
      rw [← Nat.add_sub_add_left base.toNat]
      exact Nat.dvd_sub aligned (v.dvd_add_lead base)
    have le := Nat.le_of_dvd (by omega) apart
    omega
  · refine store_behind_head vl vs3 (fun none => ?_) done
    have aligned := (v.lead_eq_zero_iff base).mp none
    obtain rfl : n = 0 := by omega
    exact beyond ⟨aligned, .inl aligned⟩

end

/-- The store of `vl` elements from the registers from `vs3` on, for all contents: it writes its
elements and leaves every other byte of the memory unchanged. -/
def StoresElements (v : Vlsu) (e : Sew) (vl : Nat) (base : BitVec 64) (vs3 : Nat) : Prop :=
  ∀ (data regs : Buffer) (mem : Memory),
    (∀ j < vl * e.bytes,
      (v.vse ⟨vl, 0⟩ base vs3 data regs mem e).mem (byteAt base j) = regs (vs3 * v.vlenb + j)) ∧
    ∀ a, (∀ j < vl * e.bytes, a ≠ byteAt base j) →
      (v.vse ⟨vl, 0⟩ base vs3 data regs mem e).mem a = mem a

section

variable {vs3 : Nat}

/-- Two bytes of the elements have the same address if they are `2 ^ 64` apart. -/
theorem StoresElements.word (stores : v.StoresElements e vl base vs3) : vl * e.bytes ≤ 2 ^ 64 := by
  by_contra beyond
  have top : 2 ^ 64 < vl * e.bytes := by omega
  obtain ⟨written, _⟩ := stores (fun _ => 0)
    (fun r => if r = vs3 * v.vlenb + 2 ^ 64 then 1 else 0) fun _ => 0
  have first := written 0 (by omega)
  have wrapped := written (2 ^ 64) top
  rw [byteAt_zero] at first
  rw [byteAt_top, first] at wrapped
  simp at wrapped

/-- The byte behind the elements stays as it was only if no beat reaches it. -/
theorem StoresElements.ends (stores : v.StoresElements e vl base vs3) :
    v.intfWidth ∣ base.toNat + vl * e.bytes ∧
      (v.intfWidth ∣ base.toNat ∨ v.intfWidth ≤ vl * e.bytes) := by
  by_contra beyond
  obtain ⟨written, kept⟩ := stores (fun _ => 1)
    (fun r => if r = vs3 * v.vlenb + vl * e.bytes then 1 else 0) fun _ => 0
  have changed : (v.vse ⟨vl, 0⟩ base vs3 (fun _ => 1)
      (fun r => if r = vs3 * v.vlenb + vl * e.bytes then 1 else 0) (fun _ => 0) e).mem
        (byteAt base (vl * e.bytes)) = 1 := by
    rw [vse_eq]
    rcases store_behind vl vs3 beyond with copied | rest
    · exact copied.trans (if_pos rfl)
    · exact rest
  rcases Decidable.em (∃ j < vl * e.bytes, byteAt base (vl * e.bytes) = byteAt base j) with
    ⟨j, less, same⟩ | other
  · have element := written j less
    rw [← same, changed, if_neg (by omega)] at element
    exact absurd element (by decide)
  · have same := kept (byteAt base (vl * e.bytes)) fun j less same => other ⟨j, less, same⟩
    rw [changed] at same
    exact absurd same (by decide)

/-- A store writes its elements and nothing else exactly if they fit the address space, end at an
aligned address, and begin at an aligned address or fill a beat. -/
theorem storesElements_iff : v.StoresElements e vl base vs3 ↔
    vl * e.bytes ≤ 2 ^ 64 ∧ v.intfWidth ∣ base.toNat + vl * e.bytes ∧
      (v.intfWidth ∣ base.toNat ∨ v.intfWidth ≤ vl * e.bytes) := by
  constructor
  · exact fun stores => ⟨stores.word, stores.ends⟩
  · rintro ⟨word, ends, full⟩ data regs mem
    rw [vse_eq]
    have stored : Stored base (vs3 * v.vlenb) regs mem (vl * e.bytes) (vl * e.bytes)
        (v.unitStride v.storeBeat ⟨vl, 0⟩ (vl * e.bytes) vs3 ⟨base, data, regs, mem⟩) :=
      store_spec vl vs3 word ends full
    exact ⟨stored.written, stored.kept⟩

/-- Five bytes at an aligned address: the second beat writes three bytes behind them. -/
theorem tail_overwrites :
    ¬ Vlsu.StoresElements ⟨4, 2048, 2, by decide, rfl⟩ .e8 5 0x1000 8 := by
  intro stores
  exact absurd stores.ends.1 (by decide)

end

end Vlsu

end SoftHier.Spatz
