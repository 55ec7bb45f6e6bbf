import Mathlib.Algebra.BigOperators.Group.Finset.Basic
import Mathlib.Algebra.Ring.Defs
import SoftHier.Lib.Memory
import SoftHier.Lib.Word

/-!
# The tiled matrix product

Sixteen clusters compute `C = A * B`: the leaders of the rows load the strips of `A` and those of
the columns the strips of `B`, the strips are broadcast, every cluster multiplies its two strips,
and the tiles are scattered to the memory.

* `Sizes`: the sizes of the problem, and the offsets of the strips and tiles.
* `Copy`, `bareDmaStart1d`, `bareDmaStart2d`: what a DMA transfer copies.
* `Buffers`: where the strips and the tile of a cluster are.
* `Element`: the elements of a ring, as they are kept in memory.
* `run`: the program, where the rows of the sixteen tiles are stored in any order.
-/

namespace SoftHier.Gemm

/-! ## Sizes and offsets -/

/-- The macros of the problem; no offset or stride that is computed from them overflows. -/
structure Sizes where
  matN : Nat
  tile : Nat
  elemBytes : Nat
  square : matN = 4 * tile
  tile_pos : 0 < tile
  elemBytes_pos : 0 < elemBytes
  fits : 0x400 + 2 * (matN * matN * elemBytes) + (3 * tile * matN + 3 * tile) * elemBytes < 2 ^ 32

namespace Sizes

variable (G : Sizes)

/-- `BYTES_A_STRIP` -/
def bytesAStrip : Nat := u32 (u32 (G.tile * G.matN) * G.elemBytes)

/-- `BYTES_B_STRIP` -/
def bytesBStrip : Nat := u32 (u32 (G.matN * G.tile) * G.elemBytes)

/-- `BYTES_C_TILE` -/
def bytesCTile : Nat := u32 (u32 (G.tile * G.tile) * G.elemBytes)

/-- `HBM_A_BASE_OFFSET` -/
def hbmABaseOffset : Nat := 0x00000400

/-- `HBM_B_BASE_OFFSET` -/
def hbmBBaseOffset : Nat := u32 (hbmABaseOffset + u32 (u32 (G.matN * G.matN) * G.elemBytes))

/-- `HBM_C_BASE_OFFSET` -/
def hbmCBaseOffset : Nat := u32 (G.hbmBBaseOffset + u32 (u32 (G.matN * G.matN) * G.elemBytes))

/-- `hbm_off_A_strip` -/
def hbmOffAStrip (r : Nat) : Nat :=
  let rowsBefore := u32 (r * G.tile)
  let elemsBefore := u32 (rowsBefore * G.matN)
  u32 (hbmABaseOffset + u32 (elemsBefore * G.elemBytes))

/-- `hbm_off_B_strip_base` -/
def hbmOffBStripBase (c : Nat) : Nat :=
  let colsBefore := u32 (c * G.tile)
  u32 (G.hbmBBaseOffset + u32 (colsBefore * G.elemBytes))

/-- `hbm_off_C_tile` -/
def hbmOffCTile (r c : Nat) : Nat :=
  let row0 := u32 (r * G.tile)
  let col0 := u32 (c * G.tile)
  let elemIndex := u32 (u32 (row0 * G.matN) + col0)
  u32 (G.hbmCBaseOffset + u32 (elemIndex * G.elemBytes))

end Sizes

/-! ## Transfers -/

/-- One contiguous copy of a transfer. -/
structure Copy where
  dst : Nat
  src : Nat
  size : Nat
  deriving DecidableEq, Repr

/-- `bare_dma_start_1d` -/
def bareDmaStart1d (dst src size : Nat) : List Copy := [⟨dst, src, size⟩]

/-- `bare_dma_start_2d` -/
def bareDmaStart2d (dst src size dstStride srcStride reps : Nat) : List Copy :=
  (List.range reps).map fun i => ⟨dst + i * dstStride, src + i * srcStride, size⟩

/-- The addresses a copy writes. -/
def Copy.written (c : Copy) : List Nat := List.range' c.dst c.size

/-- The copy, from memory `source`. -/
def Copy.apply {β : Type*} (source target : Nat → β) (c : Copy) : Nat → β :=
  stores target c.written (loads source (List.range' c.src c.size))

/-! ## The memory of a cluster -/

/-- `align_up_u32` -/
def alignUpU32 (v a : Nat) : Nat := u32 (v + (a - 1)) &&& (2 ^ 32 - a)

/-- The blocks that the allocator returned for the two strips and the tile, the same in every
cluster, each with room for the alignment. -/
structure Buffers (G : Sizes) where
  rawA : Nat
  rawB : Nat
  rawC : Nat
  endA : rawA + u32 (G.bytesAStrip + 64) ≤ 2 ^ 32
  endB : rawB + u32 (G.bytesBStrip + 64) ≤ 2 ^ 32
  endC : rawC + u32 (G.bytesCTile + 64) ≤ 2 ^ 32
  apartAB : rawA + u32 (G.bytesAStrip + 64) ≤ rawB ∨ rawB + u32 (G.bytesBStrip + 64) ≤ rawA
  apartAC : rawA + u32 (G.bytesAStrip + 64) ≤ rawC ∨ rawC + u32 (G.bytesCTile + 64) ≤ rawA
  apartBC : rawB + u32 (G.bytesBStrip + 64) ≤ rawC ∨ rawC + u32 (G.bytesCTile + 64) ≤ rawB

/-- `tcdm_offset_from_ptr` -/
def tcdmOffsetFromPtr (tcdmBase ptr : Nat) : Nat := sub32 ptr tcdmBase

/-- `local` -/
def localAddr (tcdmBase offset : Nat) : Nat := u32 (tcdmBase + offset)

/-- `hbm_addr` -/
def hbmAddr (hbmStartBase offset : Nat) : Nat := hbmStartBase + offset

/-- `ARCH_CLUSTER_TCDM_BASE` and `ARCH_HBM_START_BASE` -/
structure Arch where
  tcdmBase : Nat
  hbmStartBase : Nat
  tcdmBase_lt : tcdmBase < 2 ^ 32

section

variable {G : Sizes} (P : Arch) (L : Buffers G)

/-- `local(a_off)` -/
def Buffers.a : Nat := localAddr P.tcdmBase (tcdmOffsetFromPtr P.tcdmBase (alignUpU32 L.rawA 64))

/-- `local(b_off)` -/
def Buffers.b : Nat := localAddr P.tcdmBase (tcdmOffsetFromPtr P.tcdmBase (alignUpU32 L.rawB 64))

/-- `local(c_off)` -/
def Buffers.c : Nat := localAddr P.tcdmBase (tcdmOffsetFromPtr P.tcdmBase (alignUpU32 L.rawC 64))

end

/-! ## Elements -/

/-- The elements of `R` as `elemBytes` memory cells, in place of the floats. -/
structure Element (R β : Type*) (elemBytes : Nat) where
  encode : R → List β
  decode : List β → R
  length_encode : ∀ x, (encode x).length = elemBytes
  decode_encode : ∀ x, decode (encode x) = x

section

variable {R β : Type*} {elemBytes : Nat}

/-- An element is read. -/
def Element.load (E : Element R β elemBytes) (m : Nat → β) (addr : Nat) : R :=
  E.decode (loads m (List.range' addr elemBytes))

/-- An element is written. -/
def Element.store (E : Element R β elemBytes) (m : Nat → β) (addr : Nat) (x : R) : Nat → β :=
  stores m (List.range' addr elemBytes) (E.encode x)

/-- `matmul_64x256_256x64`, on the memory of a cluster. -/
def matmul [Semiring R] (G : Sizes) (E : Element R β G.elemBytes) (A B C : Nat) (m : Nat → β) :
    Nat → β :=
  (List.range G.tile).foldl (fun m i =>
    let cRow := C + u32 (i * G.tile) * G.elemBytes
    let aRow := A + u32 (i * G.matN) * G.elemBytes
    (List.range G.tile).foldl (fun m j =>
      let acc := (List.range G.matN).foldl (fun acc k =>
        acc + E.load m (aRow + k * G.elemBytes) *
          E.load m (B + u32 (u32 (k * G.tile) + j) * G.elemBytes)) 0
      E.store m (cRow + j * G.elemBytes) acc) m) m

end

/-! ## The program -/

/-- A cluster, by its `FlexPosition`. -/
abbrev Cluster4 := Fin 4 × Fin 4

/-- The clusters of row 0. -/
def row0 : List Cluster4 := (List.finRange 4).map fun rx => (rx, 0)

/-- Cluster `(0, 0)`. -/
def leader : Cluster4 := (0, 0)

/-- The memory behind `hbm_addr`, and those of the clusters. -/
structure System (β : Type*) where
  hbm : Nat → β
  l1 : Cluster4 → Nat → β

section

variable {β : Type*} {G : Sizes} (P : Arch) (L : Buffers G)

/-- The load of the `A` strip by the leader of row `ry`. -/
def copiesA (ry : Nat) : List Copy :=
  bareDmaStart1d (L.a P) (hbmAddr P.hbmStartBase (G.hbmOffAStrip ry)) G.bytesAStrip

/-- The load of the `B` strip by the leader of column `rx`. -/
def copiesB (rx : Nat) : List Copy :=
  let offBBase := G.hbmOffBStripBase rx
  let sizePerRow := u32 (G.tile * G.elemBytes)
  let dstStride := sizePerRow
  let srcStride := u32 (G.matN * G.elemBytes)
  let reps := G.matN
  bareDmaStart2d (L.b P) (hbmAddr P.hbmStartBase offBBase) sizePerRow dstStride srcStride reps

/-- The store of the tile of a cluster. -/
def copiesC (c : Cluster4) : List Copy :=
  let offC := G.hbmOffCTile c.2 c.1
  let sizeRow := u32 (G.tile * G.elemBytes)
  let dstStr := u32 (G.matN * G.elemBytes)
  let srcStr := sizeRow
  let reps := G.tile
  bareDmaStart2d (hbmAddr P.hbmStartBase offC) (L.c P) sizeRow dstStr srcStr reps

/-- The copies of a load, into the memory of cluster `c`. -/
def System.load (s : System β) (c : Cluster4) (copies : List Copy) : System β :=
  { s with l1 := Function.update s.l1 c (copies.foldl (Copy.apply s.hbm) (s.l1 c)) }

/-- The broadcasts of `size` bytes at `addr`, each delivered to the clusters `c` with that
`leader`. -/
def System.deliver (s : System β) (leader : Cluster4 → Cluster4) (addr size : Nat) : System β :=
  { s with l1 := fun c =>
      stores (s.l1 c) (List.range' addr size) (loads (s.l1 (leader c)) (List.range' addr size)) }

/-- The strips are loaded by the leaders, one after the other, and broadcast. -/
def dataIn (s : System β) : System β :=
  let s := (List.finRange 4).foldl (fun s ry => s.load (0, ry) (copiesA P L ry)) s
  let s := (List.finRange 4).foldl (fun s rx => s.load (rx, 0) (copiesB P L rx)) s
  let s := s.deliver (fun c => (0, c.2)) (L.a P) G.bytesAStrip
  s.deliver (fun c => (c.1, 0)) (L.b P) G.bytesBStrip

/-- Every cluster multiplies its strips. -/
def compute {R : Type*} [Semiring R] (E : Element R β G.elemBytes) (s : System β) : System β :=
  { s with l1 := fun c => matmul G E (L.a P) (L.b P) (L.c P) (s.l1 c) }

/-- The copies of all clusters. -/
def allCopiesC : List (Cluster4 × Copy) :=
  (List.finRange 4 ×ˢ List.finRange 4).flatMap fun c => (copiesC P L c).map (c, ·)

/-- The tiles are stored, copy by copy in the given order. -/
def dataOut (order : List (Cluster4 × Copy)) (s : System β) : System β :=
  { s with hbm := order.foldl (fun hbm t => t.2.apply (s.l1 t.1) hbm) s.hbm }

/-- The program from the loads on. -/
def run {R : Type*} [Semiring R] (E : Element R β G.elemBytes) (order : List (Cluster4 × Copy))
    (s : System β) : System β :=
  dataOut order (compute P L E (dataIn P L s))

end

end SoftHier.Gemm
