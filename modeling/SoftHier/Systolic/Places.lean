import Mathlib.Tactic.Ring
import SoftHier.Lib.Loops
import SoftHier.Systolic.Plan

/-!
# The places of the systolic product

* `Arch.place_local`, `Arch.place_remote`, `Arch.place_hbm`: where the addresses of a transfer lead.
* `Args.sourceX`, `Args.sourceW`: where the bytes of a pair of tiles come from.
* `Args.result`: where a tile of Z is stored.
* `result_injective`, `result_ne_west`, `result_ne_south`: the places of the HBM are apart.
-/

namespace SoftHier.Systolic

open Dma (FlexPosition)

/-! ## Tiles -/

section

open Program

variable {β : Type*} {m : Place → β} {pos : FlexPosition} {src dst : Place}

theorem mem_tile {offset size : Nat} {a : Place} :
    a ∈ tile pos offset size ↔ ∃ k < size, a = .l1 pos (offset + k) := by
  unfold tile
  rw [List.mem_map]
  constructor
  · rintro ⟨k, less, rfl⟩
    exact ⟨k, List.mem_range.mp less, rfl⟩
  · rintro ⟨k, less, rfl⟩
    exact ⟨k, List.mem_range.mpr less, rfl⟩

theorem tile_nodup {offset size : Nat} : (tile pos offset size).Nodup := by
  unfold tile
  refine List.Nodup.map (fun k k' same => ?_) List.nodup_range
  exact Nat.add_left_cancel (Place.l1.inj same).2

theorem loads_tile {offset size : Nat} :
    loads m (tile pos offset size) = (List.range size).map fun k => m (.l1 pos (offset + k)) := by
  unfold loads tile
  rw [List.map_map]
  rfl

theorem copyByte_run : (copyByte src dst : MemOp Place β).run m dst = m src :=
  Function.update_self _ _ _

end

/-! ## Addresses -/

section

variable {A : Arch} {pos peer : FlexPosition} {offset k : Nat}

theorem Arch.place_local (below : offset + k < A.tcdmSize) :
    A.place pos (A.localAddr offset + k) = .l1 pos (offset + k) := by
  have first := A.tcdm_le
  have second := A.zomem_le
  have third := A.remote_le
  have last := A.hbm_le
  have exact : A.localAddr offset = A.tcdmBase + offset := u32_of_lt (by omega)
  have back : A.tcdmBase + offset + k - A.tcdmBase = offset + k := by omega
  unfold Arch.place
  rw [exact, if_pos ⟨by omega, by omega⟩, back]

theorem Arch.place_zomem (below : k < A.zomemSize) :
    A.place pos (A.zomem 0 + k) = .zomem pos k := by
  have first := A.tcdm_le
  have second := A.zomem_le
  have third := A.remote_le
  have last := A.hbm_le
  have exact : A.zomem 0 = A.zomemBase := u32_of_lt (by omega)
  unfold Arch.place
  rw [exact, if_neg (by omega), if_pos ⟨by omega, by omega⟩, Nat.add_sub_cancel_left]

theorem Arch.remotePos_eq (inside : A.toDma.Inside peer) (below : offset < A.tcdmSize) :
    A.remotePos peer offset = A.tcdmRemote + A.toDma.index peer * A.tcdmSize + offset := by
  have third := A.remote_le
  have last := A.hbm_le
  have row := Nat.mul_le_mul_right A.tcdmSize (Nat.succ_le_of_lt (Dma.index_lt inside))
  have all : A.toDma.numCluster * A.tcdmSize = A.numClusterX * A.numClusterY * A.tcdmSize := rfl
  have sum : A.remotePos peer offset =
      u32 (A.tcdmRemote + A.toDma.index peer * A.tcdmSize + offset) := by
    unfold Dma.Arch.remotePos Dma.Arch.remoteXy Dma.Arch.clusterIndex Dma.Arch.index u32
    simp only [Nat.add_mod_mod, Nat.mod_add_mod, Nat.mod_mul_mod]
  rw [Nat.succ_mul] at row
  rw [sum, u32_of_lt (by omega)]

theorem Arch.place_remote (inside : A.toDma.Inside peer) (below : offset + k < A.tcdmSize) :
    A.place pos (A.remotePos peer offset + k) = .l1 peer (offset + k) := by
  have first := A.tcdm_le
  have second := A.zomem_le
  have row := Nat.mul_le_mul_right A.tcdmSize (Nat.succ_le_of_lt (Dma.index_lt inside))
  have address : A.remotePos peer offset + k - A.tcdmRemote =
      A.tcdmSize * A.toDma.index peer + (offset + k) := by
    rw [Arch.remotePos_eq inside (by omega), Nat.mul_comm]
    omega
  have same : A.toDma.getPos (A.toDma.index peer) = peer := by
    have less : (A.toDma.getPos (A.toDma.index peer)).x < A.numClusterX :=
      Nat.mod_lt _ A.numClusterX_pos
    exact Dma.index_injective less inside.1 (Dma.index_getPos _)
  rw [Nat.succ_mul] at row
  unfold Arch.place
  rw [if_neg, if_neg, if_pos, address, Nat.mul_add_div A.tcdmSize_pos, Nat.div_eq_of_lt below,
    Nat.add_zero, same, Nat.mul_add_mod, Nat.mod_eq_of_lt below]
  all_goals
    rw [Arch.remotePos_eq inside (by omega)]
    omega

theorem Arch.place_hbm {addr : Nat} (high : A.hbmStartBase ≤ addr) :
    A.place pos addr = .hbm addr := by
  have first := A.tcdm_le
  have second := A.zomem_le
  have third := A.remote_le
  have all : A.toDma.numCluster * A.tcdmSize = A.numClusterX * A.numClusterY * A.tcdmSize := rfl
  unfold Arch.place
  rw [if_neg (by omega), if_neg (by omega), if_neg (by omega)]

/-- The node of the HBM at the west edge of a row. -/
def Arch.westBase (A : Arch) (y : Nat) : Nat := A.hbmStartBase + y * A.hbmNodeAddrSpace

/-- The node of the HBM at the south edge of a column. -/
def Arch.southBase (A : Arch) (x : Nat) : Nat :=
  A.hbmStartBase + (2 * A.numClusterY + A.numClusterX + x) * A.hbmNodeAddrSpace

/-- The nodes of the west edge end where, or before, those of the south edge begin. -/
theorem westBase_le (inside : A.toDma.Inside pos) (x : Nat) :
    A.westBase pos.y + A.hbmNodeAddrSpace ≤ A.southBase x := by
  have rows := inside.2
  have le := Nat.mul_le_mul_right A.hbmNodeAddrSpace
    (show pos.y + 1 ≤ 2 * A.numClusterY + A.numClusterX + x by omega)
  rw [Nat.succ_mul] at le
  unfold Arch.westBase Arch.southBase
  omega

/-- The nodes of the south edge lie in order. -/
theorem southBase_le {x x' : Nat} (less : x < x') :
    A.southBase x + A.hbmNodeAddrSpace ≤ A.southBase x' := by
  have le := Nat.mul_le_mul_right A.hbmNodeAddrSpace
    (show 2 * A.numClusterY + A.numClusterX + x + 1 ≤
      2 * A.numClusterY + A.numClusterX + x' by omega)
  rw [Nat.succ_mul] at le
  unfold Arch.southBase
  omega

theorem southBase_lt (inside : A.toDma.Inside pos) :
    A.southBase pos.x + A.hbmNodeAddrSpace ≤ 2 ^ 32 := by
  have last := A.hbm_le
  have columns := inside.1
  have le := Nat.mul_le_mul_right A.hbmNodeAddrSpace
    (show 2 * A.numClusterY + A.numClusterX + pos.x + 1 ≤
      2 * (A.numClusterX + A.numClusterY) by omega)
  have all : 2 * (A.numClusterX + A.numClusterY) * A.hbmNodeAddrSpace =
      A.hbmNodeAddrSpace * 2 * (A.numClusterX + A.numClusterY) := by ring
  rw [Nat.succ_mul] at le
  unfold Arch.southBase
  omega

theorem hbmWest_eq (inside : A.toDma.Inside pos) : A.hbmWest pos.y 0 = A.westBase pos.y := by
  have le := westBase_le inside pos.x
  have last := southBase_lt inside
  unfold Mem.Arch.hbmWest
  rw [Nat.add_zero]
  exact Nat.mod_eq_of_lt (show A.westBase pos.y < 2 ^ 64 by omega)

theorem hbmSouth_eq (inside : A.toDma.Inside pos) : A.hbmSouth pos.x 0 = A.southBase pos.x := by
  have last := southBase_lt inside
  have sum : A.hbmStartBase + pos.x * A.hbmNodeAddrSpace + A.hbmNodeAddrSpace * 2 * A.numClusterY +
      A.hbmNodeAddrSpace * A.numClusterX + 0 = A.southBase pos.x := by
    unfold Arch.southBase
    ring
  unfold Mem.Arch.hbmSouth
  rw [sum]
  exact Nat.mod_eq_of_lt (by omega)

/-- A cluster that is not in the first column has a left neighbour. -/
theorem leftPos_eq (inside : A.toDma.Inside pos) (inner : pos.x ≠ 0) :
    A.leftPos pos = ⟨pos.x - 1, pos.y⟩ := by
  unfold Dma.Arch.leftPos
  rw [Dma.ring_pred A.numClusterX_lt inside.1, if_neg inner]

/-- A cluster that is not in the first row has one below it. -/
theorem bottomPos_eq (inside : A.toDma.Inside pos) (inner : pos.y ≠ 0) :
    A.bottomPos pos = ⟨pos.x, pos.y - 1⟩ := by
  unfold Dma.Arch.bottomPos
  rw [Dma.ring_pred A.numClusterY_lt inside.2, if_neg inner]

end

/-! ## Tiles -/

namespace Args

variable (A : Arch) (G : Args)

/-- The offset of the buffer for a tile of X; that for one of W lies after it. -/
def bufX (n : Nat) : Nat := n % 2 * (2 * G.tileX)

/-- A byte of a tile of X of a row. -/
def westStream (y n k : Nat) : Place := .hbm (A.westBase y + n * G.tileX + k)

/-- A byte of a tile of W of a column. -/
def southStream (x n k : Nat) : Place := .hbm (A.southBase x + n * G.tileX + k)

/-- Where a byte of a tile of X comes from. -/
def sourceX (pos : FlexPosition) (n k : Nat) : Place :=
  if pos.x = 0 then G.westStream A pos.y n k else .l1 ⟨pos.x - 1, pos.y⟩ (G.bufX n + k)

/-- Where a byte of a tile of W comes from. -/
def sourceW (pos : FlexPosition) (n k : Nat) : Place :=
  if pos.y = 0 then G.southStream A pos.x n k else .l1 ⟨pos.x, pos.y - 1⟩ (G.bufX n + G.tileX + k)

/-- The space in front of the results in a node. -/
def matrixBytes : Nat := G.nSize * G.kSize * G.elemSize / A.numClusterX

/-- Where a byte of a tile of Z of a cluster is stored. -/
def result (pos : FlexPosition) (z k : Nat) : Place :=
  .hbm (A.southBase pos.x + G.matrixBytes A + (z * A.numClusterY + pos.y) * G.tileY + k)

/-- What the stores need: the tiles of W lie in front of the results, and these in the node of the
column; every cluster has a tile. -/
structure StoreFits : Prop where
  matrix_lt : G.nSize * G.kSize * G.elemSize < 2 ^ 32
  stream_le : G.zTiles A ⟨0, 0⟩ * G.length * G.tileX ≤ G.matrixBytes A
  results_le : G.matrixBytes A + G.zTiles A ⟨0, 0⟩ * A.numClusterY * G.tileY ≤ A.hbmNodeAddrSpace
  zTiles_pos : ∀ pos, A.toDma.Inside pos → 0 < G.zTiles A pos

end Args

section

variable {A : Arch} {G : Args} {stall n k z : Nat} {pos pos' : FlexPosition}

/-- A tile of a stream lies in the node. -/
theorem stream_lt (fits : G.Fits A stall) (inside : A.toDma.Inside pos)
    (hn : n < G.zTiles A pos * G.length) (hk : k < G.tileX) :
    n * G.tileX + k < G.zTiles A ⟨0, 0⟩ * G.length * G.tileX := by
  have tiles := Nat.mul_le_mul_right G.length
    (zTiles_le ⟨0, 0⟩ fits inside (Nat.zero_le _) (Nat.zero_le _))
  have le := Nat.mul_le_mul_right G.tileX (Nat.succ_le_of_lt (Nat.lt_of_lt_of_le hn tiles))
  rw [Nat.succ_mul] at le
  omega

/-- A tile of Z lies among the results of its node. -/
theorem result_lt (fits : G.Fits A stall) (inside : A.toDma.Inside pos) (hz : z < G.zTiles A pos)
    (hk : k < G.tileY) : (z * A.numClusterY + pos.y) * G.tileY + k <
      G.zTiles A ⟨0, 0⟩ * A.numClusterY * G.tileY := by
  have rows := inside.2
  have tiles := zTiles_le ⟨0, 0⟩ fits inside (Nat.zero_le _) (Nat.zero_le _)
  have row := Nat.mul_le_mul_right A.numClusterY (Nat.succ_le_of_lt (Nat.lt_of_lt_of_le hz tiles))
  rw [Nat.succ_mul] at row
  have le := Nat.mul_le_mul_right G.tileY
    (show z * A.numClusterY + pos.y + 1 ≤ G.zTiles A ⟨0, 0⟩ * A.numClusterY by omega)
  rw [Nat.succ_mul] at le
  omega

/-- The tiles of Z of all clusters are stored in different places. -/
theorem result_injective (fits : G.Fits A stall) (stores : G.StoreFits A)
    (inside : A.toDma.Inside pos) (inside' : A.toDma.Inside pos') {z' k' : Nat}
    (hz : z < G.zTiles A pos) (hz' : z' < G.zTiles A pos') (hk : k < G.tileY) (hk' : k' < G.tileY)
    (same : G.result A pos z k = G.result A pos' z' k') :
    pos = pos' ∧ z = z' ∧ k = k' := by
  have below := result_lt fits inside hz hk
  have below' := result_lt fits inside' hz' hk'
  have node := stores.results_le
  have equal := Place.hbm.inj same
  have column : pos.x = pos'.x := by
    rcases Nat.lt_trichotomy pos.x pos'.x with less | eq | more
    · have apart := southBase_le (A := A) less
      omega
    · exact eq
    · have apart := southBase_le (A := A) more
      omega
  rw [column] at equal
  have offset : (z * A.numClusterY + pos.y) * G.tileY + k =
      (z' * A.numClusterY + pos'.y) * G.tileY + k' := by
    omega
  obtain ⟨block, byte⟩ := block_inj hk hk' offset
  obtain ⟨tile, row⟩ := block_inj inside.2 inside'.2 block
  refine ⟨?_, tile, byte⟩
  cases pos
  cases pos'
  simp only [FlexPosition.mk.injEq]
  exact ⟨column, row⟩

/-- No tile of X is where one of Z is stored. -/
theorem result_ne_west (fits : G.Fits A stall) (inside : A.toDma.Inside pos) {k' : Nat}
    (hn : n < G.zTiles A pos * G.length) (hk : k < G.tileX) :
    G.result A pos' z k' ≠ G.westStream A pos.y n k := by
  intro same
  have below := stream_lt fits inside hn hk
  have node := fits.stream_le
  have apart := westBase_le inside pos'.x
  have equal := Place.hbm.inj same
  omega

/-- No tile of W is where one of Z is stored. -/
theorem result_ne_south (fits : G.Fits A stall) (stores : G.StoreFits A)
    (inside : A.toDma.Inside pos) (inside' : A.toDma.Inside pos') {k' : Nat}
    (hn : n < G.zTiles A pos * G.length) (hz : z < G.zTiles A pos') (hk : k < G.tileX)
    (hk' : k' < G.tileY) : G.result A pos' z k' ≠ G.southStream A pos.x n k := by
  intro same
  have below := stream_lt fits inside hn hk
  have below' := result_lt fits inside' hz hk'
  have node := stores.results_le
  have front := stores.stream_le
  have equal := Place.hbm.inj same
  rcases Nat.lt_trichotomy pos.x pos'.x with less | eq | more
  · have apart := southBase_le (A := A) less
    omega
  · rw [eq] at equal
    omega
  · have apart := southBase_le (A := A) more
    omega

end

end SoftHier.Systolic
