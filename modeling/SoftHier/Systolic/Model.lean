import SoftHier.Dma.Pattern
import SoftHier.Gemm.Model
import SoftHier.Lib.Concurrent
import SoftHier.Mem.Hbm

/-!
# The systolic matrix product

Every cluster takes the tiles of X from its left neighbour and those of W from the one below it, the
clusters at the west and the south edge from the HBM, one tile of each in an iteration, into two
pairs of buffers in turn, while RedMule multiplies the pair that came before.  All values are
`uint32_t`, and the addresses of the transfers are cut to it.  The clusters meet at a barrier after
each iteration; in it the bytes of the transfers move and RedMule works in any order, but for the
transfers that are waited for one by one.

* `GemmSystolicInfo`, `gemmSystolicWiseAnalysis`: the parameters of a cluster.
* `computeDmaAccess`, `computeRedmuleAction`: what a cluster does in an iteration; the same in
  `NoStore`, of the program that leaves its results in the clusters.
* `Place`, `Arch.place`: where an address of a cluster leads.
* `Program`, `Program.op`: the program, and the operations of an iteration.
* `Program.Reaches`: the memory before an iteration.
-/

namespace SoftHier.Systolic

open Dma (FlexPosition)
open Gemm (Copy)

/-- The constants of the architecture, the regions in the order in which all configurations have
them. -/
structure Arch extends toDma : Dma.Arch, toMem : Mem.Arch where
  tcdmBase : Nat
  zomemBase : Nat
  zomemSize : Nat
  tcdm_le : tcdmBase + tcdmSize ≤ zomemBase
  zomem_le : zomemBase + zomemSize ≤ tcdmRemote
  remote_le : tcdmRemote + numClusterX * numClusterY * tcdmSize ≤ hbmStartBase
  hbm_le : hbmStartBase + hbmNodeAddrSpace * 2 * (numClusterX + numClusterY) ≤ 2 ^ 32

namespace Arch

variable (A : Arch)

/-- `local` -/
def localAddr (offset : Nat) : Nat := Gemm.localAddr A.tcdmBase offset

/-- `zomem` -/
def zomem (offset : Nat) : Nat := u32 (A.zomemBase + offset)

end Arch

/-! ## Parameters -/

/-- The arguments of `gemm_systolic_wise`. -/
structure Args where
  mSize : Nat
  nSize : Nat
  kSize : Nat
  elemSize : Nat
  tileDimensionM : Nat
  tileDimensionN : Nat
  tileDimensionK : Nat
  deriving DecidableEq, Repr

/-- `GemmSystolicInfo`, without the actions, which each iteration computes anew. -/
structure GemmSystolicInfo where
  matrixM : Nat
  matrixN : Nat
  matrixK : Nat
  tileDimensionM : Nat
  tileDimensionN : Nat
  tileDimensionK : Nat
  elemSize : Nat
  tileSizeByteX : Nat
  tileSizeByteW : Nat
  tileSizeByteY : Nat
  xOffset1 : Nat
  wOffset1 : Nat
  xOffset2 : Nat
  wOffset2 : Nat
  yOffset : Nat
  xwTileLength : Nat
  zTileOnRow : Nat
  zTileOnCol : Nat
  zTileAll : Nat
  systolicDelay : Nat
  totalIter : Nat
  deriving DecidableEq, Repr

/-- The tiles of a dimension, `(size + dimension - 1)/dimension`. -/
def tilesOf (size dimension : Nat) : Nat := sub32 (u32 (size + dimension)) 1 / dimension

/-- `while((z * stride + first) < tiles) z++`, where `z` takes no more steps than there are
tiles. -/
def countTiles (stride first tiles : Nat) : Nat → Nat → Nat
  | 0, z => z
  | steps + 1, z =>
    if u32 (u32 (z * stride) + first) < tiles then countTiles stride first tiles steps (z + 1)
      else z

section

variable (A : Arch) (G : Args)

/-- `gemm_systolic_wise_analysis`, where `stall` is the length of the pause that each tile of Z
takes besides its tiles of X and W. -/
def analysis (stall : Nat) (pos : FlexPosition) : GemmSystolicInfo :=
  let tileSizeByteX := u32 (u32 (G.tileDimensionM * G.tileDimensionN) * G.elemSize)
  let tileSizeByteW := u32 (u32 (G.tileDimensionN * G.tileDimensionK) * G.elemSize)
  let tileSizeByteY := u32 (u32 (G.tileDimensionM * G.tileDimensionK) * G.elemSize)
  let mTile := tilesOf G.mSize G.tileDimensionM
  let nTile := tilesOf G.nSize G.tileDimensionN
  let kTile := tilesOf G.kSize G.tileDimensionK
  let zTileOnRow := countTiles A.numClusterX pos.x kTile kTile 0
  let zTileOnCol := countTiles A.numClusterY pos.y mTile mTile 0
  { matrixM := G.mSize
    matrixN := G.nSize
    matrixK := G.kSize
    tileDimensionM := G.tileDimensionM
    tileDimensionN := G.tileDimensionN
    tileDimensionK := G.tileDimensionK
    elemSize := G.elemSize
    tileSizeByteX := tileSizeByteX
    tileSizeByteW := tileSizeByteW
    tileSizeByteY := tileSizeByteY
    xOffset1 := 0
    wOffset1 := u32 (1 * tileSizeByteX)
    xOffset2 := u32 (2 * tileSizeByteW)
    wOffset2 := u32 (3 * tileSizeByteX)
    yOffset := u32 (4 * tileSizeByteW)
    xwTileLength := nTile
    zTileOnRow := zTileOnRow
    zTileOnCol := zTileOnCol
    zTileAll := u32 (zTileOnRow * zTileOnCol)
    systolicDelay := u32 (pos.x + pos.y)
    totalIter := u32 (u32 (u32 (tilesOf kTile A.numClusterX * tilesOf mTile A.numClusterY) *
      u32 (nTile + stall)) + A.numClusterX + A.numClusterY) }

/-- `gemm_systolic_wise_analysis` -/
def gemmSystolicWiseAnalysis (pos : FlexPosition) : GemmSystolicInfo := analysis A G 1 pos

/-- `gemm_systolic_wise_analysis` of the program without stores. -/
def NoStore.gemmSystolicWiseAnalysis (pos : FlexPosition) : GemmSystolicInfo := analysis A G 0 pos

end

/-- The bytes of a matrix for RedMule: `flex_redmule_config` takes the sizes as `uint16_t`, and the
format `REDMULE_NONE_16` of each trigger has elements of two bytes, whatever `elem_size` is. -/
def redmuleBytes (rows columns : Nat) : Nat := u16 rows * u16 columns * 2

namespace GemmSystolicInfo

variable (info : GemmSystolicInfo)

/-- The bytes of X that RedMule reads. -/
def redmuleX : Nat := redmuleBytes info.tileDimensionM info.tileDimensionN

/-- The bytes of W that RedMule reads. -/
def redmuleW : Nat := redmuleBytes info.tileDimensionN info.tileDimensionK

/-- The bytes of Y that RedMule reads and writes. -/
def redmuleY : Nat := redmuleBytes info.tileDimensionM info.tileDimensionK

end GemmSystolicInfo

/-! ## Actions -/

/-- What the DMA core has recorded for an iteration: `use_sync_dma`, and the transfers that are
used. -/
structure DmaAccess where
  useSyncDma : Bool
  dma1 : Option Copy
  dma2 : Option Copy
  deriving DecidableEq, Repr

/-- `redmule_x`, `redmule_w` and `redmule_y` -/
structure RedmuleAction where
  x : Nat
  w : Nat
  y : Nat
  deriving DecidableEq, Repr

section

variable (A : Arch) (info : GemmSystolicInfo) (pos : FlexPosition)

/-- The offset of the buffer for a tile of X. -/
def GemmSystolicInfo.localX (xwCount : Nat) : Nat :=
  if xwCount % 2 = 0 then info.xOffset1 else info.xOffset2

/-- The offset of the buffer for a tile of W. -/
def GemmSystolicInfo.localW (xwCount : Nat) : Nat :=
  if xwCount % 2 = 0 then info.wOffset1 else info.wOffset2

/-- The transfers of a tile of X and of one of W. -/
def loadTiles (xwCount : Nat) : DmaAccess where
  useSyncDma := false
  dma1 := some
    { dst := A.localAddr (info.localX xwCount)
      src := if pos.x = 0 then u32 (A.hbmWest pos.y 0 + u32 (xwCount * info.tileSizeByteX))
        else A.remotePos (A.leftPos pos) (info.localX xwCount)
      size := info.tileSizeByteX }
  dma2 := some
    { dst := A.localAddr (info.localW xwCount)
      src := if pos.y = 0 then u32 (A.hbmSouth pos.x 0 + u32 (xwCount * info.tileSizeByteW))
        else A.remotePos (A.bottomPos pos) (info.localW xwCount)
      size := info.tileSizeByteW }

/-- The transfer of a tile of Y to the HBM. -/
def storeTile (stCount : Nat) : Copy where
  dst := u32 (A.hbmSouth pos.x 0 +
    u32 (u32 (info.matrixN * info.matrixK) * info.elemSize) / A.numClusterX +
    u32 (u32 (sub32 stCount 1 * A.numClusterY) * info.tileSizeByteY) +
      u32 (pos.y * info.tileSizeByteY))
  src := A.localAddr info.yOffset
  size := info.tileSizeByteY

/-- The transfer that clears the tile of Y. -/
def clearTile : Copy where
  dst := A.localAddr info.yOffset
  src := A.zomem 0
  size := info.tileSizeByteY

/-- The pair of tiles of an iteration of a tile of Z. -/
def xwCountOf (subIter stCount : Nat) : Nat :=
  if subIter < 1 then stCount * info.xwTileLength else stCount * info.xwTileLength + subIter - 1

/-- The iteration after the last pair of tiles has come, where each tile of Z takes `period`. -/
def GemmSystolicInfo.endIter (period : Nat) : Nat :=
  u32 (u32 (info.zTileAll * period) + info.systolicDelay)

/-- `gemm_systolic_wise_compute_dma_access` -/
def computeDmaAccess (iter : Nat) : DmaAccess :=
  let period := u32 (info.xwTileLength + 1)
  if iter ≥ info.systolicDelay ∧ iter < info.endIter period then
    let effIter := iter - info.systolicDelay
    let subIter := effIter % period
    let stCount := effIter / period
    if subIter = 1 then
      if stCount ≠ 0 then
        { useSyncDma := true
          dma1 := some (storeTile A info pos stCount)
          dma2 := some (clearTile A info) }
      else { useSyncDma := false, dma1 := none, dma2 := none }
    else loadTiles A info pos (xwCountOf info subIter stCount)
  else if iter = u32 (info.endIter period + 1) then
    { useSyncDma := false
      dma1 := some (storeTile A info pos ((iter - info.systolicDelay) / period))
      dma2 := none }
  else { useSyncDma := false, dma1 := none, dma2 := none }

/-- The buffers of a pair of tiles, and the tile of Y. -/
def redmuleOn (xwCount : Nat) : RedmuleAction :=
  ⟨info.localX xwCount, info.localW xwCount, info.yOffset⟩

/-- `gemm_systolic_wise_compute_redmule_action` -/
def computeRedmuleAction (iter : Nat) : Option RedmuleAction :=
  let period := u32 (info.xwTileLength + 1)
  if iter ≥ u32 (info.systolicDelay + 1) ∧ iter < u32 (info.endIter period + 1) then
    let effIter := iter - info.systolicDelay - 1
    let subIter := effIter % period
    let stCount := effIter / period
    if subIter ≠ 1 then some (redmuleOn info (xwCountOf info subIter stCount)) else none
  else none

namespace NoStore

/-- `gemm_systolic_wise_compute_dma_access` of the program without stores. -/
def computeDmaAccess (iter : Nat) : DmaAccess :=
  if iter ≥ info.systolicDelay ∧ iter < info.endIter info.xwTileLength then
    loadTiles A info pos (iter - info.systolicDelay)
  else { useSyncDma := false, dma1 := none, dma2 := none }

/-- `gemm_systolic_wise_compute_redmule_action` of the program without stores. -/
def computeRedmuleAction (iter : Nat) : Option RedmuleAction :=
  if iter ≥ u32 (info.systolicDelay + 1) ∧ iter < u32 (info.endIter info.xwTileLength + 1) then
    some (redmuleOn info (iter - info.systolicDelay - 1))
  else none

end NoStore

end

/-! ## Places -/

/-- A byte of the TCDM of a cluster, of its zero memory or of the HBM. -/
inductive Place where
  | l1 (pos : FlexPosition) (offset : Nat)
  | zomem (pos : FlexPosition) (offset : Nat)
  | hbm (addr : Nat)
  deriving DecidableEq, Repr

/-- Where the DMA of a cluster finds an address: its own TCDM, its zero memory, the TCDM of a
cluster behind the network, or the HBM. -/
def Arch.place (A : Arch) (pos : FlexPosition) (addr : Nat) : Place :=
  if A.tcdmBase ≤ addr ∧ addr < A.tcdmBase + A.tcdmSize then .l1 pos (addr - A.tcdmBase)
  else if A.zomemBase ≤ addr ∧ addr < A.zomemBase + A.zomemSize then .zomem pos (addr - A.zomemBase)
  else if A.tcdmRemote ≤ addr ∧ addr < A.tcdmRemote + A.numCluster * A.tcdmSize then
    .l1 (A.getPos ((addr - A.tcdmRemote) / A.tcdmSize)) ((addr - A.tcdmRemote) % A.tcdmSize)
  else .hbm addr

/-! ## The program -/

/-- What RedMule does to a tile of Y, given one of X and one of W, in the format of the call. -/
structure Kernel (β : Type*) where
  job : List β → List β → List β → List β
  length_job : ∀ x w y, (job x w y).length = y.length

/-- The program: the parameters and actions of the clusters. -/
structure Program where
  info : FlexPosition → GemmSystolicInfo
  dma : FlexPosition → Nat → DmaAccess
  redmule : FlexPosition → Nat → Option RedmuleAction

/-- `gemm_systolic_wise` -/
def gemmSystolicWise (A : Arch) (G : Args) : Program where
  info := gemmSystolicWiseAnalysis A G
  dma pos := computeDmaAccess A (gemmSystolicWiseAnalysis A G pos) pos
  redmule pos := computeRedmuleAction (gemmSystolicWiseAnalysis A G pos)

/-- `gemm_systolic_wise` of the program without stores. -/
def NoStore.gemmSystolicWise (A : Arch) (G : Args) : Program where
  info := gemmSystolicWiseAnalysis A G
  dma pos := computeDmaAccess A (gemmSystolicWiseAnalysis A G pos) pos
  redmule pos := computeRedmuleAction (gemmSystolicWiseAnalysis A G pos)

/-- The engines of a cluster. -/
inductive Engine where
  | dma1
  | dma2
  | redmule
  deriving DecidableEq, Repr

/-- A byte of a transfer, or a job of RedMule. -/
@[ext] structure Task where
  pos : FlexPosition
  engine : Engine
  byte : Nat
  deriving DecidableEq, Repr

namespace Program

variable (P : Program) (A : Arch) {β : Type*} (K : Kernel β)

/-- The transfer of an engine. -/
def transfer (iter : Nat) (t : Task) : Option Copy :=
  match t.engine with
  | .dma1 => (P.dma t.pos iter).dma1
  | .dma2 => (P.dma t.pos iter).dma2
  | .redmule => none

/-- The tasks of an iteration. -/
def Busy (iter : Nat) (t : Task) : Prop :=
  A.toDma.Inside t.pos ∧ match t.engine with
  | .redmule => (P.redmule t.pos iter).isSome ∧ t.byte = 0
  | _ => ∃ c ∈ P.transfer iter t, t.byte < c.size

/-- `flex_dma_async_wait_all` between the transfers: the second one waits for the first one. -/
def After (iter : Nat) (s t : Task) : Prop :=
  s.pos = t.pos ∧ (P.dma t.pos iter).useSyncDma = true ∧ s.engine = .dma2 ∧ t.engine = .dma1

/-- The bytes of a tile in the TCDM of a cluster. -/
def tile (pos : FlexPosition) (offset size : Nat) : List Place :=
  (List.range size).map fun k => .l1 pos (offset + k)

@[simp] theorem length_tile (pos : FlexPosition) (offset size : Nat) :
    (tile pos offset size).length = size := by
  unfold tile
  rw [List.length_map, List.length_range]

/-- An operation on nothing. -/
def nop : MemOp Place β where
  reads := []
  writes := []
  value _ := []
  length_value _ _ := rfl

/-- A byte is copied. -/
def copyByte (src dst : Place) : MemOp Place β where
  reads := [src]
  writes := [dst]
  value xs := xs
  length_value _ len := len

/-- A job of RedMule, with the tiles of X, W and Y. -/
def jobOp (pos : FlexPosition) (a : RedmuleAction) : MemOp Place β where
  reads := tile pos a.x (P.info pos).redmuleX ++ (tile pos a.w (P.info pos).redmuleW ++
    tile pos a.y (P.info pos).redmuleY)
  writes := tile pos a.y (P.info pos).redmuleY
  value xs :=
    let rest := xs.drop (P.info pos).redmuleX
    K.job (xs.take (P.info pos).redmuleX) (rest.take (P.info pos).redmuleW)
      (rest.drop (P.info pos).redmuleW)
  length_value xs len := by
    rw [K.length_job, List.length_drop, List.length_drop, len]
    simp only [List.length_append, length_tile]
    omega

/-- The operation of a task. -/
def op (iter : Nat) (t : Task) : MemOp Place β :=
  match t.engine with
  | .redmule => ((P.redmule t.pos iter).map (P.jobOp K t.pos)).getD nop
  | _ => ((P.transfer iter t).map fun c =>
      copyByte (A.place t.pos (c.src + t.byte)) (A.place t.pos (c.dst + t.byte))).getD nop

/-- The memory before an iteration.  `Strict` says which tasks of an iteration have to come after
others, on top of those that wait. -/
inductive Reaches (Strict : Nat → Task → Task → Prop) (start : Place → β) :
    Nat → (Place → β) → Prop where
  | start : Reaches Strict start 0 start
  | next {iter : Nat} {m : Place → β} {ts : List Task} (before : Reaches Strict start iter m)
      (schedule : Schedule (P.Busy A iter) (fun s t => P.After iter s t ∨ Strict iter s t) ts) :
      Reaches Strict start (iter + 1) (runTasks (P.op A K iter) ts m)

end Program

end SoftHier.Systolic
