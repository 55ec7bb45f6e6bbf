import SoftHier.Lib.Bytes
import SoftHier.Lib.Word

/-!
# The matrix accelerator

The parts of the accelerator's state and the functions on them: the tiling of a job, the addresses
and counts of its memory accesses, and the buffers with the computation.  The state machine that
drives them is in `SoftHier.Redmule.Machine`.

* `Arch`, `Regs`: the hardware configuration and the registers.
* `Tiles`, `Iter`: the tiling and the three indices of the iteration.
* `Access`: the access cursor, with `nextAddr` and the three functions that count the blocks of a
  phase.
* `Datapath`: the buffers, with `processCompute` and `processIterInstruction`.
-/

namespace SoftHier.Redmule

/-- `redmule_state` -/
inductive RedmuleState
  | idle | preload | routine | storing | finished | acknowledge
  deriving DecidableEq, Repr

/-- `iter_instruction` -/
inductive IterInstruction
  | loadY | loadW | loadWCompute | loadX | storZ | forwardYZ
  deriving DecidableEq, Repr

/-- The configuration of the constructor.  The products of the floating-point modes are given: from
the tile `z`, the buffers `x` and `w` and the dimensions they compute the new tile. -/
structure Arch where
  ceHeight : Nat
  ceWidth : Nat
  cePipe : Nat
  queueDepth : Nat
  bandwidth : Nat
  foldTilesMapping : Bool
  matmulFp16 : Buffer → Buffer → Buffer → Nat → Nat → Nat → Buffer
  matmulFp8e4m3 : Buffer → Buffer → Buffer → Nat → Nat → Nat → Buffer

/-- The registers, with the element size that the trigger of a job sets. -/
structure Regs where
  mSize : Nat
  nSize : Nat
  kSize : Nat
  xAddr : Nat
  wAddr : Nat
  yAddr : Nat
  zAddr : Nat
  elemSize : Nat
  deriving DecidableEq, Repr

namespace Arch

variable (A : Arch)

/-- `buffer_h` -/
def bufferH : Nat := A.ceHeight

/-- `buffer_w` -/
def bufferW : Nat := u32 (A.ceWidth * u32 (A.cePipe + 1))

/-- `buffer_n` -/
def bufferN (elemSize : Nat) : Nat := A.bandwidth / elemSize

/-- `buffer_h_byte` -/
def bufferHByte (elemSize : Nat) : Nat := u32 (A.ceHeight * elemSize)

/-- `buffer_n_byte` -/
def bufferNByte : Nat := A.bandwidth

/-- `buffer_w_byte` -/
def bufferWByte (elemSize : Nat) : Nat := u32 (A.bufferW * elemSize)

/-- `buffer_yz_byte` -/
def bufferYZByte (elemSize : Nat) : Nat := u32 (u32 (A.ceHeight * A.bufferW) * elemSize)

end Arch

/-! ## Tiling -/

/-- The number of tiles in each direction, and the size of the last tile if that is not whole. -/
structure Tiles where
  xRowTiles : Nat
  xRowLefts : Nat
  xColTiles : Nat
  xColLefts : Nat
  wRowTiles : Nat
  wRowLefts : Nat
  wColTiles : Nat
  wColLefts : Nat
  zRowTiles : Nat
  zRowLefts : Nat
  zColTiles : Nat
  zColLefts : Nat
  deriving DecidableEq, Repr

/-- `iter_i`, `iter_j`, `iter_k` -/
structure Iter where
  i : Nat
  j : Nat
  k : Nat
  deriving DecidableEq, Repr

/-- `size / buffer + (size % buffer > 0 ? 1 : 0)` -/
def tileCount (size buffer : Nat) : Nat := size / buffer + if size % buffer > 0 then 1 else 0

/-- The tiling that `init_redmule_meta_data` computes. -/
def initTiles (A : Arch) (R : Regs) : Tiles where
  xRowTiles := tileCount R.nSize (A.bufferN R.elemSize)
  xRowLefts := R.nSize % A.bufferN R.elemSize
  xColTiles := tileCount R.mSize A.bufferH
  xColLefts := R.mSize % A.bufferH
  wRowTiles := tileCount R.kSize A.bufferW
  wRowLefts := R.kSize % A.bufferW
  wColTiles := tileCount R.nSize (A.bufferN R.elemSize)
  wColLefts := R.nSize % A.bufferN R.elemSize
  zRowTiles := tileCount R.kSize A.bufferW
  zRowLefts := R.kSize % A.bufferW
  zColTiles := tileCount R.mSize A.bufferH
  zColLefts := R.mSize % A.bufferH

/-- `next_iteration`: the next indices, and whether the iteration is over. -/
def nextIteration (T : Tiles) (it : Iter) : Iter × Bool :=
  let k := u32 (it.k + 1)
  if k = T.xRowTiles then
    let j := u32 (it.j + 1)
    if j = T.zRowTiles then
      let i := u32 (it.i + 1)
      (⟨i, 0, 0⟩, i == T.zColTiles)
    else (⟨it.i, j, 0⟩, false)
  else (⟨it.i, it.j, k⟩, false)

/-! ## Addresses -/

/-- `calculate_tile_base_address` -/
def calculateTileBaseAddress (A : Arch) (R : Regs) (base stride tileCol tileRow i j : Nat) : Nat :=
  if A.foldTilesMapping then
    let tilesPerRow := u32 (stride + tileRow - 1) / tileRow
    u32 (base + (i * tilesPerRow + j) * tileRow * tileCol * R.elemSize)
  else u32 (base + (i * tileCol * stride + j * tileRow) * R.elemSize)

/-- `inc_addr` -/
def incAddr (A : Arch) (R : Regs) (addr stride tileRow : Nat) : Nat :=
  if A.foldTilesMapping then u32 (addr + tileRow * R.elemSize) else u32 (addr + stride * R.elemSize)

/-- A request to the TCDM, whose data is in the access buffer. -/
structure TcdmReq where
  addr : Nat
  size : Nat
  isWrite : Bool
  deriving DecidableEq, Repr

/-- The access cursor: the next address and the blocks left of each matrix, and the instruction
that goes with the last access. -/
structure Access where
  iterXAddr : Nat
  iterWAddr : Nat
  iterYAddr : Nat
  iterZAddr : Nat
  xAccBlock : Nat
  wAccBlock : Nat
  yAccBlock : Nat
  zAccBlock : Nat
  iterInstruction : IterInstruction
  deriving DecidableEq, Repr

/-- `next_addr`: the next request, `Y -> W -> X -> Z`; there is none without a block left, which is
fatal. -/
def nextAddr (A : Arch) (R : Regs) (zStoreWidth : Nat) (a : Access) : Option (TcdmReq × Access) :=
  if a.yAccBlock > 0 then
    some (⟨a.iterYAddr, u32 (A.bufferW * R.elemSize), false⟩,
      { a with
        iterYAddr := incAddr A R a.iterYAddr R.kSize A.bufferW
        yAccBlock := a.yAccBlock - 1
        iterInstruction := .loadY })
  else if a.wAccBlock > 0 then
    some (⟨a.iterWAddr, u32 (A.bufferW * R.elemSize), false⟩,
      { a with
        iterWAddr := incAddr A R a.iterWAddr R.kSize A.bufferW
        wAccBlock := a.wAccBlock - 1
        iterInstruction := if a.wAccBlock - 1 = 0 then .loadWCompute else .loadW })
  else if a.xAccBlock > 0 then
    some (⟨a.iterXAddr, A.bandwidth, false⟩,
      { a with
        iterXAddr := incAddr A R a.iterXAddr R.nSize (A.bufferN R.elemSize)
        xAccBlock := a.xAccBlock - 1
        iterInstruction := .loadX })
  else if a.zAccBlock > 0 then
    some (⟨a.iterZAddr, u32 (zStoreWidth * R.elemSize), true⟩,
      { a with
        iterZAddr := incAddr A R a.iterZAddr R.kSize A.bufferW
        zAccBlock := a.zAccBlock - 1
        iterInstruction := .storZ })
  else none

/-- The rows of tile row `i`: `m_size - i * ce_height`, at most `ce_height`. -/
def rowBlocks (A : Arch) (R : Regs) (i : Nat) : Nat :=
  min (sub32 R.mSize (u32 (i * A.ceHeight))) A.ceHeight

/-- The indices of the X tile that is loaded during an iteration: those of the next one. -/
def nextTile (T : Tiles) (it : Iter) : Iter :=
  if u32 (it.k + 1) = T.xRowTiles then
    if u32 (it.j + 1) = T.zRowTiles then ⟨u32 (it.i + 1), 0, 0⟩ else ⟨it.i, u32 (it.j + 1), 0⟩
  else ⟨it.i, it.j, u32 (it.k + 1)⟩

/-- The row and column of the Y tile that is loaded during the last iteration of a tile. -/
def nextYTile (T : Tiles) (it : Iter) : Nat × Nat :=
  if u32 (it.j + 1) = T.zRowTiles then (u32 (it.i + 1), 0) else (it.i, u32 (it.j + 1))

/-- The row and column of the Z tile that is stored during the first iteration of a tile. -/
def previousZTile (T : Tiles) (it : Iter) : Nat × Nat :=
  if it.j = 0 then (sub32 it.i 1, sub32 T.zRowTiles 1) else (it.i, sub32 it.j 1)

/-- `is_last_iteration` -/
def isLastIteration (T : Tiles) (it : Iter) : Bool :=
  it.i == sub32 T.zColTiles 1 && it.j == sub32 T.zRowTiles 1 && it.k == sub32 T.xRowTiles 1

/-- `is_first_iteration` -/
def isFirstIteration (it : Iter) : Bool := it.i == 0 && it.j == 0 && it.k == 0

/-- `get_routine_access_block_number`: the total, and the cursor at the start of the phase. -/
def getRoutineAccessBlockNumber (A : Arch) (R : Regs) (T : Tiles) (it : Iter) (zStoreHeight : Nat)
    (a : Access) : Nat × Access :=
  let bufferH := A.bufferH
  let bufferW := A.bufferW
  let bufferN := A.bufferN R.elemSize
  let lastK := it.k == sub32 T.xRowTiles 1
  let wBlocks := if lastK && decide (T.xRowLefts > 0) then T.xRowLefts else bufferN
  let xTile := nextTile T it
  let yTile := nextYTile T it
  let zTile := previousZTile T it
  let loadX := !isLastIteration T it
  let loadY := lastK && !isLastIteration T it
  let storeZ := it.k == 0 && !isFirstIteration it
  let xBlocks := if loadX then rowBlocks A R xTile.i else 0
  let yBlocks := if loadY then rowBlocks A R yTile.1 else 0
  let zBlocks := if storeZ then zStoreHeight else 0
  (u32 (wBlocks + xBlocks + yBlocks + zBlocks),
    { iterXAddr := if loadX then
        calculateTileBaseAddress A R R.xAddr R.nSize bufferH bufferN xTile.i xTile.k
          else a.iterXAddr
      iterWAddr := calculateTileBaseAddress A R R.wAddr R.kSize bufferN bufferW it.k it.j
      iterYAddr := if loadY then
        calculateTileBaseAddress A R R.yAddr R.kSize bufferH bufferW yTile.1 yTile.2
          else a.iterYAddr
      iterZAddr := if storeZ then
        calculateTileBaseAddress A R R.zAddr R.kSize bufferH bufferW zTile.1 zTile.2
          else a.iterZAddr
      xAccBlock := xBlocks
      wAccBlock := wBlocks
      yAccBlock := yBlocks
      zAccBlock := zBlocks
      iterInstruction := a.iterInstruction })

/-- `get_preload_access_block_number` -/
def getPreloadAccessBlockNumber (A : Arch) (R : Regs) (a : Access) : Nat × Access :=
  let rows := min R.mSize A.ceHeight
  (u32 (rows + rows),
    { a with xAccBlock := rows, wAccBlock := 0, yAccBlock := rows, zAccBlock := 0 })

/-- `get_storing_access_block_number` -/
def getStoringAccessBlockNumber (A : Arch) (R : Regs) (T : Tiles) (zStoreHeight : Nat)
    (a : Access) :
    Nat × Access :=
  (zStoreHeight,
    { a with
      iterZAddr := calculateTileBaseAddress A R R.zAddr R.kSize A.bufferH A.bufferW
        (sub32 T.zColTiles 1) (sub32 T.zRowTiles 1)
      xAccBlock := 0
      wAccBlock := 0
      yAccBlock := 0
      zAccBlock := zStoreHeight })

/-- `get_routine_to_storing_latency` -/
def getRoutineToStoringLatency (A : Arch) : Nat := A.bufferW

/-- `get_redmule_array_runtime` -/
def getRedmuleArrayRuntime (A : Arch) (R : Regs) (T : Tiles) (it : Iter) : Nat :=
  let runtimeUnit := A.bufferW
  let rows := if it.k = sub32 T.xRowTiles 1 ∧ T.xRowLefts > 0 then T.xRowLefts
    else A.bufferN R.elemSize
  let runtime := u32 (rows * u32 (A.cePipe + 1))
  let runtimePices := u32 (runtime + runtimeUnit - 1) / runtimeUnit
  u32 (runtimePices * runtimeUnit)

/-! ## Buffers -/

/-- The buffers with the positions of their next rows, and the size of the Z tile to be stored. -/
structure Datapath where
  zStoreWidth : Nat
  zStoreHeight : Nat
  iterXRowPtr : Nat
  iterWRowPtr : Nat
  iterYRowPtr : Nat
  iterZRowPtr : Nat
  accessBuffer : Buffer
  yBufferPreload : Buffer
  wBuffer : Buffer
  xBuffer : Buffer
  zBufferCompute : Buffer
  zBufferPrevios : Buffer

/-- The element of `elemSize` bytes at `index`. -/
def elem (elemSize : Nat) (b : Buffer) (index : Nat) : BitVec (8 * elemSize) :=
  loadLe b (index * elemSize) elemSize

/-- `z += x * w` on unsigned elements, computed as integers and truncated. -/
def macUint {width : Nat} (z x w : BitVec width) : BitVec width :=
  BitVec.ofNat width (z.toNat + x.toNat * w.toNat)

/-- `z += x * w` on signed elements. -/
def macInt {width : Nat} (z x w : BitVec width) : BitVec width :=
  BitVec.ofInt width (z.toInt + x.toInt * w.toInt)

/-- The loops of the integer products, in which `z` is also the tile `y` that they start from. -/
def matmul (elemSize : Nat)
    (mac : BitVec (8 * elemSize) → BitVec (8 * elemSize) → BitVec (8 * elemSize) →
      BitVec (8 * elemSize)) (z x w : Buffer) (mSize nSize kSize : Nat) : Buffer :=
  (List.range mSize).foldl (fun z i =>
    (List.range kSize).foldl (fun z j =>
      (List.range nSize).foldl (fun z k =>
        storeLe z ((i * kSize + j) * elemSize) elemSize
          (mac (elem elemSize z (i * kSize + j)) (elem elemSize x (i * nSize + k))
            (elem elemSize w (k * kSize + j)))) z) z) z

/-- `matmul_uint16` -/
def matmulUint16 := matmul 2 macUint

/-- `matmul_int16` -/
def matmulInt16 := matmul 2 macInt

/-- `matmul_uint8` -/
def matmulUint8 := matmul 1 macUint

/-- `matmul_int8` -/
def matmulInt8 := matmul 1 macInt

/-- `process_compute`: the new contents of `z_buffer_compute`. -/
def processCompute (A : Arch) (R : Regs) (computeAble : Nat) (d : Datapath) : Buffer :=
  let h := u16 A.bufferH
  let n := u16 (A.bufferN R.elemSize)
  let w := u16 A.bufferW
  match computeAble with
  | 1 => matmulUint16 d.zBufferCompute d.xBuffer d.wBuffer h n w
  | 2 => matmulInt16 d.zBufferCompute d.xBuffer d.wBuffer h n w
  | 3 => A.matmulFp16 d.zBufferCompute d.xBuffer d.wBuffer h n w
  | 5 => matmulUint8 d.zBufferCompute d.xBuffer d.wBuffer h n w
  | 6 => matmulInt8 d.zBufferCompute d.xBuffer d.wBuffer h n w
  | 7 => A.matmulFp8e4m3 d.zBufferCompute d.xBuffer d.wBuffer h n w
  | _ => d.zBufferCompute

/-- What is left of `size` after `index` blocks of `block` bytes, at most one block. -/
def cutoff (size index block : Nat) : Nat := min (sub32 (u32 size) (u32 (index * block))) block

/-- The bytes of a row of the next X tile. -/
def xCutoff (A : Arch) (R : Regs) (T : Tiles) (it : Iter) (state : RedmuleState) : Nat :=
  let k := if u32 (it.k + 1) = T.xRowTiles ∨ state = .preload then 0 else u32 (it.k + 1)
  cutoff (R.nSize * R.elemSize) k A.bufferNByte

/-- The bytes of a row of the W tile. -/
def wCutoff (A : Arch) (R : Regs) (it : Iter) : Nat :=
  cutoff (R.kSize * R.elemSize) it.j (A.bufferWByte R.elemSize)

/-- The bytes of a row of the next Y tile. -/
def yCutoff (A : Arch) (R : Regs) (T : Tiles) (it : Iter) (state : RedmuleState) : Nat :=
  let j := if u32 (it.j + 1) = T.zRowTiles ∨ state = .preload then 0 else u32 (it.j + 1)
  cutoff (R.kSize * R.elemSize) j (A.bufferWByte R.elemSize)

/-- The bytes of a row of Z tile column `j`. -/
def zWidthCutoff (A : Arch) (R : Regs) (j : Nat) : Nat :=
  cutoff (R.kSize * R.elemSize) j (A.bufferWByte R.elemSize)

/-- `elem_size` times the rows of Z tile row `i`. -/
def zHeightCutoff (A : Arch) (R : Regs) (i : Nat) : Nat :=
  cutoff (R.mSize * R.elemSize) i (A.bufferHByte R.elemSize)

/-- `process_iter_instruction` -/
def processIterInstruction (A : Arch) (R : Regs) (computeAble : Nat) (T : Tiles) (it : Iter)
    (state : RedmuleState) (a : Access) (d : Datapath) : Datapath :=
  let wByte := A.bufferWByte R.elemSize
  let yzByte := A.bufferYZByte R.elemSize
  match a.iterInstruction with
  | .loadY =>
    { d with
      yBufferPreload :=
        memcpy d.yBufferPreload d.iterYRowPtr d.accessBuffer 0 (yCutoff A R T it state)
      iterYRowPtr := if a.yAccBlock = 0 then 0 else u32 (d.iterYRowPtr + wByte) }
  | .loadW =>
    { d with
      wBuffer := memcpy d.wBuffer d.iterWRowPtr d.accessBuffer 0 (wCutoff A R it)
      iterWRowPtr := u32 (d.iterWRowPtr + wByte) }
  | .loadWCompute =>
    let loaded :=
      { d with wBuffer := memcpy d.wBuffer d.iterWRowPtr d.accessBuffer 0 (wCutoff A R it) }
    { loaded with
      zBufferCompute := processCompute A R computeAble loaded
      iterWRowPtr := 0
      xBuffer := memzero loaded.xBuffer (u32 (A.ceHeight * A.bandwidth))
      wBuffer := memzero loaded.wBuffer (u32 (A.bufferW * A.bandwidth)) }
  | .loadX =>
    { d with
      xBuffer := memcpy d.xBuffer d.iterXRowPtr d.accessBuffer 0 (xCutoff A R T it state)
      iterXRowPtr := if a.xAccBlock = 0 then 0 else u32 (d.iterXRowPtr + A.bufferNByte) }
  | .storZ =>
    { d with
      accessBuffer := memcpy d.accessBuffer 0 d.zBufferPrevios d.iterZRowPtr wByte
      iterZRowPtr := if a.zAccBlock = 0 then 0 else u32 (d.iterZRowPtr + wByte) }
  | .forwardYZ =>
    { d with
      zBufferPrevios := memcpy d.zBufferPrevios 0 d.zBufferCompute 0 yzByte
      zBufferCompute := memcpy d.zBufferCompute 0 d.yBufferPreload 0 yzByte
      yBufferPreload := memzero d.yBufferPreload yzByte
      zStoreWidth := zWidthCutoff A R it.j / R.elemSize
      zStoreHeight := zHeightCutoff A R it.i / R.elemSize }

end SoftHier.Redmule
