import SoftHier.Alloc.Heap
import SoftHier.Lib.Runs

/-!
# The published common L1 ranges of `soc_daml.h`

Every core of a cluster owns an arena of the cluster's L1 heap window.  Each core's free list is
uploaded to HBM, turned into a bitmap of the window's slots, the bitmaps are combined (OR over the
cores of a cluster, AND over the clusters), and the runs of the result are published as byte ranges.

* `Platform`: the dimensions, `HEAP_BASE`, `HEAP_END`, `SLOT_SIZE` and the run-time bounds.
* `computeCoreArena`, `initAllocators`: the arenas and their initialisation.
* `uploadFreeList`, `buildCoreBitmap`, `buildClusterFreeBitmap`, `buildSystemCommonBitmap`,
  `systemCommonBitmapToRanges`: the stages, and `publish`, all of them after one another.
* `Cluster`: the L1 memory of a cluster with the allocators of its cores, `Cluster.Step` its
  operations.

A bitmap is a function from word indices; the arrays of `.hbm` start out zero.
-/

namespace SoftHier.Daml

open Alloc

/-- Dimensions of the build and of the run. -/
structure Platform where
  heapBase : Nat
  heapEnd : Nat
  slotSize : Nat
  numClusters : Nat
  coresPerCluster : Nat
  deriving DecidableEq, Repr

/-- `MAX_COMMON_BLOCKS` -/
def maxCommonBlocks : Nat := 128

/-- `MAX_FREE_BLOCKS_PER_CORE` -/
def maxFreeBlocksPerCore : Nat := 128

/-- `sizeof(alloc_block_t)` -/
def allocBlockSize : Nat := 8

namespace Platform

variable (P : Platform)

def l1HeapSizeBytes : Nat := sub32 P.heapEnd P.heapBase

def l1SlotCount : Nat := P.l1HeapSizeBytes / P.slotSize

def l1BitmapWords : Nat := u32 (P.l1SlotCount + 31) / 32

end Platform

/-! ## Arenas -/

/-- Base and size of the arena of core `coreId`. -/
def computeCoreArena (P : Platform) (coreId : Nat) : Nat × Nat :=
  let heapSize := if P.heapEnd > P.heapBase then sub32 P.heapEnd P.heapBase else 0
  let share := if P.coresPerCluster > 0 then heapSize / P.coresPerCluster else 0
  let share := share / allocBlockSize * allocBlockSize
  let base := u32 (P.heapBase + u32 (coreId * share))
  let size := if coreId = sub32 P.coresPerCluster 1 then sub32 P.heapEnd base else share
  (base, size / allocBlockSize * allocBlockSize)

/-- The L1 memory of a cluster, the list heads of its cores' allocators (which live in HBM), and
the data pointers held from each of them. -/
structure Cluster where
  mem : Mem
  firstBlock : Nat → Nat
  live : Nat → List Nat

/-- The heap of one core. -/
def Cluster.core (s : Cluster) (k : Nat) : Sys := ⟨⟨s.mem, s.firstBlock k⟩, s.live k⟩

/-- The cluster after its core `k` came to the heap `t`. -/
def Cluster.withCore (s : Cluster) (k : Nat) (t : Sys) : Cluster :=
  ⟨t.heap.mem, Function.update s.firstBlock k t.heap.firstBlock, Function.update s.live k t.live⟩

/-- `soc_daml_init_allocators_this_cluster`: one arena after the other, for cores `0` to `n - 1`. -/
def initCores (P : Platform) (s : Cluster) : Nat → Cluster
  | 0 => s
  | n + 1 =>
      let s := initCores P s n
      let (base, size) := computeCoreArena P n
      s.withCore n ⟨flexClusterAllocInit s.mem base size, []⟩

def initAllocators (P : Platform) (m : Mem) : Cluster :=
  initCores P ⟨m, fun _ => 0, fun _ => []⟩ P.coresPerCluster

/-- One valid operation on the arena of one core. -/
def Cluster.Step (P : Platform) (s t : Cluster) : Prop :=
  ∃ k < P.coresPerCluster, ∃ op : Op, op.Valid (s.core k) ∧
    ∃ u, (s.core k).step op = some u ∧ t = s.withCore k u

/-- A history of allocations and frees in the arenas of one cluster. -/
def Cluster.Run (P : Platform) (m : Mem) (s : Cluster) : Prop :=
  Relation.ReflTransGen (Cluster.Step P) (initAllocators P m) s

/-! ## Snapshot -/

/-- The upload loop with room for `n` more blocks, at list position `curr`. -/
def uploadFrom (P : Platform) (m : Mem) : Nat → Nat → List Block
  | 0, _ => []
  | n + 1, curr =>
      if curr = 0 then []
      else if curr < P.heapBase ∨ u32 (curr + allocBlockSize) > P.heapEnd ∨
          curr &&& (allocBlockSize - 1) ≠ 0 then []
      else ⟨curr, blockSize m curr⟩ :: uploadFrom P m n (blockNext m curr)

/-- `soc_daml_upload_free_list` -/
def uploadFreeList (P : Platform) (h : Heap) : List Block :=
  uploadFrom P h.mem maxFreeBlocksPerCore h.firstBlock

/-! ## Bitmaps -/

/-- Words of a bitmap by index. -/
abbrev Bitmap := Nat → BitVec 32

/-- An array of `.hbm` before it is first written. -/
def unwritten : Bitmap := fun _ => 0

/-- `daml_zero_u32` -/
def zeroU32 (p : Bitmap) (n : Nat) : Bitmap := fun w => if w < n then 0 else p w

/-- `(g[s >> 5] >> (s & 31)) & 1` -/
def slotBit (g : Bitmap) (s : Nat) : Bool := (g (s >>> 5) >>> (s &&& 31)).getLsbD 0

/-- `g[s >> 5] |= 1 << (s & 31)` -/
def setSlot (g : Bitmap) (s : Nat) : Bitmap :=
  Function.update g (s >>> 5) (g (s >>> 5) ||| (1#32 <<< (s &&& 31)))

/-- Set `n` slots from `s` on. -/
def setSlots (g : Bitmap) : Nat → Nat → Bitmap
  | 0, _ => g
  | n + 1, s => setSlots (setSlot g s) n (s + 1)

/-- The slots `soc_daml_build_core_bitmap` sets for one block, as a half-open pair. -/
def blockSlots (P : Platform) (b : Block) : Nat × Nat :=
  let lo := b.addr
  let sz := b.size
  let blockLo := if lo < P.heapBase then P.heapBase else lo
  let blockHi := u32 (lo + sz)
  let blockHi := if blockHi > P.heapEnd then P.heapEnd else blockHi
  if blockHi ≤ blockLo then (0, 0)
  else
    let firstSlot := sub32 blockLo P.heapBase / P.slotSize
    let lastSlotExcl := u32 (sub32 blockHi P.heapBase + (P.slotSize - 1)) / P.slotSize
    (firstSlot, if lastSlotExcl > P.l1SlotCount then P.l1SlotCount else lastSlotExcl)

/-- `soc_daml_build_core_bitmap` -/
def buildCoreBitmap (P : Platform) (g : Bitmap) (snapshot : List Block) : Bitmap :=
  snapshot.foldl
    (fun g b =>
      let (first, last) := blockSlots P b
      setSlots g (last - first) first)
    (zeroU32 g P.l1BitmapWords)

/-- `soc_daml_build_cluster_free_bitmap` -/
def buildClusterFreeBitmap (P : Platform) (g : Bitmap) (core : Nat → Bitmap) : Bitmap := fun w =>
  if w < P.l1BitmapWords then
    (List.range P.coresPerCluster).foldl (fun acc k => acc ||| core k w) 0
  else g w

/-- `soc_daml_build_system_common_bitmap` -/
def buildSystemCommonBitmap (P : Platform) (g : Bitmap) (cluster : Nat → Bitmap) : Bitmap :=
  fun w =>
    if w < P.l1BitmapWords then
      (List.range' 1 (P.numClusters - 1)).foldl (fun acc c => acc &&& cluster c w) (cluster 0 w)
    else g w

/-- `soc_daml_system_common_bitmap_to_ranges` -/
def systemCommonBitmapToRanges (P : Platform) (g : Bitmap) : List Block :=
  (runsFrom (slotBit g) P.l1SlotCount maxCommonBlocks 0).map fun (runStart, e) =>
    ⟨u32 (P.heapBase + u32 (runStart * P.slotSize)), u32 ((e - runStart) * P.slotSize)⟩

/-- The core bitmap of one snapshot. -/
def coreBitmap (P : Platform) (h : Heap) : Bitmap :=
  buildCoreBitmap P unwritten (uploadFreeList P h)

/-- The system-common bitmap when core `k` of cluster `c` is uploaded in the state `at c k`. -/
def commonBitmap (P : Platform) (st : Nat → Nat → Cluster) : Bitmap :=
  buildSystemCommonBitmap P unwritten fun c =>
    buildClusterFreeBitmap P unwritten fun k => coreBitmap P ((st c k).core k).heap

/-- `g_hbm_system_common` after the whole pipeline. -/
def publish (P : Platform) (st : Nat → Nat → Cluster) : List Block :=
  systemCommonBitmapToRanges P (commonBitmap P st)

end SoftHier.Daml
