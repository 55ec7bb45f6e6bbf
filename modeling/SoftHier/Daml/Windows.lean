import SoftHier.Daml.Model

/-!
# The windows handed to `flex_cluster_alloc_init`

`flex_cluster_alloc_init` rounds the base up, takes the rounding off the size in unsigned
arithmetic, and writes the header of the first free block without a look at what is left.  It is
called by `flex_alloc_init` of `flex_runtime.h` for the L1 heap and the HBM heap, for the arena of
every core, and by `soc_daml_init_hbm_allocator`, the one caller that checks the size it hands on.

* `Handed`: what the callers hand on.
* `initSafe_iff`: when the first block lies in its window.
-/

namespace SoftHier.Daml

open Alloc

/-! ## The callers -/

/-- What the linker and the configuration of a build say about the heaps. -/
structure Build where
  l1HeapStart : Nat
  clusterHeapEnd : Nat
  hbmHeapStart : Nat
  hbmHeapEnd : Nat
  hbmStartBase : Nat
  hbmNodeAddrSpace : Nat
  numNodePerCtrl : Nat
  /-- `SOC_DAML_HBM_USE_LINKER` -/
  useLinker : Bool
  l1HeapStart_lt : l1HeapStart < 2 ^ 32
  clusterHeapEnd_lt : clusterHeapEnd < 2 ^ 32
  hbmHeapStart_lt : hbmHeapStart < 2 ^ 32
  hbmHeapEnd_lt : hbmHeapEnd < 2 ^ 32
  hbmStartBase_lt : hbmStartBase < 2 ^ 32

/-- The L1 window of `flex_alloc_init`. -/
def Build.l1Heap (B : Build) : Nat × Nat :=
  (B.l1HeapStart, sub32 B.clusterHeapEnd B.l1HeapStart)

/-- Its HBM window; the number of nodes is fixed there. -/
def Build.hbmHeap (B : Build) : Nat × Nat :=
  let hbmNodes := 4
  let hbmHeapEnd := u32 (B.hbmStartBase + u32 (B.hbmNodeAddrSpace * hbmNodes))
  (B.hbmHeapStart, sub32 hbmHeapEnd B.hbmHeapStart)

/-- The base and the size of the HBM heap in `soc_daml_init_hbm_allocator`. -/
def Build.hbmNode (B : Build) : Nat × Nat :=
  let base := B.hbmStartBase
  let stop := u32 (base + u32 (B.hbmNodeAddrSpace * B.numNodePerCtrl))
  if B.useLinker ∧ B.hbmHeapEnd > B.hbmHeapStart ∧ B.hbmHeapStart ≠ 0 then
    (B.hbmHeapStart, sub32 B.hbmHeapEnd B.hbmHeapStart)
  else (base, sub32 stop base)

/-- `soc_daml_init_hbm_allocator`: what it hands on, `none` when it returns early. -/
def initHbmAllocator (B : Build) : Option (Nat × Nat) :=
  let (base, size) := B.hbmNode
  let alignedBase := alignUp base allocBlockSize
  let alignedSize := sub32 size (sub32 alignedBase base) / allocBlockSize * allocBlockSize
  if alignedSize < allocBlockSize then none else some (alignedBase, alignedSize)

/-- The windows handed to `flex_cluster_alloc_init` without a check. -/
inductive Handed (B : Build) (P : Platform) : Nat × Nat → Prop where
  | l1 : Handed B P B.l1Heap
  | hbm : Handed B P B.hbmHeap
  | core (k : Nat) (hk : k < P.coresPerCluster) : Handed B P (computeCoreArena P k)

theorem Handed.lt {B : Build} {P : Platform} {w : Nat × Nat} (handed : Handed B P w) :
    w.1 < 2 ^ 32 ∧ w.2 < 2 ^ 32 := by
  cases handed with
  | l1 => exact ⟨B.l1HeapStart_lt, u32_lt _⟩
  | hbm => exact ⟨B.hbmHeapStart_lt, u32_lt _⟩
  | core k hk =>
    have below : ∀ n, n < 2 ^ 32 → n / allocBlockSize * allocBlockSize < 2 ^ 32 := by
      intro n hn
      exact Nat.lt_of_le_of_lt (Nat.div_mul_le_self _ _) hn
    have heap : ∀ n, (if P.coresPerCluster > 0 then
        (if P.heapEnd > P.heapBase then sub32 P.heapEnd P.heapBase else 0) / n else 0) <
        2 ^ 32 := by
      intro n
      split
      · split
        · exact Nat.lt_of_le_of_lt (Nat.div_le_self _ _) (u32_lt _)
        · rw [Nat.zero_div]
          decide
      · decide
    refine ⟨u32_lt _, below _ ?_⟩
    split
    · exact u32_lt _
    · exact below _ (heap _)

/-! ## The first block -/

/-- The first block lies in the window and has room for its header. -/
def FirstBlockInside (h : Heap) (base size : Nat) : Prop :=
  base ≤ h.firstBlock ∧ minBlockSize ≤ blockSize h.mem h.firstBlock ∧
    h.firstBlock + blockSize h.mem h.firstBlock ≤ base + size

/-- Whatever is in memory, initialisation makes a first block inside the window, or it leaves the
allocator empty and writes nothing. -/
def InitSafe (base size : Nat) : Prop :=
  (∀ m, FirstBlockInside (flexClusterAllocInit m base size) base size) ∨
    ∀ m, flexClusterAllocInit m base size = ⟨m, 0⟩

/-- The rounded base is an address and leaves room for a header below the end of the window. -/
def Roomy (base size : Nat) : Prop :=
  (base + 7) / 8 * 8 < 2 ^ 32 ∧ (base + 7) / 8 * 8 + 8 ≤ base + size

instance (base size : Nat) : Decidable (Roomy base size) := inferInstanceAs (Decidable (_ ∧ _))

/-- Initialisation writes, whatever it is given. -/
theorem flexClusterAllocInit_writes (base size : Nat) :
    ¬ ∀ m, flexClusterAllocInit m base size = ⟨m, 0⟩ := by
  intro untouched
  have changed := congrArg Heap.mem (untouched fun _ => 1)
  have next := congrFun changed (u32 (alignUp base minBlockSize + 4))
  have zero : (flexClusterAllocInit (fun _ => 1) base size).mem
      (u32 (alignUp base minBlockSize + 4)) = 0 := Mem.store_same _ _ _
  rw [zero] at next
  cases next

/-- The first block of an initialised allocator. -/
theorem flexClusterAllocInit_first (m : Mem) (base size : Nat) :
    (flexClusterAllocInit m base size).firstBlock = u32 (base + 7) / 8 * 8 ∧
      blockSize (flexClusterAllocInit m base size).mem (u32 (base + 7) / 8 * 8) =
        alignDown (sub32 size (sub32 (u32 (base + 7) / 8 * 8) base)) 8 := by
  have rounded : alignUp base minBlockSize = u32 (base + 7) / 8 * 8 := alignUp_eight_wrapping base
  have room : u32 (base + 7) / 8 * 8 + 4 < 2 ^ 32 := by
    have := u32_lt (base + 7)
    omega
  unfold flexClusterAllocInit
  rw [rounded]
  exact ⟨rfl, blockSize_header room⟩

/-- The first block lies in its window exactly when the window is roomy. -/
theorem initSafe_iff {base size : Nat} (base_lt : base < 2 ^ 32) (size_lt : size < 2 ^ 32) :
    InitSafe base size ↔ Roomy base size := by
  have inside : (∀ m, FirstBlockInside (flexClusterAllocInit m base size) base size) ↔
      Roomy base size := by
    unfold FirstBlockInside Roomy
    simp only [fun m => (flexClusterAllocInit_first m base size).1,
      fun m => (flexClusterAllocInit_first m base size).2, forall_const]
    rw [alignDown_eight (x := sub32 _ _) (u32_lt _)]
    unfold minBlockSize sub32 u32
    omega
  unfold InitSafe
  rw [inside]
  exact or_iff_left (flexClusterAllocInit_writes base size)

/-- What `soc_daml_init_hbm_allocator` hands on is roomy. -/
theorem roomy_of_initHbmAllocator {B : Build} {base size : Nat}
    (called : initHbmAllocator B = some (base, size)) :
    base < 2 ^ 32 ∧ size < 2 ^ 32 ∧ Roomy base size := by
  unfold initHbmAllocator at called
  dsimp only at called
  split at called
  · cases called
  · rename_i large
    obtain ⟨rfl, rfl⟩ := Prod.mk.inj (Option.some.inj called)
    have aligned : alignUp B.hbmNode.1 allocBlockSize = u32 (B.hbmNode.1 + 7) / 8 * 8 :=
      alignUp_eight_wrapping _
    have base_lt := u32_lt (B.hbmNode.1 + 7)
    have size_lt := u32_lt (B.hbmNode.2 + (2 ^ 32 - sub32 (alignUp B.hbmNode.1 allocBlockSize)
      B.hbmNode.1))
    change sub32 _ _ < _ at size_lt
    rw [aligned] at large size_lt ⊢
    unfold Roomy
    unfold allocBlockSize at large ⊢
    omega

/-- Every window handed on unchecked gets a first block inside it exactly when it is roomy, and
what `soc_daml_init_hbm_allocator` hands on always is. -/
theorem handed_initSafe_iff (B : Build) (P : Platform) :
    (∀ w, Handed B P w → (InitSafe w.1 w.2 ↔ Roomy w.1 w.2)) ∧
      ∀ w, initHbmAllocator B = some w → InitSafe w.1 w.2 := by
  constructor
  · intro w handed
    obtain ⟨base_lt, size_lt⟩ := handed.lt
    exact initSafe_iff base_lt size_lt
  · rintro ⟨base, size⟩ called
    obtain ⟨base_lt, size_lt, roomy⟩ := roomy_of_initHbmAllocator called
    exact (initSafe_iff base_lt size_lt).mpr roomy

/-- A build with 64 KiB of L1 heap and 1 MiB of HBM heap. -/
def smallBuild : Build where
  l1HeapStart := 0x10000
  clusterHeapEnd := 0x20000
  hbmHeapStart := 0xC0000000
  hbmHeapEnd := 0xC0100000
  hbmStartBase := 0xC0000000
  hbmNodeAddrSpace := 0x40000
  numNodePerCtrl := 4
  useLinker := true
  l1HeapStart_lt := by decide
  clusterHeapEnd_lt := by decide
  hbmHeapStart_lt := by decide
  hbmHeapEnd_lt := by decide
  hbmStartBase_lt := by decide

/-- Two cores with a window of eight bytes. -/
def narrowWindow : Platform where
  heapBase := 64
  heapEnd := 72
  slotSize := 8
  numClusters := 1
  coresPerCluster := 2

theorem handed_initSafe_iff_narrowWindow :
    (InitSafe 0x10000 0x10000 ↔ Roomy 0x10000 0x10000) ∧ (InitSafe 64 0 ↔ Roomy 64 0) ∧
      initHbmAllocator smallBuild = some (0xC0000000, 0x100000) ∧
      InitSafe 0xC0000000 0x100000 := by
  have l1 : smallBuild.l1Heap = (0x10000, 0x10000) := by decide
  have core : computeCoreArena narrowWindow 0 = (64, 0) := by decide
  have hbm : initHbmAllocator smallBuild = some (0xC0000000, 0x100000) := by decide
  obtain ⟨unchecked, checked⟩ := handed_initSafe_iff smallBuild narrowWindow
  exact ⟨unchecked (0x10000, 0x10000) (l1 ▸ .l1), unchecked (64, 0) (core ▸ .core 0 (by decide)),
    hbm, checked _ hbm⟩

/-- The arena of core 0 is empty and begins where the arena of core 1 does; its header is written
all the same, into the arena of core 1. -/
theorem empty_arena_written :
    Handed smallBuild narrowWindow (64, 0) ∧ computeCoreArena narrowWindow 1 = (64, 8) ∧
      ¬ InitSafe 64 0 ∧ ∀ m, (flexClusterAllocInit m 64 0).mem 64 = 0 ∧
        (flexClusterAllocInit m 64 0).mem 68 = 0 ∧
        (flexClusterAllocInit m 64 0).firstBlock = 64 := by
  have core : computeCoreArena narrowWindow 0 = (64, 0) := by decide
  have narrow : ¬ Roomy 64 0 := by decide
  refine ⟨core ▸ .core 0 (by decide), by decide, ?_, fun m => ⟨rfl, rfl, rfl⟩⟩
  exact fun safe => narrow ((initSafe_iff (by decide) (by decide)).mp safe)

end SoftHier.Daml
