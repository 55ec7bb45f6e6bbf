import SoftHier.Lib.Word
import SoftHier.Lib.Interval
import Mathlib.Logic.Function.Basic

/-!
# The cluster allocator of `flex_alloc.h`

The allocator keeps an intrusive list of free blocks in the arena it manages: a free block starts
with an `alloc_block_t`, its `size` in the first word and the address of the `next` free block in
the second.  A live block starts with one header word, its size in the upper 24 bits and the low
byte of its own address (the canary) in the lower 8.

`Mem` is the 32-bit address space seen one word at a time, keyed by the byte address of the word;
every access of the allocator is to a four-byte aligned word.  A loop over the list visits every
block at most once unless the list is cyclic, so `walkFuel`, the number of eight-byte aligned
addresses, bounds each search: `none` is a search that never ends.
-/

namespace SoftHier.Alloc

/-- Word contents by byte address. -/
abbrev Mem := Nat → Nat

/-- Store one word. -/
def Mem.store (m : Mem) (a v : Nat) : Mem := Function.update m a v

@[simp] theorem Mem.store_same (m : Mem) (a v : Nat) : m.store a v a = v := by
  simp [Mem.store]

theorem Mem.store_ne (m : Mem) {a b : Nat} (v : Nat) (h : b ≠ a) : m.store a v b = m b := by
  simp [Mem.store, h]

/-! ## Free blocks -/

/-- `sizeof(alloc_block_t)`, also `MIN_BLOCK_SIZE`. -/
def minBlockSize : Nat := 8

/-- `p->size`. -/
def blockSize (m : Mem) (p : Nat) : Nat := m p

/-- `p->next`. -/
def blockNext (m : Mem) (p : Nat) : Nat := m (u32 (p + 4))

/-- `p->size = v`. -/
def setSize (m : Mem) (p v : Nat) : Mem := m.store p v

/-- `p->next = v`. -/
def setNext (m : Mem) (p v : Nat) : Mem := m.store (u32 (p + 4)) v

/-- An allocator together with the memory its arena lives in. -/
structure Heap where
  mem : Mem
  /-- `alloc->first_block` -/
  firstBlock : Nat

/-- Number of eight-byte aligned addresses. -/
def walkFuel : Nat := 2 ^ 29

/-- The list searches `while (curr && keepGoing(curr)) { prev = curr; curr = curr->next; }`. -/
def walk (m : Mem) (keepGoing : Nat → Bool) : Nat → Nat → Nat → Option (Nat × Nat)
  | 0, _, _ => none
  | fuel + 1, prev, curr =>
      if curr ≠ 0 ∧ keepGoing curr then walk m keepGoing fuel curr (blockNext m curr)
      else some (prev, curr)

/-! ## Headers of live blocks -/

/-- `canary(ptr)`. -/
def canary (ptr : Nat) : Nat := u32 ptr &&& 0xFF

/-- `canary_encode(ptr, size)`. -/
def canaryEncode (ptr size : Nat) : Nat := u32 (size <<< 8) ||| canary ptr

/-- `canary_and_size_t`. -/
structure CanaryAndSize where
  size : Nat
  canary : Nat
  deriving DecidableEq, Repr

/-- `canary_decode(value)`. -/
def canaryDecode (value : Nat) : CanaryAndSize where
  canary := value &&& 0xFF
  size := value >>> 8

/-! ## The allocator -/

/-- `flex_cluster_alloc_init(alloc, base, size)`. -/
def flexClusterAllocInit (m : Mem) (base size : Nat) : Heap :=
  let blockPtr := alignUp base minBlockSize
  let blockSize := alignDown (sub32 size (sub32 blockPtr base)) minBlockSize
  { mem := setNext (setSize m blockPtr blockSize) blockPtr 0
    firstBlock := blockPtr }

/-- `if (prev) prev->next = q; else alloc->first_block = q;` -/
def linkPrev (h : Heap) (prev q : Nat) : Heap :=
  if prev ≠ 0 then { h with mem := setNext h.mem prev q } else { h with firstBlock := q }

/-- `allocate_memory(alloc, size)`: the block taken, or `0`, and the heap after it. -/
def allocateMemory (h : Heap) (size : Nat) : Option (Nat × Heap) :=
  (walk h.mem (fun curr => blockSize h.mem curr < size) walkFuel 0 h.firstBlock).map
    fun (prev, curr) =>
      if curr ≠ 0 then
        if blockSize h.mem curr = size then
          -- whole block taken
          (curr, linkPrev h prev (blockNext h.mem curr))
        else
          -- split off the front
          let newBlock := u32 (curr + size)
          let sized := setSize h.mem newBlock (sub32 (blockSize h.mem curr) size)
          let linked := setNext sized newBlock (blockNext sized curr)
          (curr, linkPrev { h with mem := linked } prev newBlock)
      else (0, h)

/-- `domain_malloc(alloc, size)`: the data pointer, `0` for `NULL`, and the heap after it. -/
def domainMalloc (h : Heap) (size : Nat) : Option (Nat × Heap) :=
  let dataSize := u32 (size + 4)
  let blockSize := alignUp dataSize minBlockSize
  if blockSize ≥ 1 <<< (4 * 8 - 1 * 8) then some (0, h)
  else
    (allocateMemory h blockSize).map fun (blockPtr, h') =>
      if blockPtr = 0 then (0, h')
      else
        (u32 (blockPtr + 4),
          { h' with mem := h'.mem.store blockPtr (canaryEncode blockPtr blockSize) })

/-- First half of `free_memory`, "connect with next block": write the header of the block given
back, coalescing with a `next` that it touches. -/
def connectNext (m : Mem) (ptr size next : Nat) : Mem :=
  if u32 (ptr + size) = next then
    let sized := setSize m ptr (u32 (size + blockSize m next))
    setNext sized ptr (blockNext sized next)
  else setNext (setSize m ptr size) ptr next

/-- Second half of `free_memory`, "connect with previous block": link the block given back from
`prev`, coalescing with a `prev` that touches it. -/
def connectPrev (h : Heap) (prev ptr : Nat) : Heap :=
  if prev ≠ 0 ∧ u32 (prev + blockSize h.mem prev) = ptr then
    let sized := setSize h.mem prev (u32 (blockSize h.mem prev + blockSize h.mem ptr))
    { h with mem := setNext sized prev (blockNext sized ptr) }
  else linkPrev h prev ptr

/-- `free_memory(alloc, ptr, size)`. -/
def freeMemory (h : Heap) (ptr size : Nat) : Option Heap :=
  (walk h.mem (fun next => next < ptr) walkFuel 0 h.firstBlock).map fun (prev, next) =>
    connectPrev { h with mem := connectNext h.mem ptr size next } prev ptr

/-- `domain_free(alloc, ptr)`; a wrong canary leaves the heap as it is. -/
def domainFree (h : Heap) (ptr : Nat) : Option Heap :=
  let blockPtr := sub32 ptr 4
  let header := canaryDecode (h.mem blockPtr)
  if header.canary ≠ canary blockPtr then some h
  else freeMemory h blockPtr header.size

end SoftHier.Alloc
