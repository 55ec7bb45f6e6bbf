import SoftHier.Alloc.Malloc
import SoftHier.Alloc.Free
import SoftHier.Lib.Transition

/-!
# The heap over whole runs

A `Sys` is a heap together with the data pointers its clients hold.  A step is a call of
`domain_malloc`, a call of `domain_free` on a pointer that is held, or a client storing a word into
the payload of a block it holds.  `HeapInv A s free` is the invariant: the list of the heap spells
out `free`, a well-formed free list, every held pointer has an intact header in front of it, and the
free and the live blocks together tile the arena `A`.
-/

namespace SoftHier.Alloc

/-- An arena `flex_cluster_alloc_init` is given. -/
structure Arena where
  base : Nat
  size : Nat
  base_pos : 0 < base
  base_aligned : base % 8 = 0
  size_pos : 0 < size
  size_aligned : size % 8 = 0
  stop_lt : base + size < 2 ^ 32

/-- Address past the arena. -/
def Arena.stop (A : Arena) : Nat := A.base + A.size

/-- A heap and the data pointers held by its clients. -/
structure Sys where
  heap : Heap
  live : List Nat

/-- The live block of a data pointer, with the size its header says. -/
def liveBlock (m : Mem) (ptr : Nat) : Block :=
  ⟨sub32 ptr 4, (canaryDecode (m (sub32 ptr 4))).size⟩

/-- What a client can do. -/
inductive Op where
  | malloc (size : Nat)
  | free (ptr : Nat)
  | store (addr value : Nat)
  deriving DecidableEq, Repr

/-- Requests whose rounded size does not wrap, frees of pointers that are held, and stores of a
word into the payload behind the header of a live block. -/
def Op.Valid (s : Sys) : Op → Prop
  | .malloc size => (size + 4 + 7) / 8 * 8 < 2 ^ 32
  | .free ptr => ptr ∈ s.live
  | .store addr _ => addr % 4 = 0 ∧ ∃ ptr ∈ s.live, addr ∈ liveBlock s.heap.mem ptr ∧ ptr ≤ addr

/-- The effect of one operation; `none` is a call that never returns. -/
def Sys.step (s : Sys) : Op → Option Sys
  | .malloc size =>
      (domainMalloc s.heap size).map fun (ptr, h) =>
        ⟨h, if ptr = 0 then s.live else ptr :: s.live⟩
  | .free ptr => (domainFree s.heap ptr).map fun h => ⟨h, s.live.erase ptr⟩
  | .store addr value => some ⟨⟨s.heap.mem.store addr value, s.heap.firstBlock⟩, s.live⟩

/-- One valid operation. -/
def Step (s t : Sys) : Prop := ∃ op : Op, op.Valid s ∧ s.step op = some t

/-- The state after `flex_cluster_alloc_init`. -/
def Arena.init (A : Arena) (m : Mem) : Sys := ⟨flexClusterAllocInit m A.base A.size, []⟩

/-- A run from the freshly initialised arena. -/
def Run (A : Arena) (m : Mem) (s : Sys) : Prop := Relation.ReflTransGen Step (A.init m) s

/-! ## The invariant -/

/-- A held pointer has an intact header in front of it. -/
structure LiveAt (m : Mem) (ptr : Nat) : Prop where
  placed : Placed (liveBlock m ptr)
  ptr_eq : ptr = (liveBlock m ptr).addr + 4
  size_lt : (liveBlock m ptr).size < 2 ^ 24
  canary_eq : (canaryDecode (m (liveBlock m ptr).addr)).canary = canary (liveBlock m ptr).addr

theorem liveBlock_congr {m m' : Mem} {ptr : Nat} (same : m' (sub32 ptr 4) = m (sub32 ptr 4)) :
    liveBlock m' ptr = liveBlock m ptr := by
  unfold liveBlock
  rw [same]

theorem LiveAt.congr {m m' : Mem} {ptr : Nat} (h : LiveAt m ptr)
    (same : m' (sub32 ptr 4) = m (sub32 ptr 4)) : LiveAt m' ptr := by
  obtain ⟨placed, eq, size, can⟩ := h
  have block := liveBlock_congr same
  refine ⟨block ▸ placed, block ▸ eq, block ▸ size, ?_⟩
  rw [block]
  show (canaryDecode (m' (sub32 ptr 4))).canary = _
  rw [same]
  exact can

/-- The heap invariant. -/
structure HeapInv (A : Arena) (s : Sys) (free : List Block) : Prop where
  list : FreeListAt s.heap.mem s.heap.firstBlock free
  blocks : FreeBlocks free
  live : ∀ ptr ∈ s.live, LiveAt s.heap.mem ptr
  tiles : Tiles A.base A.stop (free ++ s.live.map (liveBlock s.heap.mem))

namespace HeapInv

variable {A : Arena} {s : Sys} {free : List Block}

/-- Free blocks and live blocks are apart. -/
theorem free_live (h : HeapInv A s free) {b : Block} (hb : b ∈ free) {ptr : Nat}
    (hp : ptr ∈ s.live) : b.Disjoint (liveBlock s.heap.mem ptr) :=
  (List.pairwise_append.mp h.tiles.disjoint).2.2 b hb _ (List.mem_map_of_mem hp)

theorem free_bounds (h : HeapInv A s free) {b : Block} (hb : b ∈ free) :
    A.base ≤ b.addr ∧ b.stop ≤ A.stop := h.tiles.bounds (List.mem_append_left _ hb)

theorem live_bounds (h : HeapInv A s free) {ptr : Nat} (hp : ptr ∈ s.live) :
    A.base ≤ (liveBlock s.heap.mem ptr).addr ∧ (liveBlock s.heap.mem ptr).stop ≤ A.stop :=
  h.tiles.bounds (List.mem_append_right _ (List.mem_map_of_mem hp))

/-- The header word of a live block lies in no free block. -/
theorem header_not_free (h : HeapInv A s free) {ptr : Nat} (hp : ptr ∈ s.live) :
    ∀ b ∈ free, sub32 ptr 4 ∉ b := fun _ hb =>
  (h.free_live hb hp).symm.not_mem (h.live ptr hp).placed.addr_mem

/-- A write to a free block and to the link of the one before it keeps the headers. -/
theorem header_kept {pre post : List Block} {c : Block} {m : Mem} {ptr : Nat}
    (h : HeapInv A s (pre ++ c :: post))
    (frame : ∀ a, a ∉ c → ¬ TailLink pre a → m a = s.heap.mem a) (hp : ptr ∈ s.live) :
    m (sub32 ptr 4) = s.heap.mem (sub32 ptr 4) := by
  have inFree := h.header_not_free hp
  apply frame
  · exact inFree c (by simp)
  · intro link
    obtain ⟨b, hb, inside⟩ := link.mem fun b hb => h.blocks.placed b (by simp [hb])
    exact inFree b (by simp [hb]) inside

/-- The invariant depends only on the arena's memory. -/
theorem frame (h : HeapInv A s free) {m : Mem}
    (same : ∀ a, A.base ≤ a → a < A.stop → m a = s.heap.mem a) :
    HeapInv A ⟨⟨m, s.heap.firstBlock⟩, s.live⟩ free := by
  have headers : ∀ ptr ∈ s.live, m (sub32 ptr 4) = s.heap.mem (sub32 ptr 4) := by
    intro ptr hp
    have bounds := h.live_bounds hp
    have inside := (h.live ptr hp).placed.addr_mem
    rw [Block.mem_def] at inside
    exact same _ bounds.1 (Nat.lt_of_lt_of_le inside.2 bounds.2)
  refine ⟨h.list.frame h.blocks.placed fun b hb a ha => ?_, h.blocks,
    fun ptr hp => (h.live ptr hp).congr (headers ptr hp), ?_⟩
  · have bounds := h.free_bounds hb
    rw [Block.mem_def] at ha
    exact same a (by omega) (by omega)
  · have blocks : s.live.map (liveBlock m) = s.live.map (liveBlock s.heap.mem) :=
      List.map_congr_left fun ptr hp => liveBlock_congr (headers ptr hp)
    show Tiles _ _ (free ++ s.live.map (liveBlock m))
    rw [blocks]
    exact h.tiles

end HeapInv

/-! ## Initialisation -/

theorem Arena.aligned_base (A : Arena) : alignUp A.base minBlockSize = A.base := by
  have := A.stop_lt
  have := A.base_aligned
  have := A.size_pos
  have := A.size_aligned
  unfold minBlockSize
  rw [alignUp_eight (by omega)]
  omega

theorem Arena.init_heap (A : Arena) (m : Mem) :
    (A.init m).heap = ⟨setNext (setSize m A.base A.size) A.base 0, A.base⟩ := by
  have top : A.size < 2 ^ 32 := by
    have := A.stop_lt
    omega
  have aligned := A.size_aligned
  have size : alignDown (sub32 A.size (sub32 A.base A.base)) minBlockSize = A.size := by
    rw [sub32_of_le (Nat.le_refl _) (by have := A.stop_lt; omega), Nat.sub_self,
      sub32_of_le (Nat.zero_le _) top, Nat.sub_zero]
    unfold minBlockSize
    rw [alignDown_eight top]
    omega
  unfold Arena.init flexClusterAllocInit
  simp only [A.aligned_base, size]

/-- A fresh arena is one free block. -/
theorem Arena.init_inv (A : Arena) (m : Mem) : HeapInv A (A.init m) [⟨A.base, A.size⟩] := by
  have top := A.stop_lt
  have h1 := A.base_pos
  have h2 := A.base_aligned
  have h3 := A.size_pos
  have h4 := A.size_aligned
  refine ⟨?_, ⟨List.pairwise_singleton _ _, ?_⟩, fun _ hp => (nomatch hp), Tiles.single h3⟩
  · rw [A.init_heap]
    have addr : A.base + 4 < 2 ^ 32 := by omega
    exact ⟨rfl, h1.ne', blockSize_header addr, blockNext_header⟩
  · intro b hb
    rw [List.mem_singleton.mp hb]
    exact ⟨h1, h2, h3, h4, top⟩

/-! ## One operation -/

/-- The block size `domain_malloc` computes. -/
theorem malloc_blockSize {size : Nat} (valid : (size + 4 + 7) / 8 * 8 < 2 ^ 32) :
    alignUp (u32 (size + 4)) minBlockSize = (size + 4 + 7) / 8 * 8 := by
  unfold minBlockSize
  rw [u32_of_lt (by omega), alignUp_eight (by omega)]

section

variable {A : Arena} {s : Sys} {free : List Block}

/-- The largest block size a header can hold, plus one. -/
theorem headerLimit : (1 <<< (4 * 8 - 1 * 8) : Nat) = 2 ^ 24 := rfl

/-- `domain_malloc` fails exactly when the rounded size does not fit a header or no free block is
large enough, and then changes nothing. -/
theorem domainMalloc_none (h : HeapInv A s free) {size : Nat}
    (valid : (size + 4 + 7) / 8 * 8 < 2 ^ 32)
    (fails : 2 ^ 24 ≤ (size + 4 + 7) / 8 * 8 ∨ ∀ b ∈ free, b.size < (size + 4 + 7) / 8 * 8) :
    domainMalloc s.heap size = some (0, s.heap) := by
  unfold domainMalloc
  simp only [malloc_blockSize valid, headerLimit]
  by_cases large : 2 ^ 24 ≤ (size + 4 + 7) / 8 * 8
  · exact if_pos large
  · have small := fails.resolve_left large
    rw [if_neg large, allocateMemory_of_small h.list h.blocks small]
    rfl

/-- A successful `domain_malloc` takes the front of the first free block that is large enough,
writes its header, and keeps the invariant. -/
theorem domainMalloc_some {pre post : List Block} {c : Block} (h : HeapInv A s (pre ++ c :: post))
    {size : Nat} (small : (size + 4 + 7) / 8 * 8 < 2 ^ 24)
    (less : ∀ b ∈ pre, b.size < (size + 4 + 7) / 8 * 8) (fits : (size + 4 + 7) / 8 * 8 ≤ c.size) :
    ∃ h', domainMalloc s.heap size = some (c.addr + 4, h') ∧
      HeapInv A ⟨h', (c.addr + 4) :: s.live⟩
        (pre ++ (cutFront c ((size + 4 + 7) / 8 * 8) ++ post)) ∧
      liveBlock h'.mem (c.addr + 4) = ⟨c.addr, (size + 4 + 7) / 8 * 8⟩ ∧
      ∀ a, a ∉ c → ¬ TailLink pre a → h'.mem a = s.heap.mem a := by
  obtain ⟨n, hn⟩ : ∃ n, n = (size + 4 + 7) / 8 * 8 := ⟨_, rfl⟩
  have npos : 0 < n := by omega
  have naligned : n % 8 = 0 := by omega
  rw [← hn] at small less fits ⊢
  have found : firstFit n (pre ++ c :: post) = some _ := firstFit_append less fits
  obtain ⟨h', run, list', frame⟩ := allocateMemory_of_fit h.list h.blocks naligned npos less fits
  obtain ⟨free, freeEq⟩ : ∃ free, free = pre ++ c :: post := ⟨_, rfl⟩
  obtain ⟨left, leftEq⟩ : ∃ left, left = pre ++ (cutFront c n ++ post) := ⟨_, rfl⟩
  obtain ⟨p, pEq⟩ : ∃ p, p = c.addr := ⟨_, rfl⟩
  have kept := fun q (hq : q ∈ s.live) => h.header_kept frame hq
  rw [← freeEq] at h found
  rw [← leftEq] at list' found ⊢
  rw [← pEq] at run found ⊢
  have hc : Placed c := h.blocks.placed c (by rw [freeEq]; simp)
  have ctop := hc.stop_lt
  have pPos : 0 < p := pEq ▸ hc.addr_pos
  have pAligned : p % 8 = 0 := pEq ▸ hc.addr_aligned
  have pStop : p + n < 2 ^ 32 := by
    unfold Block.stop at ctop
    omega
  have ptr : u32 (p + 4) = p + 4 := u32_of_lt (by omega)
  have back : sub32 (p + 4) 4 = p := sub32_of_le (by omega) (by omega)
  have taken : Placed ⟨p, n⟩ := ⟨pPos, pAligned, npos, naligned, pStop⟩
  have tiles := h.tiles.firstFit npos found
  have apartLeft : ∀ b ∈ left, b.Disjoint ⟨p, n⟩ := fun b hb =>
    (List.pairwise_append.mp tiles.disjoint).2.2 b hb _ List.mem_cons_self
  have apartLive : ∀ q ∈ s.live, (Block.mk p n).Disjoint (liveBlock s.heap.mem q) := fun q hq =>
    (List.pairwise_cons.mp (List.pairwise_append.mp tiles.disjoint).2.1).1 _
      (List.mem_map_of_mem hq)
  have wf := h.blocks.firstFit naligned found
  obtain ⟨m, hm⟩ : ∃ m, m = h'.mem.store p (canaryEncode p n) := ⟨_, rfl⟩
  have outside : ∀ a, a ≠ p → m a = h'.mem a := by
    intro a ha
    rw [hm]
    exact Mem.store_ne _ _ ha
  have header : canaryDecode (m p) = ⟨n, canary p⟩ := by
    rw [hm, Mem.store_same]
    exact canaryDecode_encode small
  have newBlock : liveBlock m (p + 4) = ⟨p, n⟩ := by
    unfold liveBlock
    rw [back, header]
  have oldHeader : ∀ q ∈ s.live, m (sub32 q 4) = s.heap.mem (sub32 q 4) := by
    intro q hq
    have away : sub32 q 4 ≠ p := by
      intro eq
      exact (apartLive q hq).not_mem taken.addr_mem (eq ▸ (h.live q hq).placed.addr_mem)
    rw [outside _ away]
    exact kept q hq
  refine ⟨⟨m, h'.firstBlock⟩, ?_, ⟨?_, wf, ?_, ?_⟩,
    newBlock, fun a inside link => (outside a fun eq => inside ?_).trans (frame a inside link)⟩
  · unfold domainMalloc
    simp only [malloc_blockSize (show (size + 4 + 7) / 8 * 8 < 2 ^ 32 by omega), ← hn,
      headerLimit]
    rw [if_neg (Nat.not_le.mpr small), run]
    simp only [Option.map_some, if_neg (Nat.pos_iff_ne_zero.mp pPos), ptr, hm]
  · refine list'.frame wf.placed fun b hb a ha => outside a fun eq => ?_
    exact (apartLeft b hb).not_mem ha (eq ▸ taken.addr_mem)
  · intro q hq
    rcases List.mem_cons.mp hq with rfl | hq
    · refine ⟨newBlock ▸ taken, by rw [newBlock], by rw [newBlock]; exact small, ?_⟩
      rw [newBlock, header]
    · exact (h.live q hq).congr (oldHeader q hq)
  · have same : s.live.map (liveBlock m) = s.live.map (liveBlock s.heap.mem) :=
      List.map_congr_left fun q hq => liveBlock_congr (oldHeader q hq)
    show Tiles _ _ (left ++ (liveBlock m (p + 4) :: s.live.map (liveBlock m)))
    rw [newBlock, same]
    exact tiles
  · rw [eq, pEq]
    exact hc.addr_mem

/-- `domain_free` of a held pointer gives its block back and keeps the invariant. -/
theorem domainFree_some (h : HeapInv A s free) {ptr : Nat} (held : ptr ∈ s.live) :
    ∃ h', domainFree s.heap ptr = some h' ∧
      HeapInv A ⟨h', s.live.erase ptr⟩ (insertBlock (liveBlock s.heap.mem ptr) free) ∧
      ∀ a, a ∉ liveBlock s.heap.mem ptr → (∀ b ∈ free, a ∉ b) → h'.mem a = s.heap.mem a := by
  obtain ⟨x, hx⟩ : ∃ x, x = liveBlock s.heap.mem ptr := ⟨_, rfl⟩
  have head := h.live ptr held
  have placed : Placed x := hx ▸ head.placed
  have intact : (canaryDecode (s.heap.mem x.addr)).canary = canary x.addr := by
    rw [hx]
    exact head.canary_eq
  rw [← hx]
  have apart : ∀ b ∈ free, x.Disjoint b := fun b hb => hx ▸ (h.free_live hb held).symm
  obtain ⟨h', run, list', frame⟩ := freeMemory_eq h.list h.blocks placed apart
  have order : s.live.Perm (ptr :: s.live.erase ptr) := List.perm_cons_erase held
  have all : Tiles A.base A.stop
      (x :: free ++ (s.live.erase ptr).map (liveBlock s.heap.mem)) := by
    refine h.tiles.perm ?_
    have blocks := order.map (liveBlock s.heap.mem)
    rw [List.map_cons, ← hx] at blocks
    exact (blocks.append_left free).trans List.perm_middle
  have restApart : ∀ q ∈ s.live.erase ptr, x.Disjoint (liveBlock s.heap.mem q) := by
    intro q hq
    exact (List.pairwise_cons.mp all.disjoint).1 _
      (List.mem_append_right _ (List.mem_map_of_mem hq))
  have headers : ∀ q ∈ s.live.erase ptr, h'.mem (sub32 q 4) = s.heap.mem (sub32 q 4) := by
    intro q hq
    have held' := List.mem_of_mem_erase hq
    refine frame _ ?_ (h.header_not_free held')
    exact (restApart q hq).symm.not_mem (h.live q held').placed.addr_mem
  refine ⟨h', ?_, ⟨list', ⟨?_, placed_joinClosed.insertBlock placed h.blocks.placed⟩, ?_, ?_⟩,
    frame⟩
  · have addr : sub32 ptr 4 = x.addr := by rw [hx]; rfl
    have size : (canaryDecode (s.heap.mem x.addr)).size = x.size := by rw [hx]; rfl
    unfold domainFree
    rw [addr]
    simp only [if_neg (not_not_intro intact), size]
    exact run
  · exact h.blocks.coalesced.insertBlock apart placed.size_pos
      fun b hb => (h.blocks.placed b hb).size_pos
  · intro q hq
    exact (h.live q (List.mem_of_mem_erase hq)).congr (headers q hq)
  · have same : (s.live.erase ptr).map (liveBlock h'.mem) =
        (s.live.erase ptr).map (liveBlock s.heap.mem) :=
      List.map_congr_left fun q hq => liveBlock_congr (headers q hq)
    show Tiles _ _ (insertBlock x free ++ (s.live.erase ptr).map (liveBlock h'.mem))
    rw [same]
    exact all.insertBlock

/-- A store into a payload keeps the invariant. -/
theorem store_inv (h : HeapInv A s free) {addr : Nat} (value : Nat)
    (valid : ∃ ptr ∈ s.live, addr ∈ liveBlock s.heap.mem ptr ∧ ptr ≤ addr) :
    HeapInv A ⟨⟨s.heap.mem.store addr value, s.heap.firstBlock⟩, s.live⟩ free := by
  obtain ⟨ptr, held, inside, behind⟩ := valid
  have headers : ∀ q ∈ s.live,
      s.heap.mem.store addr value (sub32 q 4) = s.heap.mem (sub32 q 4) := by
    intro q hq
    refine Mem.store_ne _ _ fun eq => ?_
    have hqp := (h.live q hq).placed.addr_mem
    have addrEq : (liveBlock s.heap.mem q).addr = addr := eq
    rw [addrEq] at hqp
    have sameBlock : liveBlock s.heap.mem q = liveBlock s.heap.mem ptr :=
      h.tiles.eq_of_mem (List.mem_append_right _ (List.mem_map_of_mem hq))
        (List.mem_append_right _ (List.mem_map_of_mem held)) hqp inside
    have start := (h.live ptr held).ptr_eq
    rw [← sameBlock, addrEq] at start
    omega
  have kept : ∀ q ∈ s.live, LiveAt (s.heap.mem.store addr value) q := fun q hq =>
    (h.live q hq).congr (headers q hq)
  refine ⟨h.list.frame h.blocks.placed fun b hb a ha => ?_, h.blocks, kept, ?_⟩
  · refine Mem.store_ne _ _ fun eq => ?_
    subst eq
    exact (h.free_live hb held).not_mem ha inside
  · have same : s.live.map (liveBlock (s.heap.mem.store addr value)) =
        s.live.map (liveBlock s.heap.mem) :=
      List.map_congr_left fun q hq => liveBlock_congr (headers q hq)
    show Tiles _ _ (free ++ s.live.map (liveBlock (s.heap.mem.store addr value)))
    rw [same]
    exact h.tiles

/-- The word a client stores lies in the arena. -/
theorem store_inside (h : HeapInv A s free) {addr : Nat}
    (valid : ∃ ptr ∈ s.live, addr ∈ liveBlock s.heap.mem ptr ∧ ptr ≤ addr) :
    A.base ≤ addr ∧ addr < A.stop := by
  obtain ⟨ptr, held, inside, -⟩ := valid
  have bounds := h.live_bounds held
  rw [Block.mem_def] at inside
  omega

/-- Every valid operation returns, keeps the invariant, and changes no word outside the arena. -/
theorem step_inv (h : HeapInv A s free) {op : Op} (valid : op.Valid s) :
    ∃ t free', s.step op = some t ∧ HeapInv A t free' ∧
      ∀ a, (a < A.base ∨ A.stop ≤ a) → t.heap.mem a = s.heap.mem a := by
  cases op with
  | malloc size =>
    by_cases fails : 2 ^ 24 ≤ (size + 4 + 7) / 8 * 8 ∨ ∀ b ∈ free, b.size < (size + 4 + 7) / 8 * 8
    · refine ⟨s, free, ?_, h, fun _ _ => rfl⟩
      show (domainMalloc s.heap size).map _ = _
      rw [domainMalloc_none h valid fails]
      rfl
    · obtain ⟨small, room⟩ := not_or.mp fails
      obtain ⟨pre, c, post, rfl, less, fits⟩ := exists_firstFit room
      obtain ⟨h', run, inv, -, frame⟩ := domainMalloc_some h (Nat.not_le.mp small) less fits
      refine ⟨⟨h', (c.addr + 4) :: s.live⟩, _, ?_, inv, fun a outside => frame a ?_ ?_⟩
      · show (domainMalloc s.heap size).map _ = _
        rw [run]
        rfl
      · intro inside
        have bounds := h.free_bounds (b := c) (by simp)
        rw [Block.mem_def] at inside
        omega
      · intro link
        obtain ⟨b, hb, inside⟩ := link.mem h.blocks.append_left.placed
        have bounds := h.free_bounds (b := b) (by simp [hb])
        rw [Block.mem_def] at inside
        omega
  | free ptr =>
    obtain ⟨h', run, inv, frame⟩ := domainFree_some h valid
    refine ⟨⟨h', s.live.erase ptr⟩, _, ?_, inv, fun a outside => frame a ?_ ?_⟩
    · show (domainFree s.heap ptr).map _ = _
      rw [run]
      rfl
    · intro inside
      have bounds := h.live_bounds valid
      rw [Block.mem_def] at inside
      omega
    · intro b hb inside
      have bounds := h.free_bounds hb
      rw [Block.mem_def] at inside
      omega
  | store addr value =>
    refine ⟨_, free, rfl, store_inv h value valid.2, fun a outside => Mem.store_ne _ _ fun eq => ?_⟩
    have inside := store_inside h valid.2
    omega

end

/-! ## Runs -/

/-- The invariant holds in every state of a run. -/
theorem run_inv {A : Arena} {m : Mem} {s : Sys} (run : Run A m s) : ∃ free, HeapInv A s free := by
  refine invariant_of_run (fun s => ∃ free, HeapInv A s free) ?_ ⟨_, A.init_inv m⟩ run
  rintro s t ⟨free, inv⟩ ⟨op, valid, step⟩
  obtain ⟨t', free', step', inv', -⟩ := step_inv inv valid
  rw [step] at step'
  exact ⟨free', Option.some.inj step' ▸ inv'⟩

/-- What holds of a heap between two operations. -/
structure WellFormed (A : Arena) (s : Sys) (free : List Block) : Prop where
  /-- The list of the heap ends after the blocks `free`. -/
  list : FreeListAt s.heap.mem s.heap.firstBlock free
  ascending : free.Pairwise fun b c => b.addr < c.addr
  aligned : ∀ b ∈ free, b.addr % 8 = 0
  sized : ∀ b ∈ free, 0 < b.size ∧ b.size % 8 = 0
  /-- No free block ends where another begins. -/
  coalesced : ∀ b ∈ free, ∀ c ∈ free, b.stop ≠ c.addr
  /-- Every held pointer still has its header. -/
  headers : ∀ ptr ∈ s.live, LiveAt s.heap.mem ptr
  /-- Free and live blocks partition the arena. -/
  tiles : Tiles A.base A.stop (free ++ s.live.map (liveBlock s.heap.mem))

theorem HeapInv.wellFormed {A : Arena} {s : Sys} {free : List Block} (h : HeapInv A s free) :
    WellFormed A s free where
  list := h.list
  ascending := h.blocks.coalesced.ascending
  aligned := fun b hb => (h.blocks.placed b hb).addr_aligned
  sized := fun b hb => ⟨(h.blocks.placed b hb).size_pos, (h.blocks.placed b hb).size_aligned⟩
  coalesced := h.blocks.coalesced.stop_ne fun b hb => (h.blocks.placed b hb).size_pos
  headers := h.live
  tiles := h.tiles

/-- Over every run the heap stays well formed, and every valid operation returns. -/
theorem heap_wellFormed (A : Arena) (m : Mem) (s : Sys) (run : Run A m s) :
    (∃ free, WellFormed A s free) ∧ ∀ op : Op, op.Valid s → ∃ t, s.step op = some t := by
  obtain ⟨free, inv⟩ := run_inv run
  refine ⟨⟨free, inv.wellFormed⟩, fun op valid => ?_⟩
  obtain ⟨t, -, step, -, -⟩ := step_inv inv valid
  exact ⟨t, step⟩

/-- An arena of eight blocks. -/
def smallArena : Arena :=
  ⟨64, 64, Nat.succ_pos 63, rfl, Nat.succ_pos 63, rfl, by decide⟩

theorem heap_wellFormed_malloc_eight :
    ∃ s, (smallArena.init fun _ => 0).step (.malloc 8) = some s ∧ s.live = [68] ∧
      (∃ free, WellFormed smallArena s free) ∧
      ∀ op : Op, op.Valid s → ∃ t, s.step op = some t :=
  ⟨_, rfl, rfl, heap_wellFormed smallArena (fun _ => 0) _
    (.single ⟨.malloc 8, show (8 + 4 + 7) / 8 * 8 < 2 ^ 32 by decide, rfl⟩)⟩

end SoftHier.Alloc
