import SoftHier.Alloc.Canonical

/-!
# What `domain_malloc` takes

On a reachable heap a request whose rounded size does not wrap either fails and leaves everything
as it is, or takes the front of the lowest free block that is large enough; the words written are
those of that block and the `next` word of the free block before it.

The rounding is done in 32-bit arithmetic before the size is compared with the header limit.  From
`2 ^ 32 - 11` on the rounded size is `0` or `8`, the comparison passes, and a block of that size is
taken as soon as any block is free (`domainMalloc_wrapped`).
-/

namespace SoftHier.Alloc

variable {A : Arena} {m : Mem} {s : Sys} {free : List Block}

/-! ## Requests that do not wrap -/

/-- `p` points behind the header of `n` bytes taken off the front of the free block `c`, the lowest
that has them; `pre` and `post` are the free blocks below and above it. -/
structure FrontTaken (s : Sys) (h' : Heap) (p n : Nat) (pre : List Block) (c : Block)
    (post : List Block) : Prop where
  before : s.heap.freeList = pre ++ c :: post
  after : h'.freeList = pre ++ (cutFront c n ++ post)
  pointer : p = c.addr + 4
  fits : n ≤ c.size
  lowest : ∀ b ∈ s.heap.freeList, n ≤ b.size → c.addr ≤ b.addr
  /-- The header of every live block and its payload are as before. -/
  live : ∀ q ∈ s.live, liveBlock h'.mem q = liveBlock s.heap.mem q ∧
    ∀ a ∈ liveBlock s.heap.mem q, h'.mem a = s.heap.mem a
  /-- Only the block and the link of the free block before it are written. -/
  writes : ∀ a, h'.mem a ≠ s.heap.mem a → a ∈ c ∨ TailLink pre a

theorem lowest_of_split {pre post : List Block} {c : Block} {n : Nat}
    (wf : FreeBlocks (pre ++ c :: post)) (less : ∀ b ∈ pre, b.size < n) :
    ∀ b ∈ pre ++ c :: post, n ≤ b.size → c.addr ≤ b.addr := by
  intro b hb large
  rcases List.mem_append.mp hb with front | back
  · exact absurd large (Nat.not_le.mpr (less b front))
  · exact wf.append_right.coalesced.addr_le_of_cons back

/-- A word written by `domain_malloc` is in no live block. -/
theorem HeapInv.live_unwritten {pre post : List Block} {c : Block}
    (inv : HeapInv A s (pre ++ c :: post)) {q a : Nat} (held : q ∈ s.live)
    (inside : a ∈ liveBlock s.heap.mem q) : a ∉ c ∧ ¬ TailLink pre a := by
  constructor
  · exact (inv.free_live (by simp) held).symm.not_mem inside
  · intro link
    obtain ⟨b, hb, inb⟩ := link.mem inv.blocks.append_left.placed
    exact (inv.free_live (by simp [hb]) held).not_mem inb inside

/-- A request that finds room takes the front of the first block that has it. -/
theorem HeapInv.frontTaken {pre post : List Block} {c : Block}
    (inv : HeapInv A s (pre ++ c :: post)) {size : Nat} (small : (size + 4 + 7) / 8 * 8 < 2 ^ 24)
    (less : ∀ b ∈ pre, b.size < (size + 4 + 7) / 8 * 8) (fits : (size + 4 + 7) / 8 * 8 ≤ c.size) :
    ∃ h', domainMalloc s.heap size = some (c.addr + 4, h') ∧
      FrontTaken s h' (c.addr + 4) ((size + 4 + 7) / 8 * 8) pre c post := by
  obtain ⟨h', run, inv', -, frame⟩ := domainMalloc_some inv small less fits
  have unchanged : ∀ q ∈ s.live, ∀ a ∈ liveBlock s.heap.mem q, h'.mem a = s.heap.mem a := by
    intro q held a inside
    obtain ⟨notTaken, notLink⟩ := inv.live_unwritten held inside
    exact frame a notTaken notLink
  refine ⟨h', run, inv.freeList_eq, inv'.freeList_eq, rfl, fits, ?_, ?_, ?_⟩
  · rw [inv.freeList_eq]
    exact lowest_of_split inv.blocks less
  · intro q held
    have header := unchanged q held _ (inv.live q held).placed.addr_mem
    exact ⟨liveBlock_congr header, unchanged q held⟩
  · intro a changed
    by_contra outside
    obtain ⟨notTaken, notLink⟩ := not_or.mp outside
    exact changed (frame a notTaken notLink)

/-- First fit is exact and failure is atomic: on every reachable heap a request that does not wrap
returns `NULL` exactly when its rounded size does not fit a header or no free block is that large,
and then changes nothing; otherwise it takes the front of the lowest block that is large enough. -/
theorem domainMalloc_firstFit (A : Arena) (m : Mem) (s : Sys) (run : Run A m s) (size : Nat)
    (noWrap : (size + 4 + 7) / 8 * 8 < 2 ^ 32) :
    ∃ p h', domainMalloc s.heap size = some (p, h') ∧
      (p = 0 ↔ 2 ^ 24 ≤ (size + 4 + 7) / 8 * 8 ∨
        ∀ b ∈ s.heap.freeList, b.size < (size + 4 + 7) / 8 * 8) ∧
      (p = 0 → h' = s.heap) ∧
      (p ≠ 0 → ∃ pre c post, FrontTaken s h' p ((size + 4 + 7) / 8 * 8) pre c post) := by
  obtain ⟨free, inv⟩ := run_inv run
  rw [inv.freeList_eq]
  by_cases fails : 2 ^ 24 ≤ (size + 4 + 7) / 8 * 8 ∨ ∀ b ∈ free, b.size < (size + 4 + 7) / 8 * 8
  · exact ⟨0, s.heap, domainMalloc_none inv noWrap fails, iff_of_true rfl fails, fun _ => rfl,
      fun found => absurd rfl found⟩
  · obtain ⟨small, room⟩ := not_or.mp fails
    obtain ⟨pre, c, post, rfl, less, fits⟩ := exists_firstFit room
    obtain ⟨h', taken, front⟩ := inv.frontTaken (Nat.not_le.mp small) less fits
    have nonnull : c.addr + 4 ≠ 0 := Nat.succ_ne_zero _
    exact ⟨_, h', taken, iff_of_false nonnull fails, fun null => absurd null nonnull,
      fun _ => ⟨pre, c, post, front⟩⟩

/-- After two blocks have been taken and the first one freed, a request that only fits behind the
second one. -/
theorem domainMalloc_firstFit_gap :
    ∃ s, Run smallArena (fun _ => 0) s ∧ s.heap.freeList = [⟨64, 16⟩, ⟨96, 32⟩] ∧ ∃ p h',
      domainMalloc s.heap 16 = some (p, h') ∧
      (p = 0 ↔ 2 ^ 24 ≤ (16 + 4 + 7) / 8 * 8 ∨
        ∀ b ∈ s.heap.freeList, b.size < (16 + 4 + 7) / 8 * 8) ∧
      (p = 0 → h' = s.heap) ∧
      (p ≠ 0 → ∃ pre c post, FrontTaken s h' p ((16 + 4 + 7) / 8 * 8) pre c post) := by
  have eight : (8 + 4 + 7) / 8 * 8 < 2 ^ 32 := by decide
  obtain ⟨s, run, free⟩ : ∃ s, Run smallArena (fun _ => 0) s ∧
      s.heap.freeList = [⟨64, 16⟩, ⟨96, 32⟩] :=
    ⟨_, ((Relation.ReflTransGen.single ⟨.malloc 8, eight, rfl⟩).tail ⟨.malloc 8, eight, rfl⟩).tail
      ⟨.free 68, by decide, rfl⟩, by decide⟩
  exact ⟨s, run, free, domainMalloc_firstFit smallArena (fun _ => 0) s run 16 (by decide)⟩

/-! ## Requests near the top of the 32-bit range -/

/-- What a caller may expect of the block behind the pointer `p` it got for `size` bytes. -/
structure Allocated (A : Arena) (s : Sys) (size p : Nat) (h' : Heap) : Prop where
  pointer : p = (liveBlock h'.mem p).addr + 4
  room : size + 4 ≤ (liveBlock h'.mem p).size
  inside : A.base ≤ (liveBlock h'.mem p).addr ∧ (liveBlock h'.mem p).stop ≤ A.stop
  /-- The block was free. -/
  taken : ∃ b ∈ s.heap.freeList, ∀ a ∈ liveBlock h'.mem p, a ∈ b
  live : ∀ q ∈ s.live, (liveBlock h'.mem p).Disjoint (liveBlock s.heap.mem q)
  free : ∀ b ∈ h'.freeList, (liveBlock h'.mem p).Disjoint b

/-- The block size `domain_malloc` computes for a request that wraps. -/
theorem malloc_blockSize_wrapped {size : Nat} (size_lt : size < 2 ^ 32)
    (wraps : 2 ^ 32 ≤ size + 11) : alignUp (u32 (size + 4)) minBlockSize ≤ 8 := by
  unfold minBlockSize
  rw [alignUp_eight_wrapping]
  unfold u32
  omega

/-- The first free block is taken for any size it has. -/
theorem allocateMemory_head {h : Heap} {c : Block} {post : List Block} {n : Nat}
    (list : FreeListAt h.mem h.firstBlock (c :: post)) (fits : n ≤ c.size) :
    ∃ h', allocateMemory h n = some (c.addr, h') := by
  have csize := list.size_eq (b := c) List.mem_cons_self
  have nonnull : c.addr ≠ 0 := list.2.1
  have whole : FreeListAt h.mem h.firstBlock ([] ++ c :: post) := list
  have search := whole.walk_append (fun curr => blockSize h.mem curr < n)
    (fun _ hb => nomatch hb)
    (fun b hb => by
      have same : c = b := Option.some.inj hb
      subst same
      simpa [csize] using fits)
    0 walkFuel (by decide)
  unfold allocateMemory
  rw [search]
  simp only [headAddr, Option.map_some, if_pos nonnull]
  split
  · exact ⟨_, rfl⟩
  · exact ⟨_, rfl⟩

/-- A request that wraps gets a block of at most eight bytes as soon as any block is free. -/
theorem domainMalloc_wrapped {c : Block} {post : List Block} (inv : HeapInv A s (c :: post))
    {size : Nat} (size_lt : size < 2 ^ 32) (wraps : 2 ^ 32 ≤ size + 11) :
    ∃ h', domainMalloc s.heap size = some (c.addr + 4, h') ∧
      (liveBlock h'.mem (c.addr + 4)).size ≤ 8 := by
  obtain ⟨n, hn⟩ : ∃ n, n = alignUp (u32 (size + 4)) minBlockSize := ⟨_, rfl⟩
  have tiny : n ≤ 8 := hn ▸ malloc_blockSize_wrapped size_lt wraps
  have hc := inv.blocks.head
  have nonnull : c.addr ≠ 0 := Nat.pos_iff_ne_zero.mp hc.addr_pos
  have pointer : u32 (c.addr + 4) = c.addr + 4 := hc.next_addr
  have back : sub32 (c.addr + 4) 4 = c.addr := by
    have := u32_lt (c.addr + 4)
    rw [pointer] at this
    exact sub32_of_le (Nat.le_add_left _ _) this
  obtain ⟨h', run⟩ := allocateMemory_head inv.list (Nat.le_trans tiny hc.eight_le_size)
  refine ⟨{ h' with mem := h'.mem.store c.addr (canaryEncode c.addr n) }, ?_, ?_⟩
  · unfold domainMalloc
    simp only [← hn, headerLimit]
    rw [if_neg (by omega), run]
    simp only [Option.map_some, if_neg nonnull, pointer]
  · unfold liveBlock
    simp only [back, Mem.store_same]
    rw [canaryDecode_encode (by omega)]
    exact tiny

/-- A request that does not wrap is answered with a block that is large enough. -/
theorem HeapInv.allocated (inv : HeapInv A s free) {size : Nat} (noWrap : size + 11 < 2 ^ 32) :
    ∃ p h', domainMalloc s.heap size = some (p, h') ∧ (p ≠ 0 → Allocated A s size p h') := by
  have valid : (size + 4 + 7) / 8 * 8 < 2 ^ 32 := by omega
  by_cases fails : 2 ^ 24 ≤ (size + 4 + 7) / 8 * 8 ∨ ∀ b ∈ free, b.size < (size + 4 + 7) / 8 * 8
  · exact ⟨0, s.heap, domainMalloc_none inv valid fails, fun nonnull => absurd rfl nonnull⟩
  obtain ⟨small, room⟩ := not_or.mp fails
  obtain ⟨pre, c, post, rfl, less, fits⟩ := exists_firstFit room
  obtain ⟨h', run, inv', block, frame⟩ := domainMalloc_some inv (Nat.not_le.mp small) less fits
  have held : c.addr + 4 ∈ (c.addr + 4) :: s.live := List.mem_cons_self
  refine ⟨_, h', run, fun _ => ⟨?_, ?_, inv'.live_bounds held, ?_, ?_, ?_⟩⟩
  · rw [block]
  · rw [block]
    show size + 4 ≤ (size + 4 + 7) / 8 * 8
    omega
  · rw [inv.freeList_eq, block]
    refine ⟨c, by simp, fun a inside => ⟨inside.1, Nat.lt_of_lt_of_le inside.2 ?_⟩⟩
    exact Nat.add_le_add_left fits _
  · intro q hq
    have tiled := (List.pairwise_append.mp inv'.tiles.disjoint).2.1
    have apart := (List.pairwise_cons.mp tiled).1 _ (List.mem_map_of_mem hq)
    obtain ⟨notTaken, notLink⟩ := inv.live_unwritten hq (inv.live q hq).placed.addr_mem
    rwa [liveBlock_congr (frame _ notTaken notLink)] at apart
  · intro b hb
    rw [inv'.freeList_eq] at hb
    exact (inv'.free_live hb held).symm

/-! ## Runs with any request -/

/-- A call with a 32-bit request that does not wrap or finds nothing free, or any other valid
operation. -/
def Op.Admitted (s : Sys) : Op → Prop
  | .malloc size => size < 2 ^ 32 ∧ (size + 11 < 2 ^ 32 ∨ s.heap.firstBlock = 0)
  | op => op.Valid s

/-- A run in which every operation is admitted. -/
def AdmittedRun (A : Arena) (m : Mem) (s : Sys) : Prop :=
  Relation.ReflTransGen (fun s t => ∃ op : Op, op.Admitted s ∧ s.step op = some t) (A.init m) s

/-- With nothing free every request fails and changes nothing. -/
theorem domainMalloc_of_nothing_free {h : Heap} (empty : h.firstBlock = 0) (size : Nat) :
    domainMalloc h size = some (0, h) := by
  have nothing : FreeListAt h.mem h.firstBlock ([] ++ []) := empty
  have search : ∀ keepGoing, walk h.mem keepGoing walkFuel 0 h.firstBlock = some (0, 0) :=
    fun keepGoing => nothing.walk_append keepGoing (fun _ hb => nomatch hb)
      (fun _ hb => nomatch hb) 0 walkFuel (by decide)
  unfold domainMalloc
  dsimp only
  split
  · rfl
  · unfold allocateMemory
    rw [search]
    rfl

/-- A request that wraps and finds nothing free leaves the run where it is, so admitted runs reach
no other states. -/
theorem AdmittedRun.run (admitted : AdmittedRun A m s) : Run A m s := by
  refine invariant_of_run (Run A m) ?_ .refl admitted
  rintro s t run ⟨op, ok, step⟩
  cases op with
  | malloc size =>
    obtain ⟨size_lt, noWrap | empty⟩ := ok
    · have valid : (size + 4 + 7) / 8 * 8 < 2 ^ 32 := by omega
      exact run.tail ⟨.malloc size, valid, step⟩
    · have same : s.step (.malloc size) = some s := by
        show (domainMalloc s.heap size).map _ = _
        rw [domainMalloc_of_nothing_free empty]
        rfl
      rw [same] at step
      cases step
      exact run
  | free ptr => exact run.tail ⟨.free ptr, ok, step⟩
  | store addr value => exact run.tail ⟨.store addr value, ok, step⟩

/-- `domain_malloc` gives out a block of the size asked for exactly when the rounding does not wrap
or nothing is free. -/
theorem domainMalloc_allocates_iff (A : Arena) (m : Mem) (s : Sys) (run : AdmittedRun A m s)
    (size : Nat) (size_lt : size < 2 ^ 32) :
    (∃ p h', domainMalloc s.heap size = some (p, h') ∧ (p ≠ 0 → Allocated A s size p h')) ↔
      size + 11 < 2 ^ 32 ∨ s.heap.firstBlock = 0 := by
  obtain ⟨free, inv⟩ := run_inv run.run
  constructor
  · rintro ⟨p, h', call, good⟩
    by_contra neither
    obtain ⟨wraps, some_free⟩ := not_or.mp neither
    cases free with
    | nil => exact some_free inv.list
    | cons c post =>
      obtain ⟨h'', call', tiny⟩ := domainMalloc_wrapped inv size_lt (Nat.not_lt.mp wraps)
      rw [call] at call'
      cases call'
      have room := (good (Nat.succ_ne_zero _)).room
      omega
  · rintro (noWrap | empty)
    · exact inv.allocated noWrap
    · exact ⟨0, s.heap, domainMalloc_of_nothing_free empty size, fun nonnull => absurd rfl nonnull⟩

/-- A request that does not wrap, with one block taken and one freed. -/
theorem domainMalloc_allocates_iff_gap :
    ∃ s, AdmittedRun smallArena (fun _ => 0) s ∧ s.live = [84] ∧
      ∃ p h', domainMalloc s.heap 16 = some (p, h') ∧
        (p ≠ 0 → Allocated smallArena s 16 p h') := by
  have eight : ∀ s : Sys, (Op.malloc 8).Admitted s := fun _ => ⟨by decide, .inl (by decide)⟩
  obtain ⟨s, run, live⟩ : ∃ s, AdmittedRun smallArena (fun _ => 0) s ∧ s.live = [84] :=
    ⟨_, ((Relation.ReflTransGen.single ⟨.malloc 8, eight _, rfl⟩).tail
      ⟨.malloc 8, eight _, rfl⟩).tail ⟨.free 68, show 68 ∈ Sys.live _ by decide, rfl⟩, rfl⟩
  exact ⟨s, run, live, (domainMalloc_allocates_iff smallArena (fun _ => 0) s run 16
    (by decide)).mpr (.inl (by decide))⟩

/-- In a fresh arena of 64 bytes a request of `0xFFFFFFFC` bytes succeeds, with an empty block. -/
theorem huge_request_succeeds :
    ∃ h', Run smallArena (fun _ => 0) (smallArena.init fun _ => 0) ∧
      domainMalloc (smallArena.init fun _ => 0).heap 0xFFFFFFFC = some (68, h') ∧
      (liveBlock h'.mem 68).size = 0 ∧
      ¬ Allocated smallArena (smallArena.init fun _ => 0) 0xFFFFFFFC 68 h' := by
  refine ⟨_, .refl, rfl, rfl, fun good => ?_⟩
  have room := good.room
  revert room
  decide

end SoftHier.Alloc
