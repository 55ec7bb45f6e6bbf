import SoftHier.Alloc.FreeList

/-!
# Allocation

`allocate_memory` refines `firstFit`: on a heap whose list spells out `bs` it takes the block
`firstFit n bs` takes, leaves the list `firstFit n bs` leaves, and writes only inside free blocks.
`domain_malloc` adds the header word, which `canary_decode` reads back exactly because the block
size is below `2 ^ 24`.
-/

namespace SoftHier.Alloc

/-! ## Headers -/

theorem canary_eq_mod (ptr : Nat) : canary ptr = u32 ptr % 2 ^ 8 :=
  Nat.and_two_pow_sub_one_eq_mod (u32 ptr) 8

theorem canaryEncode_eq {ptr size : Nat} (hsize : size < 2 ^ 24) :
    canaryEncode ptr size = size * 2 ^ 8 + canary ptr := by
  have hc : canary ptr < 2 ^ 8 := by
    rw [canary_eq_mod]
    exact Nat.mod_lt _ (by decide)
  have hshift : size <<< 8 < 2 ^ 32 := by
    rw [Nat.shiftLeft_eq]
    omega
  unfold canaryEncode
  rw [u32_of_lt hshift, ← Nat.shiftLeft_add_eq_or_of_lt hc, Nat.shiftLeft_eq]

/-- Decoding a header gives back the size and the canary it was encoded from. -/
theorem canaryDecode_encode {ptr size : Nat} (hsize : size < 2 ^ 24) :
    canaryDecode (canaryEncode ptr size) = ⟨size, canary ptr⟩ := by
  have hc : canary ptr < 2 ^ 8 := by
    rw [canary_eq_mod]
    exact Nat.mod_lt _ (by decide)
  have hmask : (size * 2 ^ 8 + canary ptr) &&& 0xFF = canary ptr := by
    have mask : (size * 2 ^ 8 + canary ptr) &&& 0xFF = (size * 2 ^ 8 + canary ptr) % 2 ^ 8 :=
      Nat.and_two_pow_sub_one_eq_mod _ 8
    omega
  have hshift : (size * 2 ^ 8 + canary ptr) >>> 8 = size := by
    rw [Nat.shiftRight_eq_div_pow]
    omega
  rw [canaryEncode_eq hsize]
  simp only [canaryDecode, hmask, hshift]

/-! ## `allocate_memory` -/

section

variable {h : Heap} {bs : List Block} {n : Nat}

/-- No free block is large enough: nothing changes. -/
theorem allocateMemory_of_small (list : FreeListAt h.mem h.firstBlock bs) (wf : FreeBlocks bs)
    (small : ∀ b ∈ bs, b.size < n) : allocateMemory h n = some (0, h) := by
  rw [← List.append_nil bs] at list
  have search := list.walk_append (fun curr => blockSize h.mem curr < n)
    (fun b hb => by
      rw [List.append_nil] at list
      simpa [list.size_eq hb] using small b hb)
    (fun b hb => by cases hb) 0 walkFuel wf.length_lt_walkFuel
  unfold allocateMemory
  rw [search]
  rfl

variable {pre post : List Block} {c : Block}

/-- The search stops at the first block that is large enough. -/
theorem walk_of_fit (list : FreeListAt h.mem h.firstBlock (pre ++ c :: post))
    (wf : FreeBlocks (pre ++ c :: post)) (small : ∀ b ∈ pre, b.size < n) (fits : n ≤ c.size) :
    walk h.mem (fun curr => blockSize h.mem curr < n) walkFuel 0 h.firstBlock =
      some (lastAddr 0 pre, c.addr) := by
  have csize := list.size_eq (b := c) (by simp)
  have enough : pre.length < walkFuel := by
    have := wf.length_lt_walkFuel
    simp only [List.length_append] at this
    omega
  refine list.walk_append (fun curr => blockSize h.mem curr < n) (fun b hb => ?_) (fun b hb => ?_)
    0 walkFuel enough
  · simpa [list.size_eq (List.mem_append_left _ hb)] using small b hb
  · have same : c = b := Option.some.inj hb
    subst same
    simpa [csize] using fits

/-- The blocks before a block end before it, and those after it start behind it. -/
theorem apart_of_list (wf : FreeBlocks (pre ++ c :: post)) :
    (∀ b ∈ pre, b.stop < c.addr) ∧ (∀ d ∈ post, c.stop < d.addr) ∧
      ∀ b ∈ pre, ∀ d ∈ post, b.Disjoint d := by
  have gaps := Coalesced.append_iff.mp wf.coalesced
  refine ⟨fun b hb => gaps.2.2 b hb c List.mem_cons_self, (Coalesced.cons_iff.mp gaps.2.1).1,
    fun b hb d hd => ?_⟩
  exact Or.inl (Nat.le_of_lt (gaps.2.2 b hb d (List.mem_cons_of_mem _ hd)))

/-- The whole block is taken: its predecessor skips it. -/
theorem allocateMemory_of_whole (list : FreeListAt h.mem h.firstBlock (pre ++ c :: post))
    (wf : FreeBlocks (pre ++ c :: post)) (small : ∀ b ∈ pre, b.size < n) (whole : c.size = n) :
    ∃ h', allocateMemory h n = some (c.addr, h') ∧
      FreeListAt h'.mem h'.firstBlock (pre ++ post) ∧
      ∀ a, ¬ TailLink pre a → h'.mem a = h.mem a := by
  have hc : Placed c := wf.placed c (by simp)
  have csize := list.size_eq (b := c) (by simp)
  have cnext := list.next_eq
  have taken : c.addr ≠ 0 := Nat.pos_iff_ne_zero.mp hc.addr_pos
  have run : allocateMemory h n =
      some (c.addr, linkPrev h (lastAddr 0 pre) (headAddr post)) := by
    unfold allocateMemory
    rw [walk_of_fit list wf small (Nat.le_of_eq whole.symm)]
    simp [taken, csize, whole, cnext]
  have tail := list.drop.2.2.2
  rw [cnext] at tail
  obtain ⟨list', frame⟩ := list.linkPrev wf tail (fun d hd => wf.placed d (by simp [hd]))
    (apart_of_list wf).2.2 (fun _ _ _ _ => rfl) _ rfl
  exact ⟨_, run, list', frame⟩

/-- The header of the rest of a split block is written inside the block. -/
theorem splitHeader (hc : Placed c) (aligned : n % 8 = 0) (room : n < c.size) {m : Mem}
    {next : Nat} (hm : m = setNext (setSize h.mem (c.addr + n) (c.size - n)) (c.addr + n) next) :
    blockSize m (c.addr + n) = c.size - n ∧ blockNext m (c.addr + n) = next ∧
      ∀ a, a ∉ c → m a = h.mem a := by
  have rest := hc.rest aligned room
  have size := rest.eight_le_size
  have top := rest.stop_lt
  simp only [Block.stop] at size top
  have header : c.addr + n + 4 < 2 ^ 32 := by omega
  rw [hm]
  refine ⟨blockSize_header header, blockNext_header, fun a ha => ?_⟩
  rw [Block.mem_def, Block.stop] at ha
  exact header_frame header (by omega) (by omega)

/-- The block is split: the rest of it becomes a block of its own. -/
theorem allocateMemory_of_split (list : FreeListAt h.mem h.firstBlock (pre ++ c :: post))
    (wf : FreeBlocks (pre ++ c :: post)) (aligned : n % 8 = 0) (pos : 0 < n)
    (small : ∀ b ∈ pre, b.size < n) (room : n < c.size) :
    ∃ h', allocateMemory h n = some (c.addr, h') ∧
      FreeListAt h'.mem h'.firstBlock (pre ++ ⟨c.addr + n, c.size - n⟩ :: post) ∧
      ∀ a, a ∉ c → ¬ TailLink pre a → h'.mem a = h.mem a := by
  have hc : Placed c := wf.placed c (by simp)
  have restPlaced := hc.rest aligned room
  have csize := list.size_eq (b := c) (by simp)
  have cnext := list.next_eq
  obtain ⟨before, after, apart⟩ := apart_of_list wf
  have top := hc.stop_lt
  unfold Block.stop at top
  obtain ⟨m, hm⟩ : ∃ m, m = setNext (setSize h.mem (c.addr + n) (c.size - n)) (c.addr + n)
    (headAddr post) := ⟨_, rfl⟩
  obtain ⟨size, next, outside⟩ := splitHeader hc aligned room hm
  have run : allocateMemory h n =
      some (c.addr, linkPrev { h with mem := m } (lastAddr 0 pre) (c.addr + n)) := by
    have taken : c.addr ≠ 0 := Nat.pos_iff_ne_zero.mp hc.addr_pos
    have part : c.size ≠ n := Nat.ne_of_gt room
    have newBlock : u32 (c.addr + n) = c.addr + n := u32_of_lt (by omega)
    have left : sub32 c.size n = c.size - n := sub32_of_le (Nat.le_of_lt room) (by omega)
    -- the size of the rest is not written over the `next` word of the block
    have nextSame : blockNext (setSize h.mem (c.addr + n) (c.size - n)) c.addr =
        headAddr post := by
      have apart : c.addr + 4 ≠ c.addr + n := by omega
      rw [← cnext]
      unfold blockNext setSize
      rw [hc.next_addr, Mem.store_ne _ _ apart]
    unfold allocateMemory
    rw [walk_of_fit list wf small (Nat.le_of_lt room)]
    simp [taken, csize, part, newBlock, left, nextSame, hm]
  have tail : FreeListAt m (c.addr + n) (⟨c.addr + n, c.size - n⟩ :: post) := by
    refine ⟨rfl, Nat.pos_iff_ne_zero.mp restPlaced.addr_pos, size, ?_⟩
    have tail := list.drop.2.2.2
    rw [cnext] at tail
    rw [next]
    refine tail.frame (fun d hd => wf.placed d (by simp [hd])) fun d hd a ha =>
      outside a fun hac => ?_
    exact Block.Disjoint.not_mem (Or.inl (Nat.le_of_lt (after d hd))) hac ha
  obtain ⟨list', frame⟩ := list.linkPrev wf tail
    (fun d hd => by
      rcases List.mem_cons.mp hd with rfl | hd
      · exact restPlaced
      · exact wf.placed d (by simp [hd]))
    (fun b hb d hd => by
      rcases List.mem_cons.mp hd with rfl | hd
      · have := before b hb
        exact Or.inl (show b.stop ≤ c.addr + n by omega)
      · exact apart b hb d hd)
    (fun b hb a ha => outside a fun hac =>
      Block.Disjoint.not_mem (Or.inl (Nat.le_of_lt (before b hb))) ha hac)
    (linkPrev { h with mem := m } (lastAddr 0 pre) (c.addr + n)) rfl
  exact ⟨_, run, list', fun a ha link => (frame a link).trans (outside a ha)⟩

/-- `allocate_memory` takes the front of the first block that is large enough.  It writes inside
that block and the `next` word of the block before it. -/
theorem allocateMemory_of_fit (list : FreeListAt h.mem h.firstBlock (pre ++ c :: post))
    (wf : FreeBlocks (pre ++ c :: post)) (aligned : n % 8 = 0) (pos : 0 < n)
    (small : ∀ b ∈ pre, b.size < n) (fits : n ≤ c.size) :
    ∃ h', allocateMemory h n = some (c.addr, h') ∧
      FreeListAt h'.mem h'.firstBlock (pre ++ (cutFront c n ++ post)) ∧
      ∀ a, a ∉ c → ¬ TailLink pre a → h'.mem a = h.mem a := by
  by_cases whole : c.size = n
  · obtain ⟨h', run, list', frame⟩ := allocateMemory_of_whole list wf small whole
    rw [cutFront, if_pos whole, List.nil_append]
    exact ⟨h', run, list', fun a _ => frame a⟩
  · have room : n < c.size := Nat.lt_of_le_of_ne fits (Ne.symm whole)
    rw [cutFront, if_neg whole, List.singleton_append]
    exact allocateMemory_of_split list wf aligned pos small room

end

end SoftHier.Alloc
