import SoftHier.Alloc.Model

/-!
# The intrusive free list

`FreeListAt m p bs` says that the list starting at address `p` in memory `m` spells out the blocks
`bs`, and `FreeBlocks bs` collects what a well-formed free list satisfies as a list of blocks.
The words of a block lie inside it (`Placed.addr_mem`, `Placed.next_mem`), so a list only depends
on the memory its blocks cover (`FreeListAt.frame`); `FreeListAt.replaceTail` re-links the last
node of a prefix and `FreeListAt.walk_append` evaluates both searches of the allocator.
-/

namespace SoftHier.Alloc

/-- The list starting at `p` spells out `bs`. -/
def FreeListAt (m : Mem) : Nat → List Block → Prop
  | p, [] => p = 0
  | p, b :: bs =>
      p = b.addr ∧ b.addr ≠ 0 ∧ blockSize m b.addr = b.size ∧
        FreeListAt m (blockNext m b.addr) bs

/-- Address of the first block, `NULL` for the empty list. -/
def headAddr : List Block → Nat
  | [] => 0
  | b :: _ => b.addr

/-- Address of the last block, `prev` for the empty list. -/
def lastAddr (prev : Nat) : List Block → Nat
  | [] => prev
  | b :: bs => lastAddr b.addr bs

@[simp] theorem lastAddr_nil (prev : Nat) : lastAddr prev [] = prev := rfl

@[simp] theorem lastAddr_concat (prev : Nat) (bs : List Block) (b : Block) :
    lastAddr prev (bs ++ [b]) = b.addr := by
  induction bs generalizing prev with
  | nil => rfl
  | cons c bs ih => exact ih c.addr

/-- A block of the allocator: at a nonzero eight-byte aligned address, of a positive size that is
a multiple of eight, and ending below the top of the address space. -/
structure Placed (b : Block) : Prop where
  addr_pos : 0 < b.addr
  addr_aligned : b.addr % 8 = 0
  size_pos : 0 < b.size
  size_aligned : b.size % 8 = 0
  stop_lt : b.stop < 2 ^ 32

namespace Placed

variable {b : Block}

theorem eight_le_addr (h : Placed b) : 8 ≤ b.addr := by
  have := h.addr_pos
  have := h.addr_aligned
  omega

theorem eight_le_size (h : Placed b) : 8 ≤ b.size := by
  have := h.size_pos
  have := h.size_aligned
  omega

/-- The `next` word of a block is four bytes into it. -/
theorem next_addr (h : Placed b) : u32 (b.addr + 4) = b.addr + 4 := by
  have := h.eight_le_size
  have := h.stop_lt
  unfold Block.stop at this
  exact u32_of_lt (by omega)

theorem header_lt (h : Placed b) : b.addr + 4 < 2 ^ 32 := by
  rw [← h.next_addr]
  exact u32_lt _

/-- The size of two touching blocks together. -/
theorem u32_size_add {c : Block} (hc : Placed c) (touch : b.stop = c.addr) :
    u32 (b.size + c.size) = b.size + c.size := by
  have top := hc.stop_lt
  unfold Block.stop at touch top
  exact u32_of_lt (by omega)

theorem addr_mem (h : Placed b) : b.addr ∈ b := by
  have := h.size_pos
  rw [Block.mem_def, Block.stop]
  omega

theorem next_mem (h : Placed b) : b.addr + 4 ∈ b := by
  have := h.eight_le_size
  rw [Block.mem_def, Block.stop]
  omega

/-- The rest of a block whose front is taken. -/
theorem rest (h : Placed b) {n : Nat} (aligned : n % 8 = 0) (less : n < b.size) :
    Placed ⟨b.addr + n, b.size - n⟩ := by
  have h1 := h.addr_pos
  have h2 := h.addr_aligned
  have h3 := h.size_aligned
  have h4 := h.stop_lt
  refine ⟨?_, ?_, ?_, ?_, ?_⟩ <;> simp only [Block.stop] at * <;> omega

theorem of_mem_cutFront (h : Placed b) {n : Nat} (aligned : n % 8 = 0) (fits : n ≤ b.size)
    {d : Block} (hd : d ∈ cutFront b n) : Placed d := by
  unfold cutFront at hd
  split at hd
  · cases hd
  · rename_i part
    rw [List.mem_singleton.mp hd]
    exact h.rest aligned (Nat.lt_of_le_of_ne fits (Ne.symm part))

end Placed

theorem placed_joinClosed : JoinClosed Placed := by
  intro b c hb hc touch
  have h1 := hb.addr_aligned
  have h2 := hb.size_aligned
  have h3 := hc.size_aligned
  have h4 := hb.size_pos
  have h5 := hc.stop_lt
  refine ⟨hb.addr_pos, h1, ?_, ?_, ?_⟩
  · show 0 < b.size + c.size
    omega
  · show (b.size + c.size) % 8 = 0
    omega
  · simp only [Block.stop] at touch h5 ⊢
    omega

/-- The blocks of a well-formed free list. -/
structure FreeBlocks (bs : List Block) : Prop where
  coalesced : Coalesced bs
  placed : ∀ b ∈ bs, Placed b

namespace FreeBlocks

variable {b : Block} {bs cs : List Block}

theorem nil : FreeBlocks [] := ⟨Coalesced.nil, fun _ h => nomatch h⟩

theorem tail (h : FreeBlocks (b :: bs)) : FreeBlocks bs :=
  ⟨(Coalesced.cons_iff.mp h.coalesced).2, fun c hc => h.placed c (List.mem_cons_of_mem _ hc)⟩

theorem head (h : FreeBlocks (b :: bs)) : Placed b := h.placed b List.mem_cons_self

theorem append_right (h : FreeBlocks (bs ++ cs)) : FreeBlocks cs :=
  ⟨(Coalesced.append_iff.mp h.coalesced).2.1, fun c hc => h.placed c (List.mem_append_right _ hc)⟩

theorem append_left (h : FreeBlocks (bs ++ cs)) : FreeBlocks bs :=
  ⟨(Coalesced.append_iff.mp h.coalesced).1, fun c hc => h.placed c (List.mem_append_left _ hc)⟩

theorem firstFit (h : FreeBlocks bs) {n p : Nat} {left : List Block} (aligned : n % 8 = 0)
    (found : firstFit n bs = some (p, left)) : FreeBlocks left := by
  refine ⟨h.coalesced.firstFit found, fun d hd => ?_⟩
  obtain ⟨pre, c, post, rfl, -, fits, -, rfl⟩ := firstFit_eq_some found
  rcases List.mem_append.mp hd with hd | hd
  · exact h.placed d (by simp [hd])
  · rcases List.mem_append.mp hd with hd | hd
    · exact (h.placed c (by simp)).of_mem_cutFront aligned fits hd
    · exact h.placed d (by simp [hd])

/-- Ascending blocks of at least eight bytes take eight bytes of address space each. -/
theorem eight_mul_length_le (h : FreeBlocks bs) (lo : Nat) (hlo : ∀ b ∈ bs, lo ≤ b.addr)
    (hlt : lo ≤ 2 ^ 32) : lo + 8 * bs.length ≤ 2 ^ 32 := by
  induction bs generalizing lo with
  | nil => simpa using hlt
  | cons b rest ih =>
      have gaps := (Coalesced.cons_iff.mp h.coalesced).1
      have first := hlo b List.mem_cons_self
      have size := h.head.eight_le_size
      have stop := h.head.stop_lt
      have bound := ih h.tail b.stop (fun c hc => Nat.le_of_lt (gaps c hc))
        (Nat.le_of_lt stop)
      simp only [List.length_cons, Block.stop] at bound ⊢
      omega

/-- The searches visit every block before they run out of fuel. -/
theorem length_lt_walkFuel (h : FreeBlocks bs) : bs.length < walkFuel := by
  have bound := h.eight_mul_length_le 8 (fun b hb => (h.placed b hb).eight_le_addr)
    (by decide)
  unfold walkFuel
  omega

end FreeBlocks

/-! ## Reading the list -/

namespace FreeListAt

variable {m m' : Mem} {p : Nat} {b : Block} {bs pre post : List Block}

theorem eq_headAddr (h : FreeListAt m p bs) : p = headAddr bs := by
  cases bs with
  | nil => exact h
  | cons b bs => exact h.1

/-- A list depends only on the memory its blocks cover. -/
theorem frame (h : FreeListAt m p bs) (placed : ∀ b ∈ bs, Placed b)
    (same : ∀ b ∈ bs, ∀ a, a ∈ b → m' a = m a) : FreeListAt m' p bs := by
  induction bs generalizing p with
  | nil => exact h
  | cons b bs ih =>
      obtain ⟨start, nonzero, size, rest⟩ := h
      have hb := placed b List.mem_cons_self
      have sizeSame := same b List.mem_cons_self b.addr hb.addr_mem
      have nextSame := same b List.mem_cons_self (b.addr + 4) hb.next_mem
      refine ⟨start, nonzero, sizeSame.trans size, ?_⟩
      have next : blockNext m' b.addr = blockNext m b.addr := by
        simp only [blockNext, hb.next_addr]
        exact nextSame
      rw [next]
      exact ih rest (fun c hc => placed c (List.mem_cons_of_mem _ hc))
        (fun c hc => same c (List.mem_cons_of_mem _ hc))

/-- The part of a list behind a prefix. -/
theorem drop (h : FreeListAt m p (pre ++ post)) : FreeListAt m (headAddr post) post := by
  induction pre generalizing p with
  | nil =>
      have start := h.eq_headAddr
      rw [List.nil_append] at h start
      rwa [start] at h
  | cons c pre ih => exact ih h.2.2.2

/-- Give the last node of a prefix a new size and a new successor. -/
theorem replaceTail {s q : Nat} (h : FreeListAt m p (pre ++ b :: post))
    (placed : ∀ c ∈ pre, Placed c) (same : ∀ c ∈ pre, ∀ a, a ∈ c → m' a = m a)
    (size : blockSize m' b.addr = s) (next : blockNext m' b.addr = q) {rest : List Block}
    (tail : FreeListAt m' q rest) : FreeListAt m' p (pre ++ ⟨b.addr, s⟩ :: rest) := by
  induction pre generalizing p with
  | nil =>
      obtain ⟨start, nonzero, -, -⟩ := h
      exact ⟨start, nonzero, size, by rw [next]; exact tail⟩
  | cons c pre ih =>
      obtain ⟨start, nonzero, csize, crest⟩ := h
      have hc := placed c List.mem_cons_self
      have nextSame : blockNext m' c.addr = blockNext m c.addr := by
        simp only [blockNext, hc.next_addr]
        exact same c List.mem_cons_self _ hc.next_mem
      refine ⟨start, nonzero, (same c List.mem_cons_self _ hc.addr_mem).trans csize, ?_⟩
      rw [nextSame]
      exact ih crest (fun d hd => placed d (List.mem_cons_of_mem _ hd))
        (fun d hd => same d (List.mem_cons_of_mem _ hd))

/-- Both searches stop at the first block their condition rejects. -/
theorem walk_append (h : FreeListAt m p (pre ++ post)) (keepGoing : Nat → Bool)
    (keeps : ∀ b ∈ pre, keepGoing b.addr = true)
    (stops : ∀ b ∈ post.head?, keepGoing b.addr = false) (prev fuel : Nat)
    (enough : pre.length < fuel) :
    walk m keepGoing fuel prev p = some (lastAddr prev pre, headAddr post) := by
  induction pre generalizing p prev fuel with
  | nil =>
      obtain ⟨fuel, rfl⟩ : ∃ k, fuel = k + 1 := ⟨fuel - 1, by simp at enough; omega⟩
      cases post with
      | nil =>
          have start : p = 0 := h
          simp [walk, start, headAddr]
      | cons c post =>
          have start : p = c.addr := h.1
          simp [walk, start, stops c rfl, headAddr]
  | cons b pre ih =>
      obtain ⟨fuel, rfl⟩ : ∃ k, fuel = k + 1 := ⟨fuel - 1, by simp at enough; omega⟩
      obtain ⟨rfl, nonzero, -, rest⟩ := h
      have step := ih rest (fun c hc => keeps c (List.mem_cons_of_mem _ hc)) b.addr fuel
        (by simp at enough; omega)
      simp [walk, nonzero, keeps b List.mem_cons_self, step, lastAddr]

theorem size_eq (h : FreeListAt m p bs) (hb : b ∈ bs) : blockSize m b.addr = b.size := by
  induction bs generalizing p with
  | nil => cases hb
  | cons c bs ih =>
      rcases List.mem_cons.mp hb with rfl | hb
      · exact h.2.2.1
      · exact ih h.2.2.2 hb

theorem next_eq (h : FreeListAt m p (pre ++ b :: post)) : blockNext m b.addr = headAddr post :=
  h.drop.2.2.2.eq_headAddr

end FreeListAt

/-- The first `n` blocks of the list starting at `p`. -/
def freeBlocksFrom (m : Mem) : Nat → Nat → List Block
  | 0, _ => []
  | n + 1, p => if p = 0 then [] else ⟨p, blockSize m p⟩ :: freeBlocksFrom m n (blockNext m p)

/-- The free list of a heap. -/
def Heap.freeList (h : Heap) : List Block := freeBlocksFrom h.mem walkFuel h.firstBlock

theorem FreeListAt.freeBlocksFrom_eq {m : Mem} {p : Nat} {bs : List Block} (h : FreeListAt m p bs)
    (n : Nat) : freeBlocksFrom m n p = bs.take n := by
  induction n generalizing p bs with
  | zero => rfl
  | succ n ih =>
      rw [freeBlocksFrom]
      cases bs with
      | nil =>
          rw [if_pos (show p = 0 from h)]
          rfl
      | cons b bs =>
          obtain ⟨rfl, nonzero, size, rest⟩ := h
          rw [if_neg nonzero, size, ih rest]
          rfl

theorem FreeListAt.freeList_eq {h : Heap} {bs : List Block}
    (list : FreeListAt h.mem h.firstBlock bs) (wf : FreeBlocks bs) : h.freeList = bs := by
  unfold Heap.freeList
  rw [list.freeBlocksFrom_eq, List.take_of_length_le (Nat.le_of_lt wf.length_lt_walkFuel)]

/-! ## Writing the list -/

/-- The word after the free-block header written at `q`. -/
theorem blockSize_header {m : Mem} {q s n : Nat} (hq : q + 4 < 2 ^ 32) :
    blockSize (setNext (setSize m q s) q n) q = s := by
  have hne : q ≠ u32 (q + 4) := by
    rw [u32_of_lt hq]
    omega
  unfold blockSize setNext setSize
  rw [Mem.store_ne _ _ hne, Mem.store_same]

theorem blockNext_header {m : Mem} {q s n : Nat} :
    blockNext (setNext (setSize m q s) q n) q = n := by
  unfold blockNext setNext
  rw [Mem.store_same]

theorem header_frame {m : Mem} {q s n a : Nat} (hq : q + 4 < 2 ^ 32) (h0 : a ≠ q)
    (h4 : a ≠ q + 4) : setNext (setSize m q s) q n a = m a := by
  unfold setNext setSize
  rw [u32_of_lt hq, Mem.store_ne _ _ h4, Mem.store_ne _ _ h0]

/-- The header of a block is inside the block. -/
theorem Placed.header_outside {b : Block} (h : Placed b) {m : Mem} {s n a : Nat} (outside : a ∉ b) :
    setNext (setSize m b.addr s) b.addr n a = m a := by
  refine header_frame h.header_lt (fun eq => outside ?_) (fun eq => outside ?_)
  · rw [eq]
    exact h.addr_mem
  · rw [eq]
    exact h.next_mem

/-- The size of a block and the link of a later one. -/
theorem Placed.blockNext_setSize {b c : Block} (hb : Placed b) (hc : Placed c)
    (behind : b.stop ≤ c.addr) {m : Mem} {s : Nat} :
    blockNext (setSize m b.addr s) c.addr = blockNext m c.addr := by
  have size := hb.size_pos
  unfold blockNext setSize
  refine Mem.store_ne _ _ ?_
  rw [hc.next_addr]
  unfold Block.stop at behind
  omega

/-- `a` is the `next` word of the last of `pre`. -/
def TailLink (pre : List Block) (a : Nat) : Prop := ∃ b ∈ pre.getLast?, a = b.addr + 4

theorem TailLink.mem {pre : List Block} {a : Nat} (link : TailLink pre a)
    (placed : ∀ b ∈ pre, Placed b) : ∃ b ∈ pre, a ∈ b := by
  obtain ⟨b, last, rfl⟩ := link
  have hb := List.mem_of_getLast? last
  exact ⟨b, hb, (placed b hb).next_mem⟩

/-- Re-linking the prefix `pre` of the list to `q` leaves `pre` followed by what `q` starts, and
writes the `next` word of the last of `pre` only. -/
theorem FreeListAt.linkPrev {h : Heap} {pre post rest : List Block} {q : Nat} {m : Mem}
    (list : FreeListAt h.mem h.firstBlock (pre ++ post)) (wf : FreeBlocks (pre ++ post))
    (tail : FreeListAt m q rest) (restPlaced : ∀ b ∈ rest, Placed b)
    (restApart : ∀ b ∈ pre, ∀ d ∈ rest, b.Disjoint d)
    (same : ∀ b ∈ pre, ∀ a, a ∈ b → m a = h.mem a) (h' : Heap)
    (linked : Alloc.linkPrev { h with mem := m } (lastAddr 0 pre) q = h') :
    FreeListAt h'.mem h'.firstBlock (pre ++ rest) ∧
      ∀ a, ¬ TailLink pre a → h'.mem a = m a := by
  subst linked
  rcases List.eq_nil_or_concat pre with rfl | ⟨front, b, rfl⟩
  · exact ⟨tail, fun _ _ => rfl⟩
  · rw [List.concat_eq_append] at *
    have hb : Placed b := wf.placed b (by simp)
    have apart : ∀ d ∈ front, d.Disjoint b := by
      intro d hd
      have gap := (Coalesced.append_iff.mp wf.append_left.coalesced).2.2 d hd b (by simp)
      exact Or.inl (Nat.le_of_lt gap)
    have outside : ∀ a, a ≠ b.addr + 4 → setNext m b.addr q a = m a := by
      intro a ha
      unfold setNext
      rw [hb.next_addr, Mem.store_ne _ _ ha]
    have nonzero : b.addr ≠ 0 := Nat.pos_iff_ne_zero.mp hb.addr_pos
    rw [lastAddr_concat, Alloc.linkPrev, if_pos nonzero]
    rw [List.append_assoc, List.singleton_append] at list ⊢
    refine ⟨?_, fun a ha => outside a fun eq => ha ⟨b, by simp, eq⟩⟩
    have size : blockSize (setNext m b.addr q) b.addr = b.size := by
      have before := list.size_eq (b := b) (by simp)
      unfold blockSize at before ⊢
      rw [outside b.addr (by omega), same b (by simp) b.addr hb.addr_mem, before]
    have next : blockNext (setNext m b.addr q) b.addr = q := Mem.store_same _ _ _
    refine list.replaceTail (fun d hd => wf.placed d (by simp [hd])) (fun d hd a ha => ?_) size
      next (tail.frame restPlaced fun d hd a ha => ?_)
    · rw [outside a fun eq => (apart d hd).not_mem ha (eq ▸ hb.next_mem)]
      exact same d (by simp [hd]) a ha
    · exact outside a fun eq => (restApart b (by simp) d hd).not_mem (eq ▸ hb.next_mem) ha

end SoftHier.Alloc
