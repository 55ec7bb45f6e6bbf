import SoftHier.Alloc.FreeList

/-!
# De-allocation

`free_memory` refines `insertBlock`: on a heap whose list spells out `bs` it leaves the list
`insertBlock x bs` for the block `x` given back, whichever neighbours `x` touches, and writes only
inside `x` and free blocks.
-/

namespace SoftHier.Alloc

/-- The list search of `free_memory` splits the list around the block given back. -/
theorem exists_split_at (bs : List Block) (p : Nat) :
    ∃ pre post, bs = pre ++ post ∧ (∀ b ∈ pre, b.addr < p) ∧ ∀ c ∈ post.head?, p ≤ c.addr := by
  induction bs with
  | nil => exact ⟨[], [], rfl, fun _ hb => (nomatch hb), fun _ hc => (nomatch hc)⟩
  | cons b bs ih =>
      by_cases before : b.addr < p
      · obtain ⟨pre, post, rfl, hpre, hpost⟩ := ih
        refine ⟨b :: pre, post, rfl, fun c hc => ?_, hpost⟩
        rcases List.mem_cons.mp hc with rfl | hc
        · exact before
        · exact hpre c hc
      · refine ⟨[], b :: bs, rfl, fun _ hb => (nomatch hb), fun c hc => ?_⟩
        cases hc
        exact Nat.not_lt.mp before

section

variable {h : Heap} {x : Block}

/-- Writing the header of the block given back merges it with a touching successor. -/
theorem connectNext_list {m : Mem} {post : List Block} (list : FreeListAt m (headAddr post) post)
    (wf : FreeBlocks post) (hx : Placed x) (behind : ∀ c ∈ post, x.stop ≤ c.addr) {m' : Mem}
    (connected : connectNext m x.addr x.size (headAddr post) = m') :
    FreeListAt m' x.addr (joinNext x post) ∧ ∀ a, a ∉ x → m' a = m a := by
  have nonzero := Nat.pos_iff_ne_zero.mp hx.addr_pos
  have stop : u32 (x.addr + x.size) = x.stop := u32_of_lt hx.stop_lt
  -- both branches write one header into the block given back
  have write : ∀ {s q : Nat}, m' = setNext (setSize m x.addr s) x.addr q →
      ∀ a, a ∉ x → m' a = m a := by
    intro s q written a ha
    rw [written]
    exact hx.header_outside ha
  have link : ∀ {s q : Nat} {rest : List Block}, m' = setNext (setSize m x.addr s) x.addr q →
      FreeListAt m q rest → (∀ c ∈ rest, c ∈ post) →
        FreeListAt m' x.addr (⟨x.addr, s⟩ :: rest) := by
    intro s q rest written tail sub
    refine ⟨rfl, nonzero, ?_, ?_⟩
    · rw [written]
      exact blockSize_header hx.header_lt
    · have next : blockNext m' x.addr = q := by
        rw [written]
        exact blockNext_header
      rw [next]
      refine tail.frame (fun c hc => wf.placed c (sub c hc)) fun c hc a ha => write written a ?_
      exact fun hax => Block.Disjoint.not_mem (Or.inl (behind c (sub c hc))) hax ha
  cases post with
  | nil =>
      have gap : u32 (x.addr + x.size) ≠ headAddr [] := by
        rw [stop]
        have := hx.addr_pos
        simp only [headAddr, Block.stop]
        omega
      rw [connectNext, if_neg gap] at connected
      exact ⟨link connected.symm rfl fun _ hc => hc, write connected.symm⟩
  | cons c rest =>
      by_cases touch : x.stop = c.addr
      · have size : blockSize m c.addr = c.size := list.2.2.1
        rw [connectNext, stop, headAddr, if_pos touch, size, Placed.u32_size_add wf.head touch]
          at connected
        dsimp only at connected
        rw [hx.blockNext_setSize wf.head touch.le] at connected
        rw [joinNext_of_touch touch]
        exact ⟨link connected.symm list.2.2.2 fun d hd => List.mem_cons_of_mem _ hd,
          write connected.symm⟩
      · rw [connectNext, stop, headAddr, if_neg touch] at connected
        rw [joinNext_of_gap touch]
        exact ⟨link connected.symm list fun _ hd => hd, write connected.symm⟩

/-- Linking the block given back from its predecessor `b` merges the two when they touch. -/
theorem connectPrev_list {front post rest : List Block} {b y : Block} {m : Mem}
    (list : FreeListAt h.mem h.firstBlock (front ++ b :: post))
    (wf : FreeBlocks (front ++ b :: post)) (tail : FreeListAt m y.addr (y :: rest))
    (placed : ∀ c ∈ y :: rest, Placed c) (behind : ∀ c ∈ y :: rest, b.stop ≤ c.addr)
    (same : ∀ c ∈ front ++ [b], ∀ a, a ∈ c → m a = h.mem a) {h' : Heap}
    (connected : connectPrev { h with mem := m } b.addr y.addr = h') :
    FreeListAt h'.mem h'.firstBlock (front ++ joinNext b (y :: rest)) ∧
      ∀ a, (∀ c ∈ front ++ [b], a ∉ c) → h'.mem a = m a := by
  have hb : Placed b := wf.placed b (by simp)
  have hy : Placed y := placed y List.mem_cons_self
  have nonzero : b.addr ≠ 0 := Nat.pos_iff_ne_zero.mp hb.addr_pos
  have inFront : ∀ d ∈ front, d.Disjoint b := fun d hd =>
    Or.inl (Nat.le_of_lt ((Coalesced.append_iff.mp wf.coalesced).2.2 d hd b List.mem_cons_self))
  have frontBehind : ∀ d ∈ front, ∀ c ∈ y :: rest, d.Disjoint c := by
    intro d hd c hc
    have first := (Coalesced.append_iff.mp wf.coalesced).2.2 d hd b List.mem_cons_self
    have second := behind c hc
    unfold Block.stop at second
    exact Or.inl (by omega)
  have bsize : blockSize m b.addr = b.size := by
    have size := list.size_eq (b := b) (by simp)
    unfold blockSize at size ⊢
    rw [same b (by simp) b.addr hb.addr_mem, size]
  have stop : u32 (b.addr + b.size) = b.stop := u32_of_lt hb.stop_lt
  by_cases touch : b.stop = y.addr
  · have ysize : blockSize m y.addr = y.size := tail.2.2.1
    rw [connectPrev, if_pos ⟨nonzero, by rw [bsize, stop]; exact touch⟩] at connected
    dsimp only at connected
    rw [bsize, ysize, Placed.u32_size_add hy touch, hb.blockNext_setSize hy touch.le] at connected
    subst connected
    have outside : ∀ a, a ∉ b → setNext (setSize m b.addr (b.size + y.size)) b.addr
        (blockNext m y.addr) a = m a := fun a ha => hb.header_outside ha
    rw [joinNext_of_touch touch]
    refine ⟨?_, fun a ha => outside a (ha b (by simp))⟩
    refine list.replaceTail (fun d hd => wf.placed d (by simp [hd])) (fun d hd a ha => ?_)
      (blockSize_header hb.header_lt) blockNext_header
      (tail.2.2.2.frame (fun c hc => placed c (List.mem_cons_of_mem _ hc)) fun c hc a ha => ?_)
    · rw [outside a ((inFront d hd).not_mem ha)]
      exact same d (by simp [hd]) a ha
    · refine outside a fun hab => ?_
      exact Block.Disjoint.not_mem (Or.inl (behind c (List.mem_cons_of_mem _ hc))) hab ha
  · have noMerge : ¬ (b.addr ≠ 0 ∧ u32 (b.addr + blockSize m b.addr) = y.addr) := by
      rw [bsize, stop]
      exact fun both => touch both.2
    rw [connectPrev, if_neg noMerge, ← lastAddr_concat 0 front b] at connected
    rw [joinNext_of_gap touch]
    have shape : front ++ b :: post = (front ++ [b]) ++ post := by simp
    rw [shape] at list wf
    have linked := list.linkPrev wf tail placed (fun c hc d hd => by
      rcases List.mem_append.mp hc with hc | hc
      · exact frontBehind c hc d hd
      · rw [List.mem_singleton.mp hc]
        exact Or.inl (behind d hd)) same h' connected
    rw [List.append_assoc] at linked
    refine ⟨linked.1, fun a ha => linked.2 a fun link => ?_⟩
    obtain ⟨c, hc, inside⟩ := link.mem wf.append_left.placed
    exact ha c hc inside

/-- `free_memory` gives the block back to the coalesced list and writes only inside the block and
inside free blocks. -/
theorem freeMemory_eq {bs : List Block} (list : FreeListAt h.mem h.firstBlock bs)
    (wf : FreeBlocks bs) (hx : Placed x) (apart : ∀ b ∈ bs, x.Disjoint b) :
    ∃ h', freeMemory h x.addr x.size = some h' ∧
      FreeListAt h'.mem h'.firstBlock (insertBlock x bs) ∧
      ∀ a, a ∉ x → (∀ b ∈ bs, a ∉ b) → h'.mem a = h.mem a := by
  obtain ⟨pre, post, rfl, before, after⟩ := exists_split_at bs x.addr
  have search := list.walk_append (fun next => next < x.addr)
    (fun b hb => by simpa using before b hb) (fun c hc => by simpa using after c hc) 0
    walkFuel (by
      have := wf.length_lt_walkFuel
      simp only [List.length_append] at this
      omega)
  have behind : ∀ c ∈ post, x.stop ≤ c.addr := by
    intro c hc
    cases post with
    | nil => cases hc
    | cons d rest =>
        have first := after d rfl
        have order := wf.append_right.coalesced.addr_le_of_cons hc
        rcases apart c (List.mem_append_right _ hc) with gap | gap
        · exact gap
        · have := (wf.placed c (List.mem_append_right _ hc)).size_pos
          unfold Block.stop at gap
          omega
  have infront : ∀ b ∈ pre, b.stop ≤ x.addr := by
    intro b hb
    have order := before b hb
    rcases apart b (List.mem_append_left _ hb) with gap | gap
    · have := hx.size_pos
      unfold Block.stop at gap
      omega
    · exact gap
  obtain ⟨list', frame⟩ := connectNext_list list.drop wf.append_right hx behind rfl
  obtain ⟨m, hm⟩ : ∃ m, m = connectNext h.mem x.addr x.size (headAddr post) := ⟨_, rfl⟩
  rw [← hm] at list' frame
  have run : freeMemory h x.addr x.size =
      some (connectPrev { h with mem := m } (lastAddr 0 pre) x.addr) := by
    unfold freeMemory
    rw [search, hm]
    rfl
  rcases List.eq_nil_or_concat pre with rfl | ⟨front, b, rfl⟩
  · -- the block becomes the head of the list
    refine ⟨_, run, ?_, fun a ha _ => frame a ha⟩
    rw [List.nil_append, insertBlock_of_head after]
    exact list'
  · rw [List.concat_eq_append, List.append_assoc, List.singleton_append] at *
    have hb : b ∈ front ++ b :: post := by simp
    obtain ⟨y, rest, merged⟩ : ∃ y rest, joinNext x post = y :: rest := by
      cases post with
      | nil => exact ⟨x, [], rfl⟩
      | cons c rest =>
          by_cases touch : x.stop = c.addr
          · exact ⟨_, _, joinNext_of_touch touch⟩
          · exact ⟨_, _, joinNext_of_gap touch⟩
    rw [merged] at list'
    have start : x.addr = y.addr := list'.1
    have placed : ∀ c ∈ y :: rest, Placed c := by
      rw [← merged]
      exact placed_joinClosed.joinNext hx fun c hc => wf.append_right.tail.placed c hc
    have order : ∀ c ∈ y :: rest, b.stop ≤ c.addr := by
      rw [← merged]
      have gap := infront b (by simp)
      have size := hx.size_pos
      exact le_addr_of_mem_joinNext gap fun c hc => by
        have := behind c hc
        unfold Block.stop at this
        omega
    rw [lastAddr_concat] at run
    rw [start] at list'
    obtain ⟨linked, frame'⟩ := connectPrev_list list wf list' placed order
      (fun c hc a ha => frame a fun hax => Block.Disjoint.not_mem (Or.inl (infront c hc)) ha hax)
      rfl
    rw [← start] at linked frame'
    refine ⟨_, run, ?_, fun a hax hab => ?_⟩
    · rw [insertBlock_append wf.coalesced (before b (by simp)), insertBlock_of_head after, merged]
      exact linked
    · rw [frame' a fun c hc => hab c (by simp at hc ⊢; tauto), frame a hax]

end

end SoftHier.Alloc
