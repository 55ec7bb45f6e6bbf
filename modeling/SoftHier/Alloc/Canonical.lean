import SoftHier.Alloc.Heap

/-!
# The free list is determined by the live blocks

Free and live blocks tile the arena and the free list is ascending without touching neighbours, so
it is the only such list of the elements the live blocks leave (`HeapInv.free_eq`).  Two runs over
the same arena that hold the same live blocks therefore have the same free list, and giving back
every live block, in any order, leads to the one free block the arena started with.
-/

namespace SoftHier.Alloc

/-- The blocks that are held, with the sizes their headers say. -/
def Sys.liveBlocks (s : Sys) : List Block := s.live.map (liveBlock s.heap.mem)

variable {A : Arena} {m m' : Mem} {s t : Sys} {free free' : List Block}

/-- The free blocks are determined by the live ones. -/
theorem HeapInv.free_eq (hs : HeapInv A s free) (ht : HeapInv A t free')
    (same : ∀ b, b ∈ s.liveBlocks ↔ b ∈ t.liveBlocks) : free = free' := by
  apply hs.blocks.coalesced.eq_of_covers ht.blocks.coalesced
  · exact fun b hb => (hs.blocks.placed b hb).size_pos
  · exact fun b hb => (ht.blocks.placed b hb).size_pos
  · intro a
    have live : (∃ b ∈ s.liveBlocks, a ∈ b) ↔ ∃ b ∈ t.liveBlocks, a ∈ b := by
      simp only [same]
    rw [hs.tiles.covers_left, ht.tiles.covers_left]
    exact and_congr_right fun _ => not_congr live

theorem HeapInv.freeList_eq (inv : HeapInv A s free) : s.heap.freeList = free :=
  inv.list.freeList_eq inv.blocks

/-- With nothing held the whole arena is one free block. -/
theorem HeapInv.freeList_of_live_nil (inv : HeapInv A s free) (none : s.live = []) :
    s.heap.freeList = [⟨A.base, A.size⟩] := by
  have fresh := A.init_inv s.heap.mem
  have nothing : s.liveBlocks = [] := List.map_eq_nil_iff.mpr none
  have same : ∀ b, b ∈ s.liveBlocks ↔ b ∈ (A.init s.heap.mem).liveBlocks := by
    intro b
    rw [nothing]
    exact Iff.rfl
  rw [inv.freeList_eq]
  exact inv.free_eq fresh same

/-! ## Sequences of operations -/

instance (s : Sys) (op : Op) : Decidable (op.Valid s) :=
  match op with
  | .malloc size => inferInstanceAs (Decidable ((size + 4 + 7) / 8 * 8 < 2 ^ 32))
  | .free ptr => inferInstanceAs (Decidable (ptr ∈ s.live))
  | .store addr _ => inferInstanceAs (Decidable (addr % 4 = 0 ∧
      ∃ ptr ∈ s.live, ((liveBlock s.heap.mem ptr).addr ≤ addr ∧
        addr < (liveBlock s.heap.mem ptr).stop) ∧ ptr ≤ addr))

/-- The valid operations `ops`, one after the other; `none` when one of them is not valid or does
not return. -/
def Sys.perform (s : Sys) (ops : List Op) : Option Sys :=
  ops.foldlM (fun s op => if op.Valid s then s.step op else none) s

theorem Sys.perform_cons (op : Op) (valid : op.Valid s) (step : s.step op = some t)
    (ops : List Op) : s.perform (op :: ops) = t.perform ops := by
  unfold Sys.perform
  rw [List.foldlM_cons, if_pos valid, step]
  rfl

theorem Run.perform {ops : List Op} (run : Run A m s) (done : s.perform ops = some t) :
    Run A m t := by
  induction ops generalizing s with
  | nil =>
      cases done
      exact run
  | cons op ops ih =>
      by_cases valid : op.Valid s
      · cases step : s.step op with
        | none =>
            unfold Sys.perform at done
            rw [List.foldlM_cons, if_pos valid, step] at done
            cases done
        | some u =>
            rw [Sys.perform_cons op valid step] at done
            exact ih (run.tail ⟨op, valid, step⟩) done
      · unfold Sys.perform at done
        rw [List.foldlM_cons, if_neg valid] at done
        cases done

/-- Every order of giving back what is held runs to the end and leaves nothing held. -/
theorem Run.freeAll {order : List Nat} (run : Run A m s) (all : order.Perm s.live) :
    ∃ u, s.perform (order.map .free) = some u ∧ Run A m u ∧ u.live = [] := by
  induction order generalizing s with
  | nil => exact ⟨s, rfl, run, List.nil_perm.mp all⟩
  | cons ptr order ih =>
      have held : ptr ∈ s.live := all.mem_iff.mp List.mem_cons_self
      obtain ⟨free, inv⟩ := run_inv run
      obtain ⟨h, freed, -, -⟩ := domainFree_some inv held
      have step : s.step (.free ptr) = some ⟨h, s.live.erase ptr⟩ := by
        show (domainFree s.heap ptr).map _ = _
        rw [freed]
        rfl
      have rest : order.Perm (s.live.erase ptr) := by
        have erased := all.erase ptr
        rwa [List.erase_cons_head] at erased
      obtain ⟨u, done, run', empty⟩ := ih (run.tail ⟨.free ptr, held, step⟩) rest
      refine ⟨u, ?_, run', empty⟩
      rw [List.map_cons, Sys.perform_cons (.free ptr) held step]
      exact done

/-- The free list depends on the live blocks alone: two runs over the same arena that end with the
same live blocks end with the same free list, and giving back all of them in any order restores
the single block of the fresh arena. -/
theorem freeList_canonical (A : Arena) (m : Mem) (s : Sys) (run : Run A m s) :
    (∀ m' t, Run A m' t → (∀ b, b ∈ s.liveBlocks ↔ b ∈ t.liveBlocks) →
      s.heap.freeList = t.heap.freeList ∧ s.heap.firstBlock = t.heap.firstBlock) ∧
    ∀ order : List Nat, order.Perm s.live →
      ∃ u, s.perform (order.map .free) = some u ∧ u.live = [] ∧
        u.heap.freeList = [⟨A.base, A.size⟩] := by
  obtain ⟨free, inv⟩ := run_inv run
  constructor
  · intro m' t run' same
    obtain ⟨free', inv'⟩ := run_inv run'
    obtain rfl := inv.free_eq inv' same
    have head := inv.list.eq_headAddr.trans inv'.list.eq_headAddr.symm
    exact ⟨inv.freeList_eq.trans inv'.freeList_eq.symm, head⟩
  · intro order all
    obtain ⟨u, freed, run', empty⟩ := run.freeAll all
    obtain ⟨free', inv'⟩ := run_inv run'
    exact ⟨u, freed, empty, inv'.freeList_of_live_nil empty⟩

theorem freeList_canonical_smallArena :
    ∃ s t, (smallArena.init fun _ => 0).perform [.malloc 8, .malloc 8, .free 68] = some s ∧
      (smallArena.init fun _ => 1).perform
        [.malloc 8, .malloc 8, .malloc 8, .free 100, .free 68] = some t ∧
      s.liveBlocks = [⟨80, 16⟩] ∧ t.liveBlocks = [⟨80, 16⟩] ∧
      s.heap.freeList = t.heap.freeList ∧ s.heap.firstBlock = t.heap.firstBlock := by
  have live : (((smallArena.init fun _ => 0).perform [.malloc 8, .malloc 8, .free 68]).map
      Sys.liveBlocks) = some [⟨80, 16⟩] := by decide +kernel
  have live' : (((smallArena.init fun _ => 1).perform
      [.malloc 8, .malloc 8, .malloc 8, .free 100, .free 68]).map
      Sys.liveBlocks) = some [⟨80, 16⟩] := by decide +kernel
  obtain ⟨s, first, liveS⟩ := Option.map_eq_some_iff.mp live
  obtain ⟨t, second, liveT⟩ := Option.map_eq_some_iff.mp live'
  have run : Run smallArena (fun _ => 0) s := Run.perform .refl first
  have run' : Run smallArena (fun _ => 1) t := Run.perform .refl second
  have same := (freeList_canonical _ _ _ run).1 _ _ run' fun b => by rw [liveS, liveT]
  exact ⟨s, t, first, second, liveS, liveT, same⟩

end SoftHier.Alloc
