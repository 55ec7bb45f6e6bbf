import SoftHier.Daml.Bitmap

/-!
# What the published common ranges say about the heaps

Core `k` of cluster `c` is uploaded in the state `st c k` of its cluster.  A slot is published when
every cluster has a free block that marks it.  The end of a free block is rounded up and its start
is rounded down, so a marked slot need not be free: `rangesSound_iff` says exactly when every
published byte is free, and `rangesComplete_iff` when every free slot is published.

* `slotBit_commonBitmap`: the system-common bitmap in terms of the free lists.
* `mem_publish`: the published bytes.
-/

namespace SoftHier.Daml

open Alloc

/-! ## The statements -/

section

variable (P : Platform) (st : Nat → Nat → Cluster)

/-- The free list of core `k` of cluster `c` when it is uploaded. -/
def freeListAt (c k : Nat) : List Block := ((st c k).core k).heap.freeList

/-- Byte `a` of cluster `c` is in a free block of some core. -/
def FreeByte (c a : Nat) : Prop := ∃ k < P.coresPerCluster, ∃ b ∈ freeListAt st c k, a ∈ b

/-- Byte `a` of cluster `c` is in a live block of some core. -/
def LiveByte (c a : Nat) : Prop :=
  ∃ k < P.coresPerCluster, ∃ ptr ∈ (st c k).live k, a ∈ liveBlock (st c k).mem ptr

/-- Every cluster's cores are uploaded in states the cluster can come to. -/
def Reachable : Prop :=
  ∀ c < P.numClusters, ∀ k < P.coresPerCluster, ∃ m, Cluster.Run P m (st c k)

/-- Every byte of every published range is free in every cluster, and in no live block. -/
def RangesSound : Prop :=
  ∀ r ∈ publish P st, ∀ a ∈ r, ∀ c < P.numClusters, FreeByte P st c a ∧ ¬ LiveByte P st c a

/-- All bytes of slot `t` are free in every cluster. -/
def FreeSlot (t : Nat) : Prop := ∀ c < P.numClusters, ∀ a ∈ P.slot t, FreeByte P st c a

/-- Exactly one of `ranges` contains all bytes of `b`. -/
def InsideOne (ranges : List Block) (b : Block) : Prop :=
  ∃! i : Fin ranges.length, ∀ a ∈ b, a ∈ ranges[i]

/-- Every free slot of the window lies inside exactly one published range. -/
def RangesComplete : Prop :=
  ∀ t < P.l1SlotCount, FreeSlot P st t → InsideOne (publish P st) (P.slot t)

/-- In every cluster one of the uploaded free blocks marks slot `t`. -/
def commonSlot (t : Nat) : Bool :=
  decide (P.l1SlotCount + 31 < 2 ^ 32) &&
    (List.range P.numClusters).all fun c => (List.range P.coresPerCluster).any fun k =>
      ((freeListAt st c k).take maxFreeBlocksPerCore).any fun b => marks P b t

/-- Slot `t` is marked in every cluster, within the first runs of such slots. -/
def PublishedSlot (t : Nat) : Prop :=
  t < P.l1SlotCount ∧ commonSlot P st t = true ∧
    startCount (commonSlot P st) 0 (t + 1) ≤ maxCommonBlocks

theorem commonSlot_iff {t : Nat} :
    commonSlot P st t = true ↔ P.l1SlotCount + 31 < 2 ^ 32 ∧
      ∀ c < P.numClusters, ∃ k < P.coresPerCluster,
        ∃ b ∈ (freeListAt st c k).take maxFreeBlocksPerCore, marks P b t = true := by
  simp only [commonSlot, Bool.and_eq_true, decide_eq_true_eq, List.all_eq_true, List.any_eq_true,
    List.mem_range]

end

/-! ## Free lists -/

section

variable {W : Window}

/-- The upload copies the first blocks of a list whose blocks lie in the window. -/
theorem uploadFrom_eq {m : Mem} {bs : List Block} {p : Nat} (list : FreeListAt m p bs)
    (placed : ∀ b ∈ bs, Placed b) (inside : ∀ b ∈ bs, W.heapBase ≤ b.addr ∧ b.stop ≤ W.heapEnd)
    (n : Nat) : uploadFrom W.toPlatform m n p = bs.take n := by
  induction n generalizing p bs with
  | zero => rfl
  | succ n ih =>
      rw [uploadFrom]
      cases bs with
      | nil =>
          rw [if_pos (show p = 0 from list)]
          rfl
      | cons b bs =>
          obtain ⟨rfl, nonzero, size, rest⟩ := list
          have hb := placed b List.mem_cons_self
          obtain ⟨above, below⟩ := inside b List.mem_cons_self
          have fits : b.addr + 8 ≤ W.heapEnd := by
            have := hb.eight_le_size
            unfold Block.stop at below
            omega
          have top := W.end_lt
          have aligned : b.addr &&& 7 = 0 := by
            rw [show (7 : Nat) = 2 ^ 3 - 1 by rfl, Nat.and_two_pow_sub_one_eq_mod]
            exact hb.addr_aligned
          have accepted : ¬ (b.addr < W.heapBase ∨ u32 (b.addr + allocBlockSize) > W.heapEnd ∨
              b.addr &&& (allocBlockSize - 1) ≠ 0) := by
            rw [show allocBlockSize - 1 = 7 by rfl, aligned]
            unfold allocBlockSize
            rw [u32_of_lt (by omega)]
            omega
          rw [if_neg nonzero, if_neg accepted, size,
            ih rest (fun c hc => placed c (List.mem_cons_of_mem _ hc))
              (fun c hc => inside c (List.mem_cons_of_mem _ hc))]
          rfl

variable {st : Nat → Nat → Cluster} {c k : Nat}

/-- The heap of a core keeps its invariant until it is uploaded. -/
theorem Reachable.inv (h : Reachable W.toPlatform st) (hc : c < W.numClusters)
    (hk : k < W.coresPerCluster) :
    HeapInv (W.arena k hk) ((st c k).core k) (freeListAt st c k) := by
  obtain ⟨m, run⟩ := h c hc k hk
  obtain ⟨free, inv⟩ := cluster_run_inv run k hk
  have same : freeListAt st c k = free := inv.list.freeList_eq inv.blocks
  rw [same]
  exact inv

theorem Reachable.free_bounds (h : Reachable W.toPlatform st) (hc : c < W.numClusters)
    (hk : k < W.coresPerCluster) {b : Block} (hb : b ∈ freeListAt st c k) :
    W.arenaBase k ≤ b.addr ∧ b.stop ≤ W.arenaStop k := by
  have bounds := (h.inv hc hk).free_bounds hb
  rw [W.arena_stop hk] at bounds
  exact bounds

theorem Reachable.free_inside (h : Reachable W.toPlatform st) (hc : c < W.numClusters)
    (hk : k < W.coresPerCluster) {b : Block} (hb : b ∈ freeListAt st c k) :
    W.heapBase ≤ b.addr ∧ b.stop ≤ W.heapEnd := by
  obtain ⟨above, below⟩ := h.free_bounds hc hk hb
  exact ⟨Nat.le_trans (Nat.le_add_right _ _) above, Nat.le_trans below (W.arenaStop_le hk)⟩

theorem Reachable.uploadFreeList_eq (h : Reachable W.toPlatform st) (hc : c < W.numClusters)
    (hk : k < W.coresPerCluster) :
    uploadFreeList W.toPlatform ((st c k).core k).heap =
      (freeListAt st c k).take maxFreeBlocksPerCore := by
  have inv := h.inv hc hk
  exact uploadFrom_eq inv.list inv.blocks.placed (fun b hb => h.free_inside hc hk hb) _

/-- A free byte is in no live block of any core. -/
theorem FreeByte.not_live (h : Reachable W.toPlatform st) (hc : c < W.numClusters) {a : Nat}
    (free : FreeByte W.toPlatform st c a) : ¬ LiveByte W.toPlatform st c a := by
  obtain ⟨k, hk, b, hb, inFree⟩ := free
  rintro ⟨j, hj, ptr, held, inLive⟩
  have inv := h.inv hc hj
  have liveBounds := inv.live_bounds held
  rw [W.arena_stop hj] at liveBounds
  have freeBounds := h.free_bounds hc hk hb
  by_cases same : j = k
  · subst same
    exact (inv.free_live hb held).not_mem inFree inLive
  · change W.arenaBase j ≤ (liveBlock (st c j).mem ptr).addr ∧
      (liveBlock (st c j).mem ptr).stop ≤ W.arenaStop j at liveBounds
    rw [Block.mem_def] at inFree inLive
    rcases W.arena_disjoint hj hk same with apart | apart <;> omega

/-! ## Published bytes -/

theorem Reachable.slotBit_coreBitmap (h : Reachable W.toPlatform st) (hc : c < W.numClusters)
    (hk : k < W.coresPerCluster) (t : Nat) :
    slotBit (coreBitmap W.toPlatform ((st c k).core k).heap) t = true ↔
      ∃ b ∈ (freeListAt st c k).take maxFreeBlocksPerCore, marks W.toPlatform b t = true := by
  unfold coreBitmap
  rw [slotBit_buildCoreBitmap, h.uploadFreeList_eq hc hk]
  refine exists_congr fun b => and_congr_right fun hb => ?_
  have hb' := List.mem_of_mem_take hb
  obtain ⟨above, below⟩ := h.free_inside hc hk hb'
  exact W.mem_blockSlots ((h.inv hc hk).blocks.placed b hb').size_pos above below t

/-- The system-common bitmap has the slots that every cluster marks. -/
theorem slotBit_commonBitmap (h : Reachable W.toPlatform st) :
    slotBit (commonBitmap W.toPlatform st) = commonSlot W.toPlatform st := by
  funext t
  rw [Bool.eq_iff_iff]
  unfold commonBitmap
  rw [slotBit_buildSystemCommonBitmap W.clusters_pos, commonSlot_iff]
  simp only [slotBit_buildClusterFreeBitmap]
  constructor
  · rintro ⟨word, all⟩
    have marked : ∀ c < W.numClusters, ∃ k < W.coresPerCluster,
        ∃ b ∈ (freeListAt st c k).take maxFreeBlocksPerCore, marks W.toPlatform b t = true := by
      intro c hc
      obtain ⟨-, k, hk, bit⟩ := all c hc
      exact ⟨k, hk, (h.slotBit_coreBitmap hc hk t).mp bit⟩
    obtain ⟨k, hk, b, hb, mark⟩ := marked 0 W.clusters_pos
    exact ⟨(lt_l1BitmapWords W.l1SlotCount_lt (marks_iff.mp mark).1).mp word, marked⟩
  · rintro ⟨fits, all⟩
    obtain ⟨k, hk, b, hb, mark⟩ := all 0 W.clusters_pos
    have word := (lt_l1BitmapWords W.l1SlotCount_lt (marks_iff.mp mark).1).mpr fits
    refine ⟨word, fun c hc => ⟨word, ?_⟩⟩
    obtain ⟨k, hk, marked⟩ := all c hc
    exact ⟨k, hk, (h.slotBit_coreBitmap hc hk t).mpr marked⟩

/-- The range published for a run of slots. -/
theorem mem_range {r : Nat × Nat} (nonempty : r.1 < r.2) (inside : r.2 ≤ W.l1SlotCount) {a : Nat} :
    a ∈ Block.mk (u32 (W.heapBase + u32 (r.1 * W.slotSize))) (u32 ((r.2 - r.1) * W.slotSize)) ↔
      ∃ t, r.1 ≤ t ∧ t < r.2 ∧ a ∈ W.slot t := by
  have total := W.l1SlotCount_mul_le
  have ordered := W.base_lt_end
  have top := W.end_lt
  have pos := W.slot_pos
  have split : r.2 * W.slotSize = r.1 * W.slotSize + (r.2 - r.1) * W.slotSize := by
    rw [← Nat.add_mul]
    congr 1
    omega
  have le : r.2 * W.slotSize ≤ W.l1SlotCount * W.slotSize := Nat.mul_le_mul_right _ inside
  rw [u32_of_lt (show r.1 * W.slotSize < 2 ^ 32 by omega), u32_of_lt (by omega),
    u32_of_lt (by omega), Block.mem_mk]
  constructor
  · rintro ⟨above, below⟩
    obtain ⟨q, hq⟩ : ∃ q, q = (a - W.heapBase) / W.slotSize := ⟨_, rfl⟩
    have low : q * W.slotSize ≤ a - W.heapBase := by
      rw [hq]
      exact Nat.div_mul_le_self _ _
    have high : a - W.heapBase < (q + 1) * W.slotSize := by
      rw [hq, ← Nat.div_lt_iff_lt_mul pos]
      exact Nat.lt_succ_self _
    have step : (q + 1) * W.slotSize = q * W.slotSize + W.slotSize := Nat.succ_mul _ _
    refine ⟨q, ?_, ?_, ?_⟩
    · rw [hq, Nat.le_div_iff_mul_le pos]
      omega
    · rw [hq, Nat.div_lt_iff_lt_mul pos]
      omega
    · show W.heapBase + q * W.slotSize ≤ a ∧ a < W.heapBase + q * W.slotSize + W.slotSize
      omega
  · rintro ⟨t, h1, h2, above, below⟩
    have le1 : r.1 * W.slotSize ≤ t * W.slotSize := Nat.mul_le_mul_right _ h1
    have le2 : (t + 1) * W.slotSize ≤ r.2 * W.slotSize := Nat.mul_le_mul_right _ h2
    have step : (t + 1) * W.slotSize = t * W.slotSize + W.slotSize := Nat.succ_mul _ _
    change W.heapBase + t * W.slotSize ≤ a at above
    change a < W.heapBase + t * W.slotSize + W.slotSize at below
    omega

/-- The published bytes are those of the published slots. -/
theorem mem_publish (h : Reachable W.toPlatform st) (a : Nat) :
    (∃ r ∈ publish W.toPlatform st, a ∈ r) ↔
      ∃ t, PublishedSlot W.toPlatform st t ∧ a ∈ W.slot t := by
  have fresh : Fresh (commonSlot W.toPlatform st) W.l1SlotCount 0 := Or.inl rfl
  unfold publish systemCommonBitmapToRanges
  rw [slotBit_commonBitmap h]
  simp only [List.mem_map, exists_exists_and_eq_and]
  constructor
  · rintro ⟨r, hr, ha⟩
    obtain ⟨-, nonempty, inside, -⟩ := mem_runsFrom fresh hr
    obtain ⟨t, h1, h2, ht⟩ := (mem_range nonempty inside).mp ha
    exact ⟨t, (covered_runsFrom fresh (Nat.zero_le t)).mp ⟨r, hr, h1, h2⟩, ht⟩
  · rintro ⟨t, published, ht⟩
    obtain ⟨r, hr, h1, h2⟩ := (covered_runsFrom fresh (Nat.zero_le t)).mpr published
    obtain ⟨-, nonempty, inside, -⟩ := mem_runsFrom fresh hr
    exact ⟨r, hr, (mem_range nonempty inside).mpr ⟨t, h1, h2, ht⟩⟩

end

/-! ## Soundness -/

/-- The published ranges are sound exactly when every published slot is free. -/
theorem rangesSound_iff (W : Window) (st : Nat → Nat → Cluster)
    (h : Reachable W.toPlatform st) :
    RangesSound W.toPlatform st ↔
      ∀ t, PublishedSlot W.toPlatform st t → FreeSlot W.toPlatform st t := by
  constructor
  · intro sound t published c hc a ha
    obtain ⟨r, hr, hra⟩ := (mem_publish h a).mpr ⟨t, published, ha⟩
    exact (sound r hr a hra c hc).1
  · intro free r hr a ha c hc
    obtain ⟨t, published, ht⟩ := (mem_publish h a).mp ⟨r, hr, ha⟩
    have byte := free t published c hc a ht
    exact ⟨byte, byte.not_live h hc⟩

/-- A window of two slots of sixteen bytes, one core and one cluster. -/
def twoSlots : Window where
  heapBase := 64
  heapEnd := 96
  slotSize := 16
  numClusters := 1
  coresPerCluster := 1
  base_pos := by decide
  base_aligned := by decide
  end_aligned := by decide
  end_lt := by decide
  slot_pos := by decide
  slot_lt := by decide
  clusters_pos := Nat.one_pos
  cores_pos := Nat.one_pos
  room := by decide

/-- L1 before the allocators are initialised. -/
def blankMem : Mem := fun _ => 0

theorem reachable_init (W : Window) (m : Mem) :
    Reachable W.toPlatform fun _ _ => initAllocators W.toPlatform m :=
  fun _ _ _ _ => ⟨m, .refl⟩

theorem rangesSound_iff_twoSlots :
    RangesSound twoSlots.toPlatform (fun _ _ => initAllocators twoSlots.toPlatform blankMem) ↔
      ∀ t, PublishedSlot twoSlots.toPlatform
          (fun _ _ => initAllocators twoSlots.toPlatform blankMem) t →
        FreeSlot twoSlots.toPlatform
          (fun _ _ => initAllocators twoSlots.toPlatform blankMem) t :=
  rangesSound_iff twoSlots _ (reachable_init twoSlots blankMem)

/-- One byte is allocated, a block of eight bytes at the start of the first slot; the free block
behind it is rounded down to that slot, and the live block is published as free. -/
theorem rangesSound_fails :
    ∃ s, Cluster.Run twoSlots.toPlatform blankMem s ∧ s.live 0 = [68] ∧
      liveBlock s.mem 68 = ⟨64, 8⟩ ∧ publish twoSlots.toPlatform (fun _ _ => s) = [⟨64, 32⟩] ∧
      ¬ RangesSound twoSlots.toPlatform fun _ _ => s := by
  obtain ⟨u, step, live, block, ranges⟩ : ∃ u,
      ((initAllocators twoSlots.toPlatform blankMem).core 0).step (.malloc 1) = some u ∧
      u.live = [68] ∧ liveBlock u.heap.mem 68 = ⟨64, 8⟩ ∧
      publish twoSlots.toPlatform
        (fun _ _ => (initAllocators twoSlots.toPlatform blankMem).withCore 0 u) = [⟨64, 32⟩] :=
    ⟨_, rfl, rfl, by decide +kernel, by decide +kernel⟩
  have valid : (Op.malloc 1).Valid ((initAllocators twoSlots.toPlatform blankMem).core 0) :=
    show (1 + 4 + 7) / 8 * 8 < 2 ^ 32 by decide
  refine ⟨_, .single ⟨0, by decide, .malloc 1, valid, u, step, rfl⟩, live, block, ranges, ?_⟩
  intro sound
  refine (sound ⟨64, 32⟩ ?_ 64 ⟨Nat.le_refl _, by decide⟩ 0 (by decide)).2 ?_
  · rw [ranges]
    exact List.mem_singleton.mpr rfl
  · refine ⟨0, by decide, 68, ?_, ?_⟩
    · show 68 ∈ u.live
      rw [live]
      exact List.mem_singleton.mpr rfl
    · show 64 ∈ liveBlock u.heap.mem 68
      rw [block]
      exact ⟨Nat.le_refl _, by decide⟩

/-! ## Completeness -/

section

variable {W : Window} {st : Nat → Nat → Cluster}

/-- The first byte of a slot is in no other slot. -/
theorem eq_of_mem_slot {t t' : Nat} (h : W.heapBase + t * W.slotSize ∈ W.slot t') : t' = t := by
  obtain ⟨above, below⟩ := h
  have pos := W.slot_pos
  change W.heapBase + t' * W.slotSize ≤ W.heapBase + t * W.slotSize at above
  change W.heapBase + t * W.slotSize < W.heapBase + t' * W.slotSize + W.slotSize at below
  have step : (t' + 1) * W.slotSize = t' * W.slotSize + W.slotSize := Nat.succ_mul _ _
  have le : t' ≤ t :=
    Nat.le_of_mul_le_mul_right (show t' * W.slotSize ≤ t * W.slotSize by omega) pos
  have lt : t < t' + 1 :=
    Nat.lt_of_mul_lt_mul_right (show t * W.slotSize < (t' + 1) * W.slotSize by omega)
  omega

theorem first_mem_slot (t : Nat) : W.heapBase + t * W.slotSize ∈ W.slot t :=
  ⟨Nat.le_refl _, Nat.lt_add_of_pos_right W.slot_pos⟩

/-- A published slot lies inside exactly one published range. -/
theorem PublishedSlot.insideOne (h : Reachable W.toPlatform st) {t : Nat}
    (published : PublishedSlot W.toPlatform st t) :
    InsideOne (publish W.toPlatform st) (W.slot t) := by
  have fresh : Fresh (commonSlot W.toPlatform st) W.l1SlotCount 0 := Or.inl rfl
  obtain ⟨runs, hruns⟩ : ∃ runs, runs =
    runsFrom (commonSlot W.toPlatform st) W.l1SlotCount maxCommonBlocks 0 := ⟨_, rfl⟩
  have shape : publish W.toPlatform st = runs.map fun r =>
      ⟨u32 (W.heapBase + u32 (r.1 * W.slotSize)), u32 ((r.2 - r.1) * W.slotSize)⟩ := by
    unfold publish systemCommonBitmapToRanges
    rw [slotBit_commonBitmap h, hruns]
  have ordered := runsFrom_pairwise maxCommonBlocks fresh
  have bounds : ∀ r ∈ runs, r.1 < r.2 ∧ r.2 ≤ W.l1SlotCount := by
    intro r hr
    rw [hruns] at hr
    obtain ⟨-, nonempty, inside, -⟩ := mem_runsFrom fresh hr
    exact ⟨nonempty, inside⟩
  rw [← hruns] at ordered
  obtain ⟨r, hr, h1, h2⟩ := (covered_runsFrom fresh (Nat.zero_le t)).mpr published
  rw [← hruns] at hr
  rw [shape]
  -- a range holds the first byte of slot `t` exactly when its run holds `t`
  have holds : ∀ (i : Nat) (hi : i < runs.length),
      (∀ a ∈ W.slot t, a ∈ Block.mk (u32 (W.heapBase + u32 (runs[i].1 * W.slotSize)))
        (u32 ((runs[i].2 - runs[i].1) * W.slotSize))) ↔ runs[i].1 ≤ t ∧ t < runs[i].2 := by
    intro i hi
    obtain ⟨nonempty, inside⟩ := bounds _ (List.getElem_mem hi)
    constructor
    · intro all
      obtain ⟨t', low, high, ht'⟩ := (mem_range nonempty inside).mp (all _ (first_mem_slot t))
      rw [eq_of_mem_slot ht'] at low high
      exact ⟨low, high⟩
    · rintro ⟨low, high⟩ a ha
      exact (mem_range nonempty inside).mpr ⟨t, low, high, ha⟩
  obtain ⟨i, hi, rfl⟩ := List.getElem_of_mem hr
  refine ⟨⟨i, by rwa [List.length_map]⟩, ?_, ?_⟩
  · simpa using (holds i hi).mpr ⟨h1, h2⟩
  · rintro ⟨j, hj⟩ inside
    have hj' : j < runs.length := by simpa using hj
    have other := (holds j hj').mp (by simpa using inside)
    rw [Fin.mk.injEq]
    rcases Nat.lt_trichotomy j i with lt | eq | gt
    · have := List.pairwise_iff_getElem.mp ordered j i hj' hi lt
      omega
    · exact eq
    · have := List.pairwise_iff_getElem.mp ordered i j hi hj' gt
      omega

/-- The runs that begin up to a slot are among those of the window. -/
theorem startCount_le {p : Nat → Bool} {n m : Nat} (h : n ≤ m) :
    startCount p 0 n ≤ startCount p 0 m := by
  have parts : m = n + (m - n) := by omega
  rw [parts, startCount_add]
  exact Nat.le_add_right _ _

/-- With no list and no run cut off, the published ranges are complete exactly when the rounding
wraps neither for the word count nor, in each cluster, for every block that reaches into a free
slot. -/
theorem rangesComplete_iff (W : Window) (st : Nat → Nat → Cluster) (h : Reachable W.toPlatform st)
    (lists : ∀ c < W.numClusters, ∀ k < W.coresPerCluster,
      (freeListAt st c k).length ≤ maxFreeBlocksPerCore)
    (runs : startCount (slotBit (commonBitmap W.toPlatform st)) 0 W.l1SlotCount ≤
      maxCommonBlocks) :
    RangesComplete W.toPlatform st ↔
      ∀ t < W.l1SlotCount, FreeSlot W.toPlatform st t →
        W.l1SlotCount + 31 < 2 ^ 32 ∧ ∀ c < W.numClusters, ∃ k < W.coresPerCluster,
          ∃ b ∈ freeListAt st c k, ¬ b.Disjoint (W.slot t) ∧ W.RoundsUp b := by
  rw [slotBit_commonBitmap h] at runs
  constructor
  · intro complete t ht free
    obtain ⟨i, inside, -⟩ := complete t ht free
    obtain ⟨t', published, ht'⟩ :=
      (mem_publish h _).mp ⟨_, List.getElem_mem i.isLt, inside _ (first_mem_slot t)⟩
    rw [eq_of_mem_slot ht'] at published
    obtain ⟨fits, all⟩ := commonSlot_iff _ _ |>.mp published.2.1
    refine ⟨fits, fun c hc => ?_⟩
    obtain ⟨k, hk, b, hb, mark⟩ := all c hc
    exact ⟨k, hk, b, List.mem_of_mem_take hb, (marks_iff.mp mark).2⟩
  · intro rounds t ht free
    obtain ⟨fits, all⟩ := rounds t ht free
    have common : commonSlot W.toPlatform st t = true := by
      refine (commonSlot_iff _ _).mpr ⟨fits, fun c hc => ?_⟩
      obtain ⟨k, hk, b, hb, shared, roundsUp⟩ := all c hc
      refine ⟨k, hk, b, ?_, marks_iff.mpr ⟨ht, shared, roundsUp⟩⟩
      rw [List.take_of_length_le (lists c hc k hk)]
      exact hb
    exact PublishedSlot.insideOne h ⟨ht, common, Nat.le_trans (startCount_le ht) runs⟩

end

/-- A window of almost 4 GiB with a slot of 2 GiB. -/
def hugeSlot : Window where
  heapBase := 8
  heapEnd := 2 ^ 32 - 8
  slotSize := 2 ^ 31
  numClusters := 1
  coresPerCluster := 1
  base_pos := by decide
  base_aligned := by decide
  end_aligned := by decide
  end_lt := by decide
  slot_pos := by decide
  slot_lt := by decide
  clusters_pos := Nat.one_pos
  cores_pos := Nat.one_pos
  room := by decide

theorem rangesComplete_iff_twoSlots :
    RangesComplete twoSlots.toPlatform (fun _ _ => initAllocators twoSlots.toPlatform blankMem) ↔
      ∀ t < twoSlots.l1SlotCount, FreeSlot twoSlots.toPlatform
          (fun _ _ => initAllocators twoSlots.toPlatform blankMem) t →
        twoSlots.l1SlotCount + 31 < 2 ^ 32 ∧
          ∀ c < twoSlots.numClusters, ∃ k < twoSlots.coresPerCluster,
            ∃ b ∈ freeListAt (fun _ _ => initAllocators twoSlots.toPlatform blankMem) c k,
              ¬ b.Disjoint (twoSlots.slot t) ∧ twoSlots.RoundsUp b :=
  rangesComplete_iff twoSlots _ (reachable_init twoSlots blankMem)
    (by decide +kernel) (by decide +kernel)

/-- With nothing allocated the whole window is one free block, whose end cannot be rounded up: the
free slot is not published. -/
theorem rangesComplete_fails :
    Reachable hugeSlot.toPlatform (fun _ _ => initAllocators hugeSlot.toPlatform blankMem) ∧
      freeListAt (fun _ _ => initAllocators hugeSlot.toPlatform blankMem) 0 0 =
        [⟨8, 2 ^ 32 - 16⟩] ∧
      publish hugeSlot.toPlatform (fun _ _ => initAllocators hugeSlot.toPlatform blankMem) = [] ∧
      ¬ RangesComplete hugeSlot.toPlatform
        fun _ _ => initAllocators hugeSlot.toPlatform blankMem := by
  have list : freeListAt (fun _ _ => initAllocators hugeSlot.toPlatform blankMem) 0 0 =
      [⟨8, 2 ^ 32 - 16⟩] := by decide +kernel
  have ranges : publish hugeSlot.toPlatform
      (fun _ _ => initAllocators hugeSlot.toPlatform blankMem) = [] := by decide +kernel
  refine ⟨reachable_init _ _, list, ranges, fun complete => ?_⟩
  have free : FreeSlot hugeSlot.toPlatform
      (fun _ _ => initAllocators hugeSlot.toPlatform blankMem) 0 := by
    intro c hc a ha
    obtain rfl : c = 0 := Nat.lt_one_iff.mp hc
    refine ⟨0, by decide, ⟨8, 2 ^ 32 - 16⟩, by rw [list]; exact List.mem_singleton.mpr rfl, ?_⟩
    obtain ⟨above, below⟩ := ha
    change 8 + 0 * 2 ^ 31 ≤ a at above
    change a < 8 + 0 * 2 ^ 31 + 2 ^ 31 at below
    show 8 ≤ a ∧ a < 8 + (2 ^ 32 - 16)
    omega
  have one := complete 0 (by decide) free
  rw [ranges] at one
  obtain ⟨i, -⟩ := one
  exact i.elim0

end SoftHier.Daml
