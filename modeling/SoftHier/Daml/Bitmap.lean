import SoftHier.Daml.Arena

/-!
# The slot bitmaps

What each stage of the pipeline puts into a bitmap, slot by slot.

* `slotBit_setSlots`: setting a stretch of slots.
* `slotBit_coreBitmap`, `slotBit_clusterFree`, `slotBit_systemCommon`: the three bitmaps.
* `Platform.slot`, `marks`: a slot as a block of bytes, and when a free block marks it.
* `mem_blockSlots`: the slots the code sets for a block inside the window.
-/

namespace SoftHier.Daml

open Alloc

/-! ## Single bits -/

theorem slotBit_eq (g : Bitmap) (s : Nat) : slotBit g s = (g (s / 32)).getLsbD (s % 32) := by
  have word : s >>> 5 = s / 32 := Nat.shiftRight_eq_div_pow s 5
  have bit : s &&& 31 = s % 32 := Nat.and_two_pow_sub_one_eq_mod s 5
  unfold slotBit
  rw [word, bit, BitVec.getLsbD_ushiftRight, Nat.add_zero]

theorem slotBit_setSlot (g : Bitmap) (s t : Nat) :
    slotBit (setSlot g s) t = (decide (t = s) || slotBit g t) := by
  have word : s >>> 5 = s / 32 := Nat.shiftRight_eq_div_pow s 5
  have bit : s &&& 31 = s % 32 := Nat.and_two_pow_sub_one_eq_mod s 5
  rw [slotBit_eq, slotBit_eq, setSlot, word, bit]
  by_cases same : t / 32 = s / 32
  · have one : (1#32 <<< (s % 32)).getLsbD (t % 32) = decide (t = s) := by
      rw [BitVec.getLsbD_shiftLeft, BitVec.getLsbD_one]
      by_cases eq : t = s
      · subst eq
        have := Nat.mod_lt t (show 0 < 32 by decide)
        simp [this]
      · have other : t % 32 ≠ s % 32 := by omega
        by_cases below : t % 32 < s % 32
        · simp [below, eq]
        · have pos : t % 32 - s % 32 ≠ 0 := by omega
          simp [pos, eq]
    rw [same, Function.update_self, BitVec.getLsbD_or, one, Bool.or_comm]
  · have other : t ≠ s := fun eq => same (by rw [eq])
    rw [Function.update_of_ne same]
    simp [other]

/-- Setting `n` slots from `s` on. -/
theorem slotBit_setSlots (g : Bitmap) (n s t : Nat) :
    slotBit (setSlots g n s) t = true ↔ slotBit g t = true ∨ (s ≤ t ∧ t < s + n) := by
  induction n generalizing g s with
  | zero => exact ⟨Or.inl, fun h => h.elim id fun h => absurd h.2 (Nat.not_lt.mpr h.1)⟩
  | succ n ih =>
      have stretch : s ≤ t ∧ t < s + (n + 1) ↔ t = s ∨ (s + 1 ≤ t ∧ t < s + 1 + n) := by omega
      rw [setSlots, ih, slotBit_setSlot, Bool.or_eq_true, decide_eq_true_eq, stretch,
        or_left_comm, or_assoc]

theorem slotBit_unwritten (t : Nat) : slotBit unwritten t = false := by
  rw [slotBit_eq]
  exact BitVec.getLsbD_zero

/-- Clearing an array that was never written. -/
theorem zeroU32_unwritten (n : Nat) : zeroU32 unwritten n = unwritten := by
  funext w
  unfold zeroU32 unwritten
  split <;> rfl

/-! ## The three bitmaps -/

variable {P : Platform}

/-- A core's bitmap has the slots of its uploaded blocks. -/
theorem slotBit_buildCoreBitmap (snapshot : List Block) (t : Nat) :
    slotBit (buildCoreBitmap P unwritten snapshot) t = true ↔
      ∃ b ∈ snapshot, (blockSlots P b).1 ≤ t ∧ t < (blockSlots P b).2 := by
  have fold : ∀ g : Bitmap, slotBit (snapshot.foldl
      (fun g b => setSlots g ((blockSlots P b).2 - (blockSlots P b).1) (blockSlots P b).1) g) t =
        true ↔
      slotBit g t = true ∨ ∃ b ∈ snapshot, (blockSlots P b).1 ≤ t ∧ t < (blockSlots P b).2 := by
    induction snapshot with
    | nil => simp
    | cons b rest ih =>
        intro g
        rw [List.foldl_cons, ih, slotBit_setSlots, or_assoc]
        simp only [List.mem_cons, exists_eq_or_imp]
        have stretch : ((blockSlots P b).1 ≤ t ∧
            t < (blockSlots P b).1 + ((blockSlots P b).2 - (blockSlots P b).1)) ↔
            ((blockSlots P b).1 ≤ t ∧ t < (blockSlots P b).2) := by omega
        rw [stretch]
  unfold buildCoreBitmap
  rw [zeroU32_unwritten]
  refine (fold unwritten).trans ?_
  rw [slotBit_unwritten]
  simp

theorem getLsbD_foldl_or (f : Nat → BitVec 32) (ks : List Nat) (acc : BitVec 32) (i : Nat) :
    (ks.foldl (fun acc k => acc ||| f k) acc).getLsbD i = true ↔
      acc.getLsbD i = true ∨ ∃ k ∈ ks, (f k).getLsbD i = true := by
  induction ks generalizing acc with
  | nil => simp
  | cons k ks ih =>
      rw [List.foldl_cons, ih, BitVec.getLsbD_or, Bool.or_eq_true, or_assoc]
      simp only [List.mem_cons, exists_eq_or_imp]

theorem getLsbD_foldl_and (f : Nat → BitVec 32) (cs : List Nat) (acc : BitVec 32) (i : Nat) :
    (cs.foldl (fun acc c => acc &&& f c) acc).getLsbD i = true ↔
      acc.getLsbD i = true ∧ ∀ c ∈ cs, (f c).getLsbD i = true := by
  induction cs generalizing acc with
  | nil => simp
  | cons c cs ih =>
      rw [List.foldl_cons, ih, BitVec.getLsbD_and, Bool.and_eq_true, and_assoc]
      simp only [List.mem_cons, forall_eq_or_imp]

/-- A cluster's bitmap has the slots of any of its cores, as far as it has words. -/
theorem slotBit_buildClusterFreeBitmap (core : Nat → Bitmap) (t : Nat) :
    slotBit (buildClusterFreeBitmap P unwritten core) t = true ↔
      t / 32 < P.l1BitmapWords ∧ ∃ k < P.coresPerCluster, slotBit (core k) t = true := by
  rw [slotBit_eq, buildClusterFreeBitmap]
  split
  · rename_i inside
    rw [getLsbD_foldl_or]
    simp [slotBit_eq, inside]
  · rename_i outside
    simp [outside, unwritten]

/-- The system-common bitmap has the slots all clusters have, as far as it has words. -/
theorem slotBit_buildSystemCommonBitmap (clusters : 0 < P.numClusters) (cluster : Nat → Bitmap)
    (t : Nat) :
    slotBit (buildSystemCommonBitmap P unwritten cluster) t = true ↔
      t / 32 < P.l1BitmapWords ∧ ∀ c < P.numClusters, slotBit (cluster c) t = true := by
  rw [slotBit_eq, buildSystemCommonBitmap]
  split
  · rename_i inside
    rw [getLsbD_foldl_and]
    constructor
    · rintro ⟨first, others⟩
      refine ⟨inside, fun c hc => ?_⟩
      rw [slotBit_eq]
      cases c with
      | zero => exact first
      | succ c => exact others (c + 1) (List.mem_range'_1.mpr (by omega))
    · rintro ⟨-, all⟩
      refine ⟨?_, fun c hc => ?_⟩
      · rw [← slotBit_eq]
        exact all 0 clusters
      · have := List.mem_range'_1.mp hc
        rw [← slotBit_eq]
        exact all c (by omega)
  · rename_i outside
    simp [outside, unwritten]

/-- The bitmaps have a word for every slot unless the word count wraps, and then they have none. -/
theorem lt_l1BitmapWords {t : Nat} (slots : P.l1SlotCount < 2 ^ 32) (ht : t < P.l1SlotCount) :
    t / 32 < P.l1BitmapWords ↔ P.l1SlotCount + 31 < 2 ^ 32 := by
  unfold Platform.l1BitmapWords
  by_cases fits : P.l1SlotCount + 31 < 2 ^ 32
  · rw [u32_of_lt fits]
    omega
  · have wrapped : u32 (P.l1SlotCount + 31) = P.l1SlotCount + 31 - 2 ^ 32 := by
      unfold u32
      omega
    rw [wrapped]
    omega

/-! ## Slots -/

/-- The bytes of slot `t`. -/
def Platform.slot (P : Platform) (t : Nat) : Block := ⟨P.heapBase + t * P.slotSize, P.slotSize⟩

/-- The end of `b` can be rounded up to a slot without wrapping. -/
def Platform.RoundsUp (P : Platform) (b : Block) : Prop :=
  b.stop - P.heapBase + (P.slotSize - 1) < 2 ^ 32

instance (P : Platform) (b : Block) : Decidable (P.RoundsUp b) :=
  inferInstanceAs (Decidable (_ < _))

instance (b c : Block) : Decidable (b.Disjoint c) := inferInstanceAs (Decidable (_ ∨ _))

/-- The free block `b` marks slot `t`: it shares a byte with it and its end can be rounded up. -/
def marks (P : Platform) (b : Block) (t : Nat) : Bool :=
  decide (t < P.l1SlotCount) && decide (¬ b.Disjoint (P.slot t)) && decide (P.RoundsUp b)

theorem marks_iff {b : Block} {t : Nat} :
    marks P b t = true ↔ t < P.l1SlotCount ∧ ¬ b.Disjoint (P.slot t) ∧ P.RoundsUp b := by
  simp only [marks, Bool.and_eq_true, decide_eq_true_eq, and_assoc]

namespace Window

variable (W : Window)

theorem l1SlotCount_mul_le : W.l1SlotCount * W.slotSize ≤ W.heapEnd - W.heapBase := by
  unfold Platform.l1SlotCount
  rw [W.l1HeapSizeBytes_eq]
  exact Nat.div_mul_le_self _ _

theorem l1SlotCount_lt : W.l1SlotCount < 2 ^ 32 := by
  have h1 : W.l1SlotCount ≤ W.heapEnd - W.heapBase := by
    unfold Platform.l1SlotCount
    rw [W.l1HeapSizeBytes_eq]
    exact Nat.div_le_self _ _
  have h2 := W.end_lt
  omega

/-- The slots the code sets for a block inside the window are those it shares a byte with, unless
the rounding of its end wraps. -/
theorem mem_blockSlots {b : Block} (pos : 0 < b.size) (above : W.heapBase ≤ b.addr)
    (below : b.stop ≤ W.heapEnd) (t : Nat) :
    ((blockSlots W.toPlatform b).1 ≤ t ∧ t < (blockSlots W.toPlatform b).2) ↔
      marks W.toPlatform b t = true := by
  have top := W.end_lt
  have slot := W.slot_pos
  have slots := W.l1SlotCount_lt
  unfold Block.stop at below
  have stop : u32 (b.addr + b.size) = b.addr + b.size := u32_of_lt (by omega)
  have notAbove : ¬ b.addr + b.size > W.heapEnd := Nat.not_lt.mpr below
  have lo : sub32 b.addr W.heapBase = b.addr - W.heapBase := sub32_of_le above (by omega)
  have hi : sub32 (b.addr + b.size) W.heapBase = b.addr + b.size - W.heapBase :=
    sub32_of_le (by omega) (by omega)
  have shape : blockSlots W.toPlatform b = ((b.addr - W.heapBase) / W.slotSize,
      if u32 (b.addr + b.size - W.heapBase + (W.slotSize - 1)) / W.slotSize > W.l1SlotCount
      then W.l1SlotCount
      else u32 (b.addr + b.size - W.heapBase + (W.slotSize - 1)) / W.slotSize) := by
    unfold blockSlots
    simp only [stop, if_neg (Nat.not_lt.mpr above), if_neg notAbove, lo, hi]
    rw [if_neg (by omega)]
  have first : (b.addr - W.heapBase) / W.slotSize ≤ t ↔
      b.addr < W.heapBase + t * W.slotSize + W.slotSize := by
    have step : (t + 1) * W.slotSize = t * W.slotSize + W.slotSize := Nat.succ_mul _ _
    rw [← Nat.lt_succ_iff, Nat.div_lt_iff_lt_mul slot, Nat.succ_eq_add_one, step]
    omega
  rw [marks_iff, shape]
  dsimp only
  rw [first]
  simp only [Block.Disjoint, Platform.slot, Platform.RoundsUp, Block.stop]
  by_cases fits : b.addr + b.size - W.heapBase + (W.slotSize - 1) < 2 ^ 32
  · rw [u32_of_lt fits]
    have last : t < (b.addr + b.size - W.heapBase + (W.slotSize - 1)) / W.slotSize ↔
        W.heapBase + t * W.slotSize < b.addr + b.size := by
      have step : (t + 1) * W.slotSize = t * W.slotSize + W.slotSize := Nat.succ_mul _ _
      rw [Nat.lt_iff_add_one_le, Nat.le_div_iff_mul_le slot, step]
      omega
    split <;> omega
  · -- the rounded end wraps to less than one slot, so no slot is set
    have wrapped : u32 (b.addr + b.size - W.heapBase + (W.slotSize - 1)) < W.slotSize := by
      unfold u32
      have slotTop := W.slot_lt
      omega
    rw [Nat.div_eq_of_lt wrapped]
    constructor
    · rintro ⟨-, impossible⟩
      simp at impossible
    · rintro ⟨-, -, roundsUp⟩
      exact absurd roundsUp fits

end Window

end SoftHier.Daml
