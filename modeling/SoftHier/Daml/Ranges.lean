import SoftHier.Daml.Arena

/-!
# The runs of the system-common bitmap

`soc_daml_system_common_bitmap_to_ranges` goes through the slots with one index that its two inner
loops share.  `rangesStep` is the function one round of a loop at a time, from the head of the outer
loop; it is `none` where the function returns.

* `ranges_return`: the function returns with the list `systemCommonBitmapToRanges`.
* `ranges_maximal`: which is the maximal runs of set slots in ascending order, up to the bound.
-/

namespace SoftHier.Daml

open Relation

/-- The loop the function is at; the second inner loop has its two locals. -/
inductive RangesLoop where
  | outer
  | scan
  | extend (runStart e : Nat)
  deriving DecidableEq, Repr

/-- The index `s` and what `g_hbm_system_common` has so far. -/
structure RangesState where
  loop : RangesLoop
  s : Nat
  common : List Block
  deriving DecidableEq, Repr

/-- The block published for the slots from `runStart` up to `e`. -/
def rangeOf (P : Platform) (run : Nat × Nat) : Block :=
  ⟨u32 (P.heapBase + u32 (run.1 * P.slotSize)), u32 ((run.2 - run.1) * P.slotSize)⟩

/-- One round of the loop the function is at. -/
def rangesStep (P : Platform) (g : Bitmap) : RangesState → Option RangesState
  | ⟨.outer, s, common⟩ =>
      if s < P.l1SlotCount ∧ common.length < maxCommonBlocks then some ⟨.scan, s, common⟩
      else none
  | ⟨.scan, s, common⟩ =>
      if s < P.l1SlotCount then
        if slotBit g s then some ⟨.extend s (s + 1), s, common⟩
        else some ⟨.scan, s + 1, common⟩
      else none
  | ⟨.extend runStart e, s, common⟩ =>
      if e < P.l1SlotCount ∧ slotBit g e then some ⟨.extend runStart (e + 1), s, common⟩
      else some ⟨.outer, e, common ++ [rangeOf P (runStart, e)]⟩

/-- One round as a relation. -/
def RangesRound (P : Platform) (g : Bitmap) (a b : RangesState) : Prop := rangesStep P g a = some b

/-- The rounds of a call. -/
abbrev RangesRun (P : Platform) (g : Bitmap) : RangesState → RangesState → Prop :=
  ReflTransGen (RangesRound P g)

section

variable (P : Platform) (g : Bitmap)

/-- The first inner loop stops where the forward scan does. -/
theorem run_scan (n : Nat) {s : Nat} {common : List Block} (room : s + n ≤ P.l1SlotCount) :
    RangesRun P g ⟨.scan, s, common⟩ ⟨.scan, scanFor (slotBit g) n s, common⟩ := by
  induction n generalizing s with
  | zero => exact .refl
  | succ n ih =>
      rw [scanFor]
      split
      · exact .refl
      · rename_i clear
        refine .head ?_ (ih (by omega))
        rw [RangesRound, rangesStep, if_pos (by omega), if_neg clear]

/-- So does the second one, which looks for a clear slot. -/
theorem run_extend (n : Nat) {runStart e s : Nat} {common : List Block}
    (room : e + n ≤ P.l1SlotCount) :
    RangesRun P g ⟨.extend runStart e, s, common⟩
      ⟨.extend runStart (scanFor (fun i => !slotBit g i) n e), s, common⟩ := by
  induction n generalizing e with
  | zero => exact .refl
  | succ n ih =>
      rw [scanFor]
      split
      · exact .refl
      · rename_i set
        refine .head ?_ (ih (by omega))
        rw [RangesRound, rangesStep, if_pos ⟨by omega, by simpa using set⟩]

/-- One turn of the outer loop that finds a run. -/
theorem run_turn {s first last : Nat} (common : List Block) (inside : s < P.l1SlotCount)
    (room : common.length < maxCommonBlocks)
    (hfirst : first = scanFor (slotBit g) (P.l1SlotCount - s) s) (found : first < P.l1SlotCount)
    (hlast : last = scanFor (fun i => !slotBit g i) (P.l1SlotCount - (first + 1)) (first + 1)) :
    RangesRun P g ⟨.outer, s, common⟩ ⟨.outer, last, common ++ [rangeOf P (first, last)]⟩ := by
  have run : RunAt (slotBit g) P.l1SlotCount s first last := by
    subst hfirst hlast
    exact runAt_of_lt found
  have enter : RangesRound P g ⟨.outer, s, common⟩ ⟨.scan, s, common⟩ := by
    rw [RangesRound, rangesStep, if_pos ⟨inside, room⟩]
  have scan : RangesRun P g ⟨.scan, s, common⟩ ⟨.scan, first, common⟩ := by
    rw [hfirst]
    exact run_scan P g _ (by omega)
  have hit : RangesRound P g ⟨.scan, first, common⟩
      ⟨.extend first (first + 1), first, common⟩ := by
    rw [RangesRound, rangesStep, if_pos found, if_pos (run.full first (Nat.le_refl _) run.nonempty)]
  have extend : RangesRun P g ⟨.extend first (first + 1), first, common⟩
      ⟨.extend first last, first, common⟩ := by
    rw [hlast]
    exact run_extend P g _ (by omega)
  have publish : RangesRound P g ⟨.extend first last, first, common⟩
      ⟨.outer, last, common ++ [rangeOf P (first, last)]⟩ := by
    refine (rangesStep.eq_3 ..).trans (if_neg ?_)
    rintro ⟨below, set⟩
    rcases run.fresh with past | clear
    · omega
    · exact absurd (set.symm.trans clear) (by decide)
  exact ((scan.head enter).trans (extend.head hit)).tail publish

/-- From the head of the outer loop with room for `cap` more blocks the function returns, with the
runs from `s` on. -/
theorem run_outer (cap s : Nat) (common : List Block)
    (room : common.length + cap = maxCommonBlocks) :
    ∃ t, RangesRun P g ⟨.outer, s, common⟩ t ∧ rangesStep P g t = none ∧
      t.common = common ++ (runsFrom (slotBit g) P.l1SlotCount cap s).map (rangeOf P) := by
  induction cap generalizing s common with
  | zero =>
      refine ⟨_, .refl, ?_, by simp [runsFrom]⟩
      rw [rangesStep, if_neg (by omega)]
  | succ cap ih =>
      rw [runsFrom]
      dsimp only
      rcases Nat.lt_or_ge s P.l1SlotCount with inside | past
      · split
        · rename_i found
          have turn := run_turn P g common inside (by omega) rfl found rfl
          obtain ⟨t, rest, returned, blocks⟩ := ih _ (common ++ [rangeOf P _]) (by
            rw [List.length_append, List.length_singleton]
            omega)
          refine ⟨t, turn.trans rest, returned, ?_⟩
          rw [blocks, List.map_cons, List.append_assoc, List.singleton_append]
        · rename_i none
          have enter : RangesRound P g ⟨.outer, s, common⟩ ⟨.scan, s, common⟩ := by
            rw [RangesRound, rangesStep, if_pos ⟨inside, by omega⟩]
          have scan : RangesRun P g ⟨.scan, s, common⟩ ⟨.scan, _, common⟩ :=
            run_scan P g (P.l1SlotCount - s) (by omega)
          refine ⟨_, scan.head enter, ?_, by simp⟩
          rw [rangesStep, if_neg none]
      · have none : scanFor (slotBit g) (P.l1SlotCount - s) s = s := by
          rw [Nat.sub_eq_zero_of_le past]
          rfl
        rw [none, if_neg (Nat.not_lt.mpr past)]
        refine ⟨_, .refl, ?_, by simp⟩
        rw [rangesStep, if_neg (fun h => absurd h.1 (Nat.not_lt.mpr past))]

/-- The function returns, with the list of `systemCommonBitmapToRanges`. -/
theorem ranges_return :
    ∃ t, RangesRun P g ⟨.outer, 0, []⟩ t ∧ rangesStep P g t = none ∧
      t.common = systemCommonBitmapToRanges P g := by
  obtain ⟨t, run, returned, blocks⟩ := run_outer P g maxCommonBlocks 0 [] rfl
  exact ⟨t, run, returned, blocks⟩

/-- The bytes of the slots fit into a word. -/
theorem slots_bytes_le {n : Nat} (hn : n ≤ P.l1SlotCount) :
    n * P.slotSize ≤ P.l1HeapSizeBytes :=
  Nat.le_trans (Nat.mul_le_mul_right _ hn) (Nat.div_mul_le_self _ _)

/-- A published block has the address of its first slot and the size of its slots. -/
theorem rangeOf_eq {run : Nat × Nat} (inside : run.2 ≤ P.l1SlotCount) :
    rangeOf P run =
      ⟨u32 (P.heapBase + run.1 * P.slotSize), (run.2 - run.1) * P.slotSize⟩ := by
  have word : P.l1HeapSizeBytes < 2 ^ 32 := u32_lt _
  have bytes := slots_bytes_le P (Nat.le_trans (Nat.sub_le run.2 run.1) inside)
  unfold rangeOf
  rw [u32_of_lt (n := (run.2 - run.1) * P.slotSize) (by omega)]
  unfold u32
  rw [Nat.add_mod_mod]

/-- In a window that does not wrap, neither does the address of a slot. -/
theorem slot_address_lt (ordered : P.heapBase ≤ P.heapEnd) (end_lt : P.heapEnd < 2 ^ 32) {s : Nat}
    (inside : s ≤ P.l1SlotCount) : P.heapBase + s * P.slotSize < 2 ^ 32 := by
  have size : P.l1HeapSizeBytes = P.heapEnd - P.heapBase := sub32_of_le ordered end_lt
  have bytes := slots_bytes_le P inside
  omega

/-- The function returns with the first `maxCommonBlocks` of the maximal runs of set slots, in
ascending order with a gap between any two, each as the bytes of its slots. -/
theorem ranges_maximal :
    ∃ runs : List (Nat × Nat), ∃ t,
      (runs.Pairwise fun r u => r.2 < u.1) ∧
      (∀ first last, (first, last) ∈ runs ↔
        MaximalRun (slotBit g) P.l1SlotCount first last) ∧
      RangesRun P g ⟨.outer, 0, []⟩ t ∧ rangesStep P g t = none ∧
      t.common = systemCommonBitmapToRanges P g ∧
      systemCommonBitmapToRanges P g = (runs.take maxCommonBlocks).map (fun run =>
        ⟨u32 (P.heapBase + run.1 * P.slotSize), (run.2 - run.1) * P.slotSize⟩) ∧
      (P.heapBase ≤ P.heapEnd → P.heapEnd < 2 ^ 32 → ∀ run ∈ runs,
        u32 (P.heapBase + run.1 * P.slotSize) = P.heapBase + run.1 * P.slotSize) := by
  obtain ⟨t, run, returned, blocks⟩ := ranges_return P g
  have members : ∀ r : Nat × Nat,
      r ∈ runsFrom (slotBit g) P.l1SlotCount (P.l1SlotCount + maxCommonBlocks) 0 ↔
        MaximalRun (slotBit g) P.l1SlotCount r.1 r.2 :=
    fun r => mem_runsFrom_iff (Nat.le_add_right _ _)
  refine ⟨runsFrom (slotBit g) P.l1SlotCount (P.l1SlotCount + maxCommonBlocks) 0, t,
    runsFrom_pairwise _ (Or.inl rfl), fun first last => members (first, last), run, returned,
    blocks, ?_, fun ordered end_lt r hr => ?_⟩
  · unfold systemCommonBitmapToRanges
    rw [runsFrom_eq_take (Nat.le_add_left maxCommonBlocks P.l1SlotCount)]
    refine List.map_congr_left fun r hr => ?_
    exact rangeOf_eq P ((members r).mp (List.mem_of_mem_take hr)).last_le
  · have maximal := (members r).mp hr
    have inside : r.1 ≤ P.l1SlotCount :=
      Nat.le_trans (Nat.le_of_lt maximal.nonempty) maximal.last_le
    exact u32_of_lt (slot_address_lt P ordered end_lt inside)

end

end SoftHier.Daml
