import SoftHier.Redmule.TimingOnly

/-!
# The iterations of a job

The iterations by their numbers: which of them is the first or the last, of the job or of a tile,
and which tiles are loaded and stored during each of them.

* `iterAt_inside`: the indices of iteration `p`.
* `isFirstIteration_iff`, `isLastIteration_iff`, `lastK_iff`: the tests of the state machine.
* `nextTile_iterAt`, `nextYTile_iterAt`, `previousZTile_iterAt`: the tiles of an iteration.
-/

namespace SoftHier.Redmule

variable {T : Tiles} {p : Nat}

theorem iterAt_inside (sound : T.Sound) (less : p < T.total) :
    (iterAt T p).Inside T ∧ (iterAt T p).index T = p := by
  have tile : p / T.xRowTiles < T.zColTiles * T.zRowTiles :=
    Nat.div_lt_of_lt_mul (Nat.mul_comm T.xRowTiles _ ▸ less)
  have row : p / T.xRowTiles / T.zRowTiles < T.zColTiles :=
    Nat.div_lt_of_lt_mul (Nat.mul_comm T.zRowTiles _ ▸ tile)
  refine ⟨⟨row, Nat.mod_lt _ sound.zRow_pos, Nat.mod_lt _ sound.xRow_pos⟩, ?_⟩
  unfold iterAt Iter.index
  dsimp only
  rw [Nat.div_add_mod', Nat.div_add_mod']

/-- Iteration `p` is the last one of a tile if the number of the next one is a multiple. -/
theorem lastK_iff (sound : T.Sound) :
    ((iterAt T p).k == sub32 T.xRowTiles 1) = true ↔ (p + 1) % T.xRowTiles = 0 := by
  have pos := sound.xRow_pos
  have below := Nat.mod_lt p pos
  have k : (iterAt T p).k = p % T.xRowTiles := rfl
  rw [beq_iff_eq, k, sub32_of_le pos sound.xRow_lt, ← Nat.mod_add_mod]
  constructor
  · intro last
    rw [last, Nat.sub_add_cancel pos, Nat.mod_self]
  · intro whole
    rcases Nat.eq_or_lt_of_le (Nat.succ_le_of_lt below) with last | more
    · omega
    · rw [Nat.mod_eq_of_lt more] at whole
      cases whole

/-- The test at the end of an iteration. -/
theorem wrapK_iff (sound : T.Sound) :
    u32 ((iterAt T p).k + 1) = T.xRowTiles ↔ (p + 1) % T.xRowTiles = 0 := by
  have pos := sound.xRow_pos
  have less := sound.xRow_lt
  have below : (iterAt T p).k < T.xRowTiles := Nat.mod_lt p pos
  rw [← lastK_iff sound, beq_iff_eq, sub32_of_le pos less, u32_of_lt (by omega)]
  omega

theorem isFirstIteration_iff (sound : T.Sound) (less : p < T.total) :
    isFirstIteration (iterAt T p) = true ↔ p = 0 := by
  obtain ⟨-, index⟩ := iterAt_inside sound less
  unfold isFirstIteration
  rw [Bool.and_eq_true, Bool.and_eq_true, beq_iff_eq, beq_iff_eq, beq_iff_eq]
  constructor
  · intro first
    obtain ⟨⟨i, j⟩, k⟩ := first
    rw [← index]
    unfold Iter.index
    rw [i, j, k, Nat.zero_mul, Nat.zero_add, Nat.zero_mul]
  · intro zero
    rw [zero, iterAt_zero]
    exact ⟨⟨rfl, rfl⟩, rfl⟩

theorem isLastIteration_iff (sound : T.Sound) (less : p < T.total) :
    isLastIteration T (iterAt T p) = true ↔ p + 1 = T.total := by
  obtain ⟨inside, index⟩ := iterAt_inside sound less
  have hi := inside.i
  have hj := inside.j
  have hk := inside.k
  unfold isLastIteration
  rw [Bool.and_eq_true, Bool.and_eq_true, beq_iff_eq, beq_iff_eq, beq_iff_eq,
    sub32_of_le sound.zCol_pos sound.zCol_lt, sub32_of_le sound.zRow_pos sound.zRow_lt,
    sub32_of_le sound.xRow_pos sound.xRow_lt]
  constructor
  · intro last
    obtain ⟨⟨i, j⟩, k⟩ := last
    have col := Nat.sub_add_cancel sound.zCol_pos
    have row := Nat.sub_add_cancel sound.zRow_pos
    have depth := Nat.sub_add_cancel sound.xRow_pos
    have tile : (iterAt T p).i * T.zRowTiles + (iterAt T p).j + 1 = T.zColTiles * T.zRowTiles := by
      rw [i, j, Nat.add_assoc, row, ← Nat.succ_mul, Nat.succ_eq_add_one, col]
    rw [← index]
    unfold Iter.index Tiles.total
    rw [k, Nat.add_assoc, depth, ← Nat.succ_mul, Nat.succ_eq_add_one, tile]
  · intro last
    rw [← index] at last
    have tiles : (iterAt T p).i * T.zRowTiles + (iterAt T p).j + 1 ≤ T.zColTiles * T.zRowTiles := by
      have row := Nat.mul_le_mul_right T.zRowTiles (Nat.succ_le_of_lt hi)
      rw [Nat.succ_mul] at row
      omega
    have whole := Nat.mul_le_mul_right T.xRowTiles tiles
    unfold Iter.index Tiles.total at last
    rw [Nat.succ_mul] at whole
    have k : (iterAt T p).k = T.xRowTiles - 1 := by omega
    have tile : (iterAt T p).i * T.zRowTiles + (iterAt T p).j + 1 = T.zColTiles * T.zRowTiles := by
      apply Nat.eq_of_mul_eq_mul_right sound.xRow_pos
      rw [Nat.succ_mul]
      omega
    have row := Nat.mul_le_mul_right T.zRowTiles (Nat.succ_le_of_lt hi)
    rw [Nat.succ_mul] at row
    have j : (iterAt T p).j = T.zRowTiles - 1 := by omega
    have i : (iterAt T p).i + 1 = T.zColTiles := by
      apply Nat.eq_of_mul_eq_mul_right sound.zRow_pos
      rw [Nat.succ_mul]
      omega
    exact ⟨⟨by omega, j⟩, k⟩

/-- The X tile that is loaded is that of the next iteration. -/
theorem nextTile_iterAt (sound : T.Sound) (less : p + 1 < T.total) :
    nextTile T (iterAt T p) = iterAt T (p + 1) := by
  obtain ⟨inside, index⟩ := iterAt_inside sound (Nat.lt_of_succ_lt less)
  have next : nextTile T (iterAt T p) = (nextIteration T (iterAt T p)).1 := by
    unfold nextTile nextIteration
    dsimp only
    split
    · split <;> rfl
    · rfl
  obtain ⟨-, inside', index'⟩ | ⟨-, last⟩ := nextIteration_spec sound inside
  · rw [next, ← iterAt_index inside', index', index]
  · omega

/-- The Y tile that is loaded is that of the next iteration. -/
theorem nextYTile_iterAt (sound : T.Sound) (less : p + 1 < T.total)
    (last : (p + 1) % T.xRowTiles = 0) :
    nextYTile T (iterAt T p) = ((iterAt T (p + 1)).i, (iterAt T (p + 1)).j) := by
  rw [← nextTile_iterAt sound less]
  unfold nextYTile nextTile
  rw [if_pos ((wrapK_iff sound).mpr last)]
  split <;> rfl

/-- The Z tile that is stored is the previous one. -/
theorem previousZTile_iterAt {t : Nat} (sound : T.Sound)
    (less : t + 1 < T.zColTiles * T.zRowTiles) :
    previousZTile T (iterAt T ((t + 1) * T.xRowTiles)) = tileAt T t := by
  have first : iterAt T ((t + 1) * T.xRowTiles) =
      ⟨(t + 1) / T.zRowTiles, (t + 1) % T.zRowTiles, 0⟩ := by
    unfold iterAt
    rw [Nat.mul_div_cancel _ sound.xRow_pos, Nat.mul_mod_left]
  rw [first, previousZTile_eq sound less]

end SoftHier.Redmule
