import SoftHier.Redmule.TileAccess

/-!
# The Z tiles that are stored

A Z tile is stored by the iteration after the one that completes it, or in the last phase, with the
size that it had when it was completed.

* `pass_mem`, `pass_zStore`: the tile that a phase stores, and its size.
* `tileOffset`: the place of a row of a tile in its matrix.
* `storeZTile_first`: the first element of the matrix.
-/

namespace SoftHier.Redmule

/-! ## Tiles and phases -/

section

variable {A : Arch} {R : Regs} {T : Tiles} {mode p : Nat} {b : Contents}

/-- The operations of an iteration and those of the last phase. -/
theorem pass_routine (less : p < T.total) :
    b.pass A R T mode (p + 1) = b.routine A R T mode (iterAt T p) := by
  unfold Contents.pass
  rw [if_neg (Nat.succ_ne_zero p), if_pos (Nat.succ_le_of_lt less), Nat.add_sub_cancel]

theorem pass_storing : b.pass A R T mode (T.total + 1) = b.storing A R T := by
  unfold Contents.pass
  rw [if_neg (Nat.succ_ne_zero _), if_neg (Nat.not_succ_le_self _)]

/-- The last tile. -/
theorem tileAt_last (sound : T.Sound) :
    tileAt T (T.zColTiles * T.zRowTiles - 1) = (sub32 T.zColTiles 1, sub32 T.zRowTiles 1) := by
  have col := sound.zCol_pos
  have row := sound.zRow_pos
  have inside : Iter.Inside T ⟨T.zColTiles - 1, T.zRowTiles - 1, 0⟩ :=
    ⟨Nat.sub_lt col Nat.one_pos, Nat.sub_lt row Nat.one_pos, sound.xRow_pos⟩
  apply last_tile sound inside
  dsimp only
  rw [Nat.add_assoc, Nat.sub_add_cancel row, ← Nat.succ_mul, Nat.succ_eq_add_one,
    Nat.sub_add_cancel col]

theorem routine_mem {it : Iter} :
    (b.routine A R T mode it).mem = (b.iterate A R T mode it).mem := by
  unfold Contents.routine
  dsimp only
  split <;> rfl

/-- A phase stores the tile that is complete since the last one, if any. -/
theorem pass_mem (sound : T.Sound) (le : p ≤ T.total) :
    (b.pass A R T mode (p + 1)).mem =
      if 0 < p ∧ p % T.xRowTiles = 0 then
        storeZTile A R (tileAt T (p / T.xRowTiles - 1)) b.zStore b.zPrevios b.mem
      else b.mem := by
  rcases Nat.eq_or_lt_of_le le with rfl | less
  · have tiles : T.total / T.xRowTiles = T.zColTiles * T.zRowTiles :=
      Nat.mul_div_cancel _ sound.xRow_pos
    have whole : T.total % T.xRowTiles = 0 := Nat.mul_mod_left _ _
    rw [pass_storing, if_pos ⟨sound.total_pos, whole⟩, tiles, tileAt_last sound]
    rfl
  · have k : (iterAt T p).k = p % T.xRowTiles := rfl
    have stores : ((iterAt T p).k == 0 && !isFirstIteration (iterAt T p)) = true ↔
        0 < p ∧ p % T.xRowTiles = 0 := by
      rw [Bool.and_eq_true, Bool.not_eq_true', ← Bool.not_eq_true, isFirstIteration_iff sound less,
        beq_iff_eq, k]
      omega
    rw [pass_routine less, routine_mem]
    unfold Contents.iterate
    dsimp only
    rw [if_congr stores rfl rfl]
    split
    · rename_i complete
      obtain ⟨pos, whole⟩ := complete
      -- a multiple of the iterations of a tile, and not the first
      obtain ⟨t, rfl⟩ := Nat.dvd_of_mod_eq_zero whole
      obtain ⟨t, rfl⟩ := Nat.exists_eq_succ_of_ne_zero (Nat.ne_of_gt (Nat.pos_of_mul_pos_left pos))
      have tile : t + 1 < T.zColTiles * T.zRowTiles := by
        apply Nat.lt_of_mul_lt_mul_left (a := T.xRowTiles)
        rw [Nat.mul_comm T.xRowTiles (_ * _)]
        exact less
      rw [Nat.mul_div_cancel_left _ sound.xRow_pos, Nat.mul_comm, previousZTile_iterAt sound tile]
      rfl
    · rfl

/-- The size of a tile is determined when it is complete. -/
theorem pass_zStore (sound : T.Sound) (less : p < T.total) :
    (b.pass A R T mode (p + 1)).zStore =
      if (p + 1) % T.xRowTiles = 0 then tileSize A R T (p / T.xRowTiles) else b.zStore := by
  rw [pass_routine less]
  unfold Contents.routine
  dsimp only
  rw [if_congr (wrapK_iff sound) rfl rfl]
  split <;> rfl

end

/-! ## Places -/

/-- The place of row `r` of a tile in its matrix, in bytes from the base of the matrix. -/
def tileOffset (A : Arch) (R : Regs) (stride tileCol tileRow i j r : Nat) : Nat :=
  if A.foldTilesMapping then
    ((i * (u32 (stride + tileRow - 1) / tileRow) + j) * tileRow * tileCol + r * tileRow) *
      R.elemSize
  else ((i * tileCol + r) * stride + j * tileRow) * R.elemSize

section

variable {A : Arch} {R : Regs} {mode t : Nat}

theorem rowAt_tile (base stride tileCol tileRow i j r : Nat) :
    rowAt (calculateTileBaseAddress A R base stride tileCol tileRow i j)
      (rowStep A R stride tileRow) r =
      u32 (base + tileOffset A R stride tileCol tileRow i j r) := by
  unfold calculateTileBaseAddress rowStep tileOffset
  cases A.foldTilesMapping with
  | true =>
    dsimp only
    rw [if_pos rfl, if_pos rfl, if_pos rfl, rowAt_u32]
    unfold rowAt
    congr 1
    ring
  | false =>
    rw [if_neg Bool.false_ne_true, if_neg Bool.false_ne_true, if_neg Bool.false_ne_true, rowAt_u32]
    unfold rowAt
    congr 1
    ring

/-- An offset of fewer elements than the padded matrix has is below the top of the address space. -/
theorem Fits.offset_le (fits : Fits A R) {n : Nat}
    (le : n + A.bufferW ≤ (R.mSize + A.bufferH) * (R.kSize + A.bufferW)) :
    n * R.elemSize + A.bufferW * R.elemSize ≤ 2 ^ 32 := by
  rw [← Nat.add_mul]
  exact Nat.le_trans (Nat.mul_le_mul_right _ le) (Nat.le_of_lt fits.matrix)

/-- Folded tiles lie one after the other, each without gaps. -/
theorem foldedOffset_bounds (fits : Fits A R) {i j r : Nat} (hi : i * A.bufferH < R.mSize)
    (hj : j * A.bufferW < R.kSize) (hr : r < A.bufferH) :
    (i * ((R.kSize + A.bufferW - 1) / A.bufferW) + j) * A.bufferW * A.bufferH + r * A.bufferW +
        A.bufferW ≤ (R.mSize + A.bufferH) * (R.kSize + A.bufferW) ∧
      (0 < i ∨ 0 < j ∨ 0 < r →
        0 < (i * ((R.kSize + A.bufferW - 1) / A.bufferW) + j) * A.bufferW * A.bufferH +
          r * A.bufferW) := by
  have h := fits.height
  have w := fits.width
  have row : i * A.bufferH + A.bufferH ≤ R.mSize + A.bufferH := by omega
  have count : j + 1 ≤ (R.kSize + A.bufferW - 1) / A.bufferW := by
    apply (Nat.le_div_iff_mul_le w).mpr
    rw [Nat.succ_mul]
    omega
  have across : (R.kSize + A.bufferW - 1) / A.bufferW * A.bufferW ≤ R.kSize + A.bufferW :=
    Nat.le_trans (Nat.div_mul_le_self _ _) (Nat.sub_le _ _)
  generalize (R.kSize + A.bufferW - 1) / A.bufferW = n at count across
  constructor
  · calc (i * n + j) * A.bufferW * A.bufferH + r * A.bufferW + A.bufferW
        = ((i * n + j) * A.bufferH + (r + 1)) * A.bufferW := by ring
      _ ≤ ((i * n + j) * A.bufferH + A.bufferH) * A.bufferW := by gcongr; exact hr
      _ = (i * n + (j + 1)) * A.bufferH * A.bufferW := by ring
      _ ≤ (i * n + n) * A.bufferH * A.bufferW := by gcongr
      _ = (i * A.bufferH + A.bufferH) * (n * A.bufferW) := by ring
      _ ≤ (R.mSize + A.bufferH) * (R.kSize + A.bufferW) := by gcongr
  · rintro (i' | j' | r')
    · have tiles : 0 < i * n + j := Nat.add_pos_left (Nat.mul_pos i' (by omega)) _
      exact Nat.add_pos_left (Nat.mul_pos (Nat.mul_pos tiles w) h) _
    · have tiles : 0 < i * n + j := Nat.add_pos_right _ j'
      exact Nat.add_pos_left (Nat.mul_pos (Nat.mul_pos tiles w) h) _
    · exact Nat.add_pos_right _ (Nat.mul_pos r' w)

/-- The rows of the other tiles lie in the rows of the matrix. -/
theorem flatOffset_bounds (fits : Fits A R) {i j r : Nat} (hi : i * A.bufferH < R.mSize)
    (hj : j * A.bufferW < R.kSize) (hr : r < A.bufferH) :
    (i * A.bufferH + r) * R.kSize + j * A.bufferW + A.bufferW ≤
        (R.mSize + A.bufferH) * (R.kSize + A.bufferW) ∧
      (0 < i ∨ 0 < j ∨ 0 < r → 0 < (i * A.bufferH + r) * R.kSize + j * A.bufferW) := by
  have h := fits.height
  have w := fits.width
  have k := fits.columns
  have row : i * A.bufferH + r + 1 ≤ R.mSize + A.bufferH := by omega
  constructor
  · calc (i * A.bufferH + r) * R.kSize + j * A.bufferW + A.bufferW
        = (i * A.bufferH + r) * R.kSize + (j * A.bufferW + A.bufferW) := Nat.add_assoc ..
      _ ≤ (i * A.bufferH + r) * (R.kSize + A.bufferW) + (R.kSize + A.bufferW) :=
          Nat.add_le_add (Nat.mul_le_mul_left _ (Nat.le_add_right _ _)) (by omega)
      _ = (i * A.bufferH + r + 1) * (R.kSize + A.bufferW) := by ring
      _ ≤ (R.mSize + A.bufferH) * (R.kSize + A.bufferW) := by gcongr
  · rintro (i' | j' | r')
    · exact Nat.add_pos_left (Nat.mul_pos (Nat.add_pos_left (Nat.mul_pos i' h) _) k) _
    · exact Nat.add_pos_right _ (Nat.mul_pos j' w)
    · exact Nat.add_pos_left (Nat.mul_pos (Nat.add_pos_right _ r') k) _

/-- The rows of the Z tiles come after the first element and fit into the address space. -/
theorem tileOffset_bounds (fits : Fits A R) {i j r : Nat} (hi : i * A.bufferH < R.mSize)
    (hj : j * A.bufferW < R.kSize) (hr : r < A.bufferH) :
    tileOffset A R R.kSize A.bufferH A.bufferW i j r + A.bufferW * R.elemSize ≤ 2 ^ 32 ∧
      (0 < i ∨ 0 < j ∨ 0 < r → R.elemSize ≤ tileOffset A R R.kSize A.bufferH A.bufferW i j r) := by
  -- an offset counts elements, of which at least one comes before
  have some : ∀ n, 0 < n → R.elemSize ≤ n * R.elemSize := fun n pos => Nat.le_mul_of_pos_left _ pos
  unfold tileOffset
  cases A.foldTilesMapping with
  | true =>
    have sum : u32 (R.kSize + A.bufferW - 1) = R.kSize + A.bufferW - 1 := by
      have whole : 1 * (R.kSize + A.bufferW) * R.elemSize < 2 ^ 32 :=
        fits.le (Nat.le_trans fits.height (Nat.le_add_left _ _)) (Nat.le_refl _)
      have le := Nat.le_mul_of_pos_right (1 * (R.kSize + A.bufferW)) fits.elem
      rw [Nat.one_mul] at whole le
      apply u32_of_lt
      omega
    obtain ⟨inside, later⟩ := foldedOffset_bounds fits hi hj hr
    rw [if_pos rfl, sum]
    exact ⟨fits.offset_le inside, fun after => some _ (later after)⟩
  | false =>
    obtain ⟨inside, later⟩ := flatOffset_bounds fits hi hj hr
    rw [if_neg Bool.false_ne_true]
    exact ⟨fits.offset_le inside, fun after => some _ (later after)⟩

/-- A row that is not the first one is apart from the first element. -/
theorem row_apart (fits : Fits A R) {i j r size k : Nat}
    (hi : i * A.bufferH < R.mSize) (hj : j * A.bufferW < R.kSize) (hr : r < A.bufferH)
    (later : 0 < i ∨ 0 < j ∨ 0 < r) (wide : size ≤ A.bufferW * R.elemSize) (hk : k < R.elemSize) :
    R.zAddr + k < u32 (R.zAddr + tileOffset A R R.kSize A.bufferH A.bufferW i j r) ∨
      u32 (R.zAddr + tileOffset A R R.kSize A.bufferH A.bufferW i j r) + size ≤ R.zAddr + k := by
  obtain ⟨inside, beyond⟩ := tileOffset_bounds fits hi hj hr
  have after := beyond later
  unfold u32
  omega

/-- The tiles of the matrix, and the sizes with which they are stored. -/
theorem tileSize_eq (sized : Sized A R mode) (sound : (initTiles A R).Sound)
    (less : t < (initTiles A R).zColTiles * (initTiles A R).zRowTiles) :
    (tileAt (initTiles A R) t).1 * A.bufferH < R.mSize ∧
      (tileAt (initTiles A R) t).2 * A.bufferW < R.kSize ∧ tileSize A R (initTiles A R) t =
        (min (R.kSize - (tileAt (initTiles A R) t).2 * A.bufferW) A.bufferW,
          min (R.mSize - (tileAt (initTiles A R) t).1 * A.bufferH) A.bufferH) := by
  have row : (tileAt (initTiles A R) t).1 < (initTiles A R).zColTiles :=
    Nat.div_lt_of_lt_mul (Nat.mul_comm _ (initTiles A R).zRowTiles ▸ less)
  have column : (tileAt (initTiles A R) t).2 < (initTiles A R).zRowTiles :=
    Nat.mod_lt t sound.zRow_pos
  have hi := mul_le_of_lt_tileCount sized.height_pos row
  have hj := mul_le_of_lt_tileCount sized.width_pos column
  obtain ⟨width, height⟩ := zStore_eq sized
    ⟨(tileAt (initTiles A R) t).1, (tileAt (initTiles A R) t).2, 0⟩ (Nat.le_of_lt hi)
    (Nat.le_of_lt hj)
  exact ⟨hi, hj, Prod.ext width height⟩

/-- The first tile holds the first element of the matrix. -/
theorem storeZTile_zero (sized : Sized A R mode) (fits : Fits A R) (small : R.zAddr < 2 ^ 32)
    {width height : Nat} (hm : 0 < R.mSize) (hk : 0 < R.kSize) (columns : 0 < width)
    (wide : width ≤ A.bufferW) (rows : 0 < height) (low : height ≤ A.bufferH) {z mem : Buffer} :
    loadLe (storeZTile A R (0, 0) (width, height) z mem) R.zAddr R.elemSize =
      elem R.elemSize z 0 := by
  have bytes := sized.small sized.width_lt
  have wide := Nat.mul_le_mul_right R.elemSize wide
  have place : u32 (R.zAddr + tileOffset A R R.kSize A.bufferH A.bufferW 0 0 0) = R.zAddr := by
    have start : tileOffset A R R.kSize A.bufferH A.bufferW 0 0 0 = 0 := by
      unfold tileOffset
      split <;> simp only [Nat.zero_mul, Nat.add_zero]
    rw [start, Nat.add_zero, u32_of_lt small]
  unfold storeZTile
  dsimp only
  rw [u32_of_lt (Nat.lt_of_le_of_lt wide bytes), funext (rowAt_tile _ _ _ _ _ _)]
  apply loadLe_eq_iff.mpr
  intro k hk'
  have inside : k < width * R.elemSize := Nat.lt_of_lt_of_le hk' (Nat.le_mul_of_pos_left _ columns)
  have copied : copyRows mem
      (fun r => u32 (R.zAddr + tileOffset A R R.kSize A.bufferH A.bufferW 0 0 r)) z
      (rowAt 0 (A.bufferWByte R.elemSize)) (width * R.elemSize) height
      (u32 (R.zAddr + tileOffset A R R.kSize A.bufferH A.bufferW 0 0 0) + k) =
        z (rowAt 0 (A.bufferWByte R.elemSize) 0 + k) := by
    apply copyRows_at _ inside
    · intro r after below
      rw [place]
      exact row_apart fits (by omega) (by omega) (Nat.lt_of_lt_of_le below low)
        (Or.inr (Or.inr after)) wide hk'
    · exact rows
  rw [place, rowAt_zero (by decide)] at copied
  rw [copied, Nat.zero_mul]

/-- The other tiles keep it. -/
theorem storeZTile_later (sized : Sized A R mode) (fits : Fits A R) {i j width height : Nat}
    (hi : i * A.bufferH < R.mSize) (hj : j * A.bufferW < R.kSize) (later : 0 < i ∨ 0 < j)
    (wide : width ≤ A.bufferW) (low : height ≤ A.bufferH) {z mem : Buffer} :
    loadLe (storeZTile A R (i, j) (width, height) z mem) R.zAddr R.elemSize =
      loadLe mem R.zAddr R.elemSize := by
  have bytes := sized.small sized.width_lt
  have wide := Nat.mul_le_mul_right R.elemSize wide
  unfold storeZTile
  dsimp only
  rw [u32_of_lt (Nat.lt_of_le_of_lt wide bytes), funext (rowAt_tile _ _ _ _ _ _)]
  apply loadLe_eq_iff.mpr
  intro k hk
  apply copyRows_of_outside
  intro r below
  have more : 0 < i ∨ 0 < j ∨ 0 < r := by
    rcases later with row | column
    · exact Or.inl row
    · exact Or.inr (Or.inl column)
  exact row_apart fits hi hj (Nat.lt_of_lt_of_le below low) more wide hk

/-- The first element of the matrix is stored with the first tile, and kept by the others. -/
theorem storeZTile_first (sized : Sized A R mode) (fits : Fits A R) (sound : (initTiles A R).Sound)
    (small : R.zAddr < 2 ^ 32) (less : t < (initTiles A R).zColTiles * (initTiles A R).zRowTiles)
    {z mem : Buffer} :
    loadLe (storeZTile A R (tileAt (initTiles A R) t) (tileSize A R (initTiles A R) t) z mem)
        R.zAddr R.elemSize =
      if t = 0 then elem R.elemSize z 0 else loadLe mem R.zAddr R.elemSize := by
  obtain ⟨hi, hj, size⟩ := tileSize_eq sized sound less
  have wide := Nat.min_le_right (R.kSize - (tileAt (initTiles A R) t).2 * A.bufferW) A.bufferW
  have low := Nat.min_le_right (R.mSize - (tileAt (initTiles A R) t).1 * A.bufferH) A.bufferH
  rw [size]
  rcases Nat.eq_zero_or_pos t with rfl | later
  · have corner : tileAt (initTiles A R) 0 = (0, 0) := Prod.ext (Nat.zero_div _) (Nat.zero_mod _)
    have h := sized.height_pos
    have w := sized.width_pos
    rw [corner] at hi hj wide low ⊢
    rw [if_pos rfl]
    exact storeZTile_zero sized fits small (by omega) (by omega) (by omega) wide (by omega) low
  · have some : 0 < (tileAt (initTiles A R) t).1 ∨ 0 < (tileAt (initTiles A R) t).2 := by
      have split := Nat.div_add_mod t (initTiles A R).zRowTiles
      by_contra none
      have i : t / (initTiles A R).zRowTiles = 0 := Nat.eq_zero_of_not_pos fun i => none (Or.inl i)
      have j : t % (initTiles A R).zRowTiles = 0 := Nat.eq_zero_of_not_pos fun j => none (Or.inr j)
      rw [i, j, Nat.mul_zero] at split
      exact Nat.ne_of_lt later split
    rw [if_neg (Nat.ne_of_gt later)]
    exact storeZTile_later sized fits hi hj some wide low

end

end SoftHier.Redmule
