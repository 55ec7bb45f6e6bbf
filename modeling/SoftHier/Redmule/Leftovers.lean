import SoftHier.Redmule.TileAccess

/-!
# What a job finds in the buffers

The buffers of the accelerator keep what earlier jobs left in them, or what was there at
construction.

* `Agree`: two runs of a job with the same memory, in which the buffers agree where they are used.
* `forward_agree`, `Agree.iterate`: the operations on tiles keep that.
* `passes_agree`, `passes_mem`: if a row of X fills its buffer, the runs agree from the first
  iteration on and end with the same memory.
-/

namespace SoftHier.Redmule

/-! ## Elements that are copied or cleared whole -/

section

variable {dst src : Buffer} {elemSize index size : Nat}

theorem memzero_elem (inside : (index + 1) * elemSize ≤ size) :
    elem elemSize (memzero dst size) index = 0 := by
  apply loadLe_zero
  intro i less
  rw [Nat.succ_mul] at inside
  exact memzero_of_lt (by omega)

theorem memcpy_elem (inside : (index + 1) * elemSize ≤ size) :
    elem elemSize (memcpy dst 0 src 0 size) index = elem elemSize src index := by
  apply loadLe_eq_iff.mpr
  intro i less
  rw [Nat.succ_mul] at inside
  have copied : memcpy dst 0 src 0 size (0 + (index * elemSize + i)) =
      src (0 + (index * elemSize + i)) := memcpy_at (by omega)
  rw [Nat.zero_add] at copied
  exact copied

end

section

variable {A : Arch} {R : Regs} {mode r c : Nat}

/-- The X buffer after a computation. -/
theorem cleared_x (sized : Sized A R mode) (x : Buffer) (hr : r < A.bufferH)
    (hc : c < A.bufferN R.elemSize) :
    elem R.elemSize (memzero x (u32 (A.ceHeight * A.bandwidth))) (r * A.bufferN R.elemSize + c) =
      0 := by
  have fits := sized.xFits
  have size : u32 (A.ceHeight * A.bandwidth) = A.bufferH * (A.bufferN R.elemSize * R.elemSize) := by
    rw [← sized.bandwidth_eq]
    exact u32_of_lt fits
  apply memzero_elem
  rw [size]
  exact place_le _ hr hc

/-- The W buffer after a computation. -/
theorem cleared_w (sized : Sized A R mode) (w : Buffer) (hr : r < A.bufferN R.elemSize)
    (hc : c < A.bufferW) :
    elem R.elemSize (memzero w (u32 (A.bufferW * A.bandwidth))) (r * A.bufferW + c) = 0 := by
  have size : u32 (A.bufferW * A.bandwidth) = A.bufferN R.elemSize * (A.bufferW * R.elemSize) := by
    rw [u32_of_lt sized.wFits, sized.bandwidth_eq]
    ring
  apply memzero_elem
  rw [size]
  exact place_le _ hr hc

end

/-! ## Runs that agree -/

/-- The elements of a tile are the same in both buffers. -/
def SameTile (elemSize pitch rows cols : Nat) (b b' : Buffer) : Prop :=
  ∀ r < rows, ∀ c < cols, elem elemSize b (r * pitch + c) = elem elemSize b' (r * pitch + c)

/-- The memories are the same, and the buffers where tiles of the matrices can be: that of W and
that of the previous Z tile under a condition each. -/
structure Agree (A : Arch) (R : Regs) (whenW whenZ : Prop) (b b' : Contents) : Prop where
  mem : b.mem = b'.mem
  zStore : b.zStore = b'.zStore
  width : b.zStore.1 ≤ min R.kSize A.bufferW
  height : b.zStore.2 ≤ min R.mSize A.bufferH
  x : SameTile R.elemSize (A.bufferN R.elemSize) (min R.mSize A.bufferH) (A.bufferN R.elemSize)
    b.x b'.x
  y : SameTile R.elemSize A.bufferW (min R.mSize A.bufferH) (min R.kSize A.bufferW) b.y b'.y
  z : SameTile R.elemSize A.bufferW (min R.mSize A.bufferH) (min R.kSize A.bufferW) b.z b'.z
  w : whenW → SameTile R.elemSize A.bufferW (A.bufferN R.elemSize) (min R.kSize A.bufferW) b.w b'.w
  zPrevios : whenZ →
    SameTile R.elemSize A.bufferW (min R.mSize A.bufferH) (min R.kSize A.bufferW)
      b.zPrevios b'.zPrevios

section

variable {A : Arch} {R : Regs} {mode m p : Nat} {b b' : Contents} {it : Iter} {whenW whenZ : Prop}

/-- The index of a tile is that of a tile of the matrices. -/
theorem Iter.Inside.le (sized : Sized A R mode) (inside : it.Inside (initTiles A R)) :
    it.i * A.bufferH < R.mSize ∧ it.j * A.bufferW < R.kSize ∧
      it.k * A.bufferN R.elemSize < R.nSize :=
  ⟨mul_le_of_lt_tileCount sized.height_pos inside.i,
    mul_le_of_lt_tileCount sized.width_pos inside.j,
    mul_le_of_lt_tileCount sized.depth_pos inside.k⟩

theorem SameTile.loadX (sized : Sized A R mode) (inside : it.Inside (initTiles A R))
    {rows : Nat} {x x' mem : Buffer}
    (same : ∀ r < rows, ∀ c < A.bufferN R.elemSize,
      min (R.mSize - it.i * A.bufferH) A.bufferH ≤ r ∨
          min (R.nSize - it.k * A.bufferN R.elemSize) (A.bufferN R.elemSize) ≤ c →
        elem R.elemSize x (r * A.bufferN R.elemSize + c) =
          elem R.elemSize x' (r * A.bufferN R.elemSize + c)) :
    SameTile R.elemSize (A.bufferN R.elemSize) rows (A.bufferN R.elemSize)
      (loadXTile A R it x mem) (loadXTile A R it x' mem) := by
  intro r hr c hc
  obtain ⟨i, -, k⟩ := inside.le sized
  rw [loadXTile_elem sized (Nat.le_of_lt i) (Nat.le_of_lt k) hc,
    loadXTile_elem sized (Nat.le_of_lt i) (Nat.le_of_lt k) hc]
  split
  · rfl
  · rename_i outside
    exact same r hr c hc (by omega)

theorem SameTile.loadW (sized : Sized A R mode) (inside : it.Inside (initTiles A R))
    {cols : Nat} (narrow : cols ≤ A.bufferW) {w w' mem : Buffer}
    (same : ∀ r < A.bufferN R.elemSize, ∀ c < cols,
      min (R.nSize - it.k * A.bufferN R.elemSize) (A.bufferN R.elemSize) ≤ r ∨
          min (R.kSize - it.j * A.bufferW) A.bufferW ≤ c →
        elem R.elemSize w (r * A.bufferW + c) = elem R.elemSize w' (r * A.bufferW + c)) :
    SameTile R.elemSize A.bufferW (A.bufferN R.elemSize) cols
      (loadWTile A R (initTiles A R) it w mem) (loadWTile A R (initTiles A R) it w' mem) := by
  intro r hr c hc
  obtain ⟨-, j, -⟩ := inside.le sized
  have column : c < A.bufferW := Nat.lt_of_lt_of_le hc narrow
  rw [loadWTile_elem sized (Nat.le_of_lt j) inside.k column,
    loadWTile_elem sized (Nat.le_of_lt j) inside.k column]
  split
  · rfl
  · rename_i outside
    exact same r hr c hc (by omega)

theorem SameTile.loadY (sized : Sized A R mode) (inside : it.Inside (initTiles A R))
    {rows cols : Nat} (narrow : cols ≤ A.bufferW) {y y' mem : Buffer}
    (same : ∀ r < rows, ∀ c < cols, min (R.mSize - it.i * A.bufferH) A.bufferH ≤ r ∨
        min (R.kSize - it.j * A.bufferW) A.bufferW ≤ c →
      elem R.elemSize y (r * A.bufferW + c) = elem R.elemSize y' (r * A.bufferW + c)) :
    SameTile R.elemSize A.bufferW rows cols (loadYTile A R (it.i, it.j) y mem)
      (loadYTile A R (it.i, it.j) y' mem) := by
  intro r hr c hc
  obtain ⟨i, j, -⟩ := inside.le sized
  have column : c < A.bufferW := Nat.lt_of_lt_of_le hc narrow
  rw [loadYTile_elem sized (Nat.le_of_lt i) (Nat.le_of_lt j) column,
    loadYTile_elem sized (Nat.le_of_lt i) (Nat.le_of_lt j) column]
  split
  · rfl
  · rename_i outside
    dsimp only at outside
    exact same r hr c hc (by omega)

/-- The product of tiles that agree. -/
theorem SameTile.compute (sized : Sized A R mode) {rows cols : Nat} (low : rows ≤ A.bufferH)
    (narrow : cols ≤ A.bufferW) {z z' x x' w w' : Buffer}
    (sameZ : SameTile R.elemSize A.bufferW rows cols z z')
    (sameX : SameTile R.elemSize (A.bufferN R.elemSize) rows (A.bufferN R.elemSize) x x')
    (sameW : SameTile R.elemSize A.bufferW (A.bufferN R.elemSize) cols w w') :
    SameTile R.elemSize A.bufferW rows cols (Redmule.compute A R mode z x w)
      (Redmule.compute A R mode z' x' w') := by
  intro r hr c hc
  have row : r < A.bufferH := Nat.lt_of_lt_of_le hr low
  have column : c < A.bufferW := Nat.lt_of_lt_of_le hc narrow
  rw [compute_elem sized _ _ _ row column, compute_elem sized _ _ _ row column, sameZ r hr c hc]
  congr 1
  apply Finset.sum_congr rfl
  intro n mem
  have less := Finset.mem_range.mp mem
  rw [sameX r hr n less, sameW n less c hc]

/-- Tiles that agree are stored alike. -/
theorem storeZTile_congr (sized : Sized A R mode) {t size : Nat × Nat} {rows cols : Nat}
    (low : rows ≤ A.bufferH) (width : size.1 ≤ cols) (height : size.2 ≤ rows)
    (narrow : cols ≤ A.bufferW) {z z' mem : Buffer}
    (same : SameTile R.elemSize A.bufferW rows cols z z') :
    storeZTile A R t size z mem = storeZTile A R t size z' mem := by
  funext i
  apply copyRows_congr _ rfl
  intro r hr j hj
  have pos := sized.elemSize_pos
  have wide : size.1 * R.elemSize ≤ A.bufferW * R.elemSize :=
    Nat.mul_le_mul_right _ (Nat.le_trans width narrow)
  have small := sized.small sized.width_lt
  rw [u32_of_lt (by omega)] at hj
  have column : j / R.elemSize < cols :=
    Nat.lt_of_lt_of_le (Nat.div_lt_of_lt_mul (Nat.mul_comm _ R.elemSize ▸ hj)) width
  have row : r < rows := Nat.lt_of_lt_of_le hr height
  have place : rowAt 0 (A.bufferWByte R.elemSize) r + j =
      (r * A.bufferW + j / R.elemSize) * R.elemSize + j % R.elemSize := by
    have split := Nat.div_add_mod' j R.elemSize
    rw [sized.rowAt_eq (Nat.lt_of_lt_of_le row low), Nat.add_mul, Nat.mul_assoc]
    omega
  rw [place]
  exact loadLe_eq_iff.mp (same r row _ column) _ (Nat.mod_lt j pos)

/-- A tile of the matrices is within the buffer of its elements. -/
theorem inBuffer (sized : Sized A R mode) {r c : Nat} (hr : r < min R.mSize A.bufferH)
    (hc : c < min R.kSize A.bufferW) :
    (r * A.bufferW + c + 1) * R.elemSize ≤ A.bufferYZByte R.elemSize := by
  rw [sized.yzByte_eq]
  exact place_le _ (Nat.lt_of_lt_of_le hr (Nat.min_le_right _ _))
    (Nat.lt_of_lt_of_le hc (Nat.min_le_right _ _))

/-- `INSTR_FORWARD_YZ` moves tiles that agree. -/
theorem forward_agree (sized : Sized A R mode) (inside : it.Inside (initTiles A R))
    (mem : b.mem = b'.mem)
    (x : SameTile R.elemSize (A.bufferN R.elemSize) (min R.mSize A.bufferH) (A.bufferN R.elemSize)
      b.x b'.x)
    (y : SameTile R.elemSize A.bufferW (min R.mSize A.bufferH) (min R.kSize A.bufferW) b.y b'.y)
    (w : whenW → SameTile R.elemSize A.bufferW (A.bufferN R.elemSize) (min R.kSize A.bufferW)
      b.w b'.w)
    (z : whenZ →
      SameTile R.elemSize A.bufferW (min R.mSize A.bufferH) (min R.kSize A.bufferW) b.z b'.z) :
    Agree A R whenW whenZ (b.forward A R it) (b'.forward A R it) := by
  obtain ⟨i, j, -⟩ := inside.le sized
  obtain ⟨width, height⟩ := zStore_eq sized it (Nat.le_of_lt i) (Nat.le_of_lt j)
  refine ⟨mem, rfl, ?_, ?_, x, fun r hr c hc => ?_, fun r hr c hc => ?_, w,
    fun given r hr c hc => ?_⟩
  · have le : zWidthCutoff A R it.j / R.elemSize ≤ min R.kSize A.bufferW := by
      rw [width]
      omega
    exact le
  · have le : zHeightCutoff A R it.i / R.elemSize ≤ min R.mSize A.bufferH := by
      rw [height]
      omega
    exact le
  · exact (memzero_elem (inBuffer sized hr hc)).trans (memzero_elem (inBuffer sized hr hc)).symm
  · have copied := inBuffer sized hr hc
    exact (memcpy_elem copied).trans ((y r hr c hc).trans (memcpy_elem copied).symm)
  · have copied := inBuffer sized hr hc
    exact (memcpy_elem copied).trans ((z given r hr c hc).trans (memcpy_elem copied).symm)

/-- An iteration keeps the agreement and extends it to the buffer of W. -/
theorem Agree.iterate (sized : Sized A R mode) (sound : (initTiles A R).Sound)
    (less : p < (initTiles A R).total) (full : A.bufferN R.elemSize ≤ R.nSize)
    (agree : Agree A R whenW whenZ b b') (loaded : whenW ∨ p = 0)
    (stored : ((iterAt (initTiles A R) p).k == 0 && !isFirstIteration (iterAt (initTiles A R) p)) =
      true → whenZ) :
    Agree A R True whenZ (b.iterate A R (initTiles A R) mode (iterAt (initTiles A R) p))
      (b'.iterate A R (initTiles A R) mode (iterAt (initTiles A R) p)) := by
  obtain ⟨inside, -⟩ := iterAt_inside sound less
  have rows : min R.mSize A.bufferH ≤ A.bufferH := Nat.min_le_right _ _
  have cols : min R.kSize A.bufferW ≤ A.bufferW := Nat.min_le_right _ _
  have w : SameTile R.elemSize A.bufferW (A.bufferN R.elemSize) (min R.kSize A.bufferW)
      (loadWTile A R (initTiles A R) (iterAt (initTiles A R) p) b.w b.mem)
      (loadWTile A R (initTiles A R) (iterAt (initTiles A R) p) b'.w b'.mem) := by
    rw [← agree.mem]
    apply SameTile.loadW sized inside cols
    intro r hr c hc outside
    rcases loaded with given | rfl
    · exact agree.w given r hr c hc
    · -- the first W tile fills the buffer
      have j : (iterAt (initTiles A R) 0).j = 0 := by
        unfold iterAt
        rw [Nat.zero_div, Nat.zero_mod]
      have k : (iterAt (initTiles A R) 0).k = 0 := Nat.zero_mod _
      rw [j, k] at outside
      omega
  refine ⟨?_, agree.zStore, agree.width, agree.height, ?_, ?_, ?_, fun _ r hr c hc => ?_,
    agree.zPrevios⟩
  · unfold Contents.iterate
    dsimp only
    rw [← agree.mem, ← agree.zStore]
    split
    · rename_i stores
      exact storeZTile_congr sized rows agree.width agree.height cols
        (agree.zPrevios (stored stores))
    · rfl
  · unfold Contents.iterate
    dsimp only
    rw [← agree.mem]
    split
    · rename_i more
      rw [Bool.not_eq_true', ← Bool.not_eq_true, isLastIteration_iff sound less] at more
      have less' : p + 1 < (initTiles A R).total := by omega
      rw [nextTile_iterAt sound less']
      apply SameTile.loadX sized (iterAt_inside sound less').1
      intro r hr c hc _
      rw [cleared_x sized _ (Nat.lt_of_lt_of_le hr rows) hc,
        cleared_x sized _ (Nat.lt_of_lt_of_le hr rows) hc]
    · intro r hr c hc
      rw [cleared_x sized _ (Nat.lt_of_lt_of_le hr rows) hc,
        cleared_x sized _ (Nat.lt_of_lt_of_le hr rows) hc]
  · unfold Contents.iterate
    dsimp only
    rw [← agree.mem]
    split
    · rename_i more
      rw [Bool.and_eq_true, Bool.not_eq_true', ← Bool.not_eq_true, isLastIteration_iff sound less,
        lastK_iff sound] at more
      have less' : p + 1 < (initTiles A R).total := by omega
      rw [nextYTile_iterAt sound less' more.1]
      exact SameTile.loadY sized (iterAt_inside sound less').1 cols fun r hr c hc _ =>
        agree.y r hr c hc
    · exact agree.y
  · exact SameTile.compute sized rows cols agree.z agree.x w
  · have column := Nat.lt_of_lt_of_le hc cols
    exact (cleared_w sized _ hr column).trans (cleared_w sized _ hr column).symm

theorem initTiles_sound (sized : Sized A R mode) (m : 0 < R.mSize) (n : 0 < R.nSize)
    (k : 0 < R.kSize) :
    (initTiles A R).Sound where
  xRow_pos := tileCount_pos n
  xRow_lt := Nat.lt_of_le_of_lt (tileCount_le _ _) sized.nSize_lt
  zRow_pos := tileCount_pos k
  zRow_lt := Nat.lt_of_le_of_lt (tileCount_le _ _) sized.kSize_lt
  zCol_pos := tileCount_pos m
  zCol_lt := Nat.lt_of_le_of_lt (tileCount_le _ _) sized.mSize_lt

/-- After the first phase the runs agree, whatever was in the buffers, if the first X tile fills
its buffer. -/
theorem preload_agree (sized : Sized A R mode) (sound : (initTiles A R).Sound)
    (full : A.bufferN R.elemSize ≤ R.nSize) (mem : b.mem = b'.mem) :
    Agree A R False False ((b.preload A R).forward A R ⟨0, 0, 0⟩)
      ((b'.preload A R).forward A R ⟨0, 0, 0⟩) := by
  have inside : Iter.Inside (initTiles A R) ⟨0, 0, 0⟩ :=
    ⟨sound.zCol_pos, sound.zRow_pos, sound.xRow_pos⟩
  have mem' : (b.preload A R).mem = (b'.preload A R).mem := mem
  apply forward_agree sized inside mem'
  · unfold Contents.preload
    rw [← mem]
    apply SameTile.loadX sized inside
    intro r hr c hc outside
    dsimp only at outside
    omega
  · unfold Contents.preload
    rw [← mem]
    apply SameTile.loadY sized inside (Nat.min_le_right _ _)
    intro r hr c hc outside
    dsimp only at outside
    omega
  · exact False.elim
  · exact False.elim

/-- The runs agree before each iteration and before the last phase. -/
theorem passes_agree (sized : Sized A R mode) (sound : (initTiles A R).Sound)
    (full : A.bufferN R.elemSize ≤ R.nSize) (mem : b.mem = b'.mem) :
    ∀ p ≤ (initTiles A R).total, Agree A R (0 < p) ((initTiles A R).xRowTiles ≤ p)
      (b.passes A R (initTiles A R) mode (p + 1)) (b'.passes A R (initTiles A R) mode (p + 1)) := by
  intro p
  induction p with
  | zero =>
    intro _
    have first := preload_agree sized sound full mem
    have pos := sound.xRow_pos
    exact { first with
      w := fun none => absurd none (Nat.lt_irrefl 0)
      zPrevios := fun none => absurd none (Nat.not_le_of_gt pos) }
  | succ p ih =>
    intro le
    have less : p < (initTiles A R).total := le
    have pos := sound.xRow_pos
    obtain ⟨inside, -⟩ := iterAt_inside sound less
    have iterated := (ih (Nat.le_of_lt less)).iterate sized sound less full
      (Nat.eq_zero_or_pos p).symm fun stores => by
        rw [Bool.and_eq_true, Bool.not_eq_true', ← Bool.not_eq_true,
          isFirstIteration_iff sound less, beq_iff_eq] at stores
        have whole : p % (initTiles A R).xRowTiles = 0 := stores.1
        exact Nat.le_of_dvd (Nat.pos_of_ne_zero stores.2) (Nat.dvd_of_mod_eq_zero whole)
    have step : ∀ b : Contents, b.passes A R (initTiles A R) mode (p + 1 + 1) =
        (b.passes A R (initTiles A R) mode (p + 1)).routine A R (initTiles A R) mode
          (iterAt (initTiles A R) p) := by
      intro b
      rw [Contents.passes, Contents.pass, if_neg (Nat.succ_ne_zero p), if_pos le,
        Nat.add_sub_cancel]
    rw [step, step]
    unfold Contents.routine
    dsimp only
    split
    · have forwarded : Agree A R True True _ _ := forward_agree sized inside iterated.mem iterated.x
        iterated.y (fun _ => iterated.w trivial) fun _ => iterated.z
      exact { forwarded with
        w := fun _ => forwarded.w trivial
        zPrevios := fun _ => forwarded.zPrevios trivial }
    · rename_i inner
      rw [wrapK_iff sound] at inner
      refine { iterated with
        w := fun _ => iterated.w trivial
        zPrevios := fun complete => iterated.zPrevios ?_ }
      rcases Nat.eq_or_lt_of_le complete with last | before
      · rw [← last, Nat.mod_self] at inner
        exact absurd rfl inner
      · omega

/-- The runs end with the same memory. -/
theorem passes_mem (b b' : Contents) (sized : Sized A R mode) (sound : (initTiles A R).Sound)
    (full : A.bufferN R.elemSize ≤ R.nSize) (mem : b.mem = b'.mem) :
    (b.passes A R (initTiles A R) mode ((initTiles A R).total + 2)).mem =
      (b'.passes A R (initTiles A R) mode ((initTiles A R).total + 2)).mem := by
  have agree := passes_agree sized sound full mem _ (Nat.le_refl _)
  have complete : (initTiles A R).xRowTiles ≤ (initTiles A R).total :=
    Nat.le_mul_of_pos_left _ (Nat.mul_pos sound.zCol_pos sound.zRow_pos)
  have last : ∀ b : Contents, b.passes A R (initTiles A R) mode ((initTiles A R).total + 2) =
      (b.passes A R (initTiles A R) mode ((initTiles A R).total + 1)).storing A R
        (initTiles A R) := by
    intro b
    rw [Contents.passes, Contents.pass, if_neg (Nat.succ_ne_zero _),
      if_neg (Nat.not_succ_le_self _)]
  rw [last, last]
  unfold Contents.storing
  dsimp only
  rw [← agree.mem, ← agree.zStore]
  exact storeZTile_congr sized (Nat.min_le_right _ _) agree.width agree.height
    (Nat.min_le_right _ _) (agree.zPrevios complete)

end

end SoftHier.Redmule
