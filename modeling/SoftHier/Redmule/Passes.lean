import SoftHier.Redmule.Blocks
import SoftHier.Redmule.Iterations

/-!
# A job as operations on tiles

With the computation enabled, each phase of a job loads, computes and stores whole tiles.  What a
job does to the buffers and the TCDM is the composition of these operations.

* `loadXTile`, `loadWTile`, `loadYTile`, `storeZTile`: a tile between a buffer and the TCDM.
* `Contents.pass`: the operations of a phase.
* `phases_passes`: the phases of a job are these operations.
-/

namespace SoftHier.Redmule

/-- The buffers and the TCDM between two phases, with the size of the Z tile to be stored. -/
structure Contents where
  x : Buffer
  w : Buffer
  y : Buffer
  z : Buffer
  zPrevios : Buffer
  mem : Buffer
  zStore : Nat × Nat

/-! ## Tiles -/

section

variable (A : Arch) (R : Regs) (T : Tiles)

/-- The rows of the X tile of an iteration are loaded. -/
def loadXTile (it : Iter) (x mem : Buffer) : Buffer :=
  copyRows x (rowAt 0 A.bufferNByte) mem
    (rowAt (calculateTileBaseAddress A R R.xAddr R.nSize A.bufferH (A.bufferN R.elemSize) it.i it.k)
      (rowStep A R R.nSize (A.bufferN R.elemSize)))
    (cutoff (R.nSize * R.elemSize) it.k A.bufferNByte) (rowBlocks A R it.i)

/-- The number of rows of the W tile of an iteration. -/
def wRows (it : Iter) : Nat :=
  if it.k == sub32 T.xRowTiles 1 && decide (T.xRowLefts > 0) then T.xRowLefts
  else A.bufferN R.elemSize

/-- The rows of the W tile of an iteration are loaded. -/
def loadWTile (it : Iter) (w mem : Buffer) : Buffer :=
  copyRows w (rowAt 0 (A.bufferWByte R.elemSize)) mem
    (rowAt (calculateTileBaseAddress A R R.wAddr R.kSize (A.bufferN R.elemSize) A.bufferW it.k it.j)
      (rowStep A R R.kSize A.bufferW))
    (wCutoff A R it) (wRows A R T it)

/-- The rows of a Y tile are loaded. -/
def loadYTile (t : Nat × Nat) (y mem : Buffer) : Buffer :=
  copyRows y (rowAt 0 (A.bufferWByte R.elemSize)) mem
    (rowAt (calculateTileBaseAddress A R R.yAddr R.kSize A.bufferH A.bufferW t.1 t.2)
      (rowStep A R R.kSize A.bufferW))
    (cutoff (R.kSize * R.elemSize) t.2 (A.bufferWByte R.elemSize)) (rowBlocks A R t.1)

/-- A Z tile of the given width and height is stored. -/
def storeZTile (t size : Nat × Nat) (z mem : Buffer) : Buffer :=
  copyRows mem
    (rowAt (calculateTileBaseAddress A R R.zAddr R.kSize A.bufferH A.bufferW t.1 t.2)
      (rowStep A R R.kSize A.bufferW))
    z (rowAt 0 (A.bufferWByte R.elemSize)) (u32 (size.1 * R.elemSize)) size.2

end

/-! ## Phases -/

namespace Contents

section

variable (A : Arch) (R : Regs) (T : Tiles) (mode : Nat)

/-- `INSTR_FORWARD_YZ` -/
def forward (it : Iter) (b : Contents) : Contents where
  x := b.x
  w := b.w
  y := memzero b.y (A.bufferYZByte R.elemSize)
  z := memcpy b.z 0 b.y 0 (A.bufferYZByte R.elemSize)
  zPrevios := memcpy b.zPrevios 0 b.z 0 (A.bufferYZByte R.elemSize)
  mem := b.mem
  zStore := (zWidthCutoff A R it.j / R.elemSize, zHeightCutoff A R it.i / R.elemSize)

/-- The first tiles of Y and X are loaded. -/
def preload (b : Contents) : Contents :=
  { b with
    y := loadYTile A R (0, 0) b.y b.mem
    x := loadXTile A R ⟨0, 0, 0⟩ b.x b.mem }

/-- The accesses of an iteration. -/
def iterate (it : Iter) (b : Contents) : Contents where
  x :=
    let cleared := memzero b.x (u32 (A.ceHeight * A.bandwidth))
    if !isLastIteration T it then loadXTile A R (nextTile T it) cleared b.mem else cleared
  w := memzero (loadWTile A R T it b.w b.mem) (u32 (A.bufferW * A.bandwidth))
  y := if it.k == sub32 T.xRowTiles 1 && !isLastIteration T it then
      loadYTile A R (nextYTile T it) b.y b.mem
    else b.y
  z := compute A R mode b.z b.x (loadWTile A R T it b.w b.mem)
  zPrevios := b.zPrevios
  mem := if it.k == 0 && !isFirstIteration it then
      storeZTile A R (previousZTile T it) b.zStore b.zPrevios b.mem
    else b.mem
  zStore := b.zStore

/-- An iteration, at whose end the Z tile may be complete. -/
def routine (it : Iter) (b : Contents) : Contents :=
  let b := b.iterate A R T mode it
  if u32 (it.k + 1) = T.xRowTiles then b.forward A R it else b

/-- The last tile of Z is stored. -/
def storing (b : Contents) : Contents :=
  { b with
    mem := storeZTile A R (sub32 T.zColTiles 1, sub32 T.zRowTiles 1) b.zStore b.zPrevios b.mem }

/-- The operations of phase `n`. -/
def pass (n : Nat) (b : Contents) : Contents :=
  if n = 0 then (b.preload A R).forward A R ⟨0, 0, 0⟩
  else if n ≤ T.total then b.routine A R T mode (iterAt T (n - 1))
  else b.storing A R T

/-- The operations of the first `n` phases. -/
def passes : Nat → Contents → Contents
  | 0, b => b
  | n + 1, b => (passes n b).pass A R T mode n

end

end Contents

section

variable {Q : Type*} {A : Arch} {s s' u : Machine Q}

def View.contents (v : View) (zStore : Nat × Nat) : Contents :=
  ⟨v.x, v.w, v.y, v.z, v.zPrevios, v.mem, zStore⟩

def Machine.contents (s : Machine Q) : Contents := s.view.contents s.data.storeSize

/-- The cursor of the view. -/
structure View.At (v : View) (a : Access) : Prop where
  xAddr : v.xAddr = a.iterXAddr
  wAddr : v.wAddr = a.iterWAddr
  yAddr : v.yAddr = a.iterYAddr
  zAddr : v.zAddr = a.iterZAddr
  xBlocks : v.xBlocks = a.xAccBlock
  wBlocks : v.wBlocks = a.wAccBlock
  yBlocks : v.yBlocks = a.yAccBlock
  zBlocks : v.zBlocks = a.zAccBlock

variable {c : Setting} {v : View} {a : Access} {height : Nat}

theorem yCutoff_routine {R : Regs} {T : Tiles} {it : Iter} :
    yCutoff A R T it .routine =
      cutoff (R.kSize * R.elemSize) (nextYTile T it).2 (A.bufferWByte R.elemSize) := by
  unfold yCutoff nextYTile
  simp only [reduceCtorEq, or_false]
  split <;> rfl

theorem xCutoff_routine {R : Regs} {T : Tiles} {it : Iter} :
    xCutoff A R T it .routine =
      cutoff (R.nSize * R.elemSize) (nextTile T it).k A.bufferNByte := by
  unfold xCutoff nextTile
  simp only [reduceCtorEq, or_false]
  split
  · split <;> rfl
  · rfl

/-- Rows that are copied or not. -/
theorem copyRows_ite {b : Bool} {dst src : Buffer} {dest : Nat → Nat}
    {addr addr' step size rows : Nat} :
    copyRows dst dest src (rowAt (if b = true then addr else addr') step) size
        (if b = true then rows else 0) =
      if b = true then copyRows dst dest src (rowAt addr step) size rows else dst := by
  cases b <;> rfl

theorem lt_of_copied {b : Bool} {addr addr' rows bound : Nat}
    (pos : 0 < if b = true then rows else 0) (less : addr < bound) :
    (if b = true then addr else addr') < bound := by
  cases b with
  | false => cases pos
  | true => exact less

/-- The accesses of an iteration on its view. -/
theorem contents_routine
    (at' : v.At (getRoutineAccessBlockNumber A c.regs c.tiles c.iter height a).2)
    (state : c.state = .routine) {zStore : Nat × Nat} (width : c.zStoreWidth = zStore.1)
    (stored : isFirstIteration c.iter = false → height = zStore.2) :
    ((((v.loadedY A c).computed A c).loadedX A c).storedZ A c).contents zStore =
      (v.contents zStore).iterate A c.regs c.tiles c.computeAble c.iter := by
  have given := at'
  unfold getRoutineAccessBlockNumber at given
  unfold View.storedZ View.loadedX View.computed View.loadedY View.loadedW View.contents
    Contents.iterate
  dsimp only
  rw [given.xAddr, given.wAddr, given.yAddr, given.zAddr, given.xBlocks, given.wBlocks,
    given.yBlocks, given.zBlocks, state, yCutoff_routine, xCutoff_routine]
  dsimp only
  rw [copyRows_ite, copyRows_ite]
  have stores : copyRows v.mem (rowAt (if (c.iter.k == 0 && !isFirstIteration c.iter) = true then
      calculateTileBaseAddress A c.regs c.regs.zAddr c.regs.kSize A.bufferH A.bufferW
        (previousZTile c.tiles c.iter).1 (previousZTile c.tiles c.iter).2 else a.iterZAddr)
      (rowStep A c.regs c.regs.kSize A.bufferW)) v.zPrevios
      (rowAt 0 (A.bufferWByte c.regs.elemSize)) (u32 (c.zStoreWidth * c.regs.elemSize))
      (if (c.iter.k == 0 && !isFirstIteration c.iter) = true then height else 0) =
      if (c.iter.k == 0 && !isFirstIteration c.iter) = true then
        storeZTile A c.regs (previousZTile c.tiles c.iter) zStore v.zPrevios v.mem
      else v.mem := by
    cases given : c.iter.k == 0 && !isFirstIteration c.iter with
    | false => rfl
    | true =>
      have other : isFirstIteration c.iter = false := by
        rw [Bool.and_eq_true, Bool.not_eq_true'] at given
        exact given.2
      rw [if_pos rfl, if_pos rfl, stored other, width]
      rfl
  rw [stores]
  rfl

/-- The base address of the first tile. -/
theorem rowAt_first (R : Regs) (base stride tileCol tileRow step i : Nat) :
    rowAt (calculateTileBaseAddress A R base stride tileCol tileRow 0 0) step i =
      rowAt base step i := by
  have first : calculateTileBaseAddress A R base stride tileCol tileRow 0 0 = u32 base := by
    unfold calculateTileBaseAddress
    split <;> simp only [Nat.zero_mul, Nat.add_zero]
  rw [first, rowAt_u32]

theorem rowBlocks_first {R : Regs} (small : R.mSize < 2 ^ 32) :
    rowBlocks A R 0 = min R.mSize A.ceHeight := by
  have none : u32 (0 * A.ceHeight) = 0 := by rw [Nat.zero_mul]; rfl
  unfold rowBlocks
  rw [none, sub32_of_le (Nat.zero_le _) small, Nat.sub_zero]

/-- The accesses of the first phase on its view. -/
theorem contents_preload (at' : v.At (getPreloadAccessBlockNumber A c.regs (initAccess c.regs a)).2)
    (state : c.state = .preload) (small : c.regs.mSize < 2 ^ 32) (zStore : Nat × Nat) :
    (((v.loadedY A c).loadedX A c).storedZ A c).contents zStore =
      (v.contents zStore).preload A c.regs := by
  have given := at'
  unfold getPreloadAccessBlockNumber initAccess at given
  have y : yCutoff A c.regs c.tiles c.iter .preload =
      cutoff (c.regs.kSize * c.regs.elemSize) 0 (A.bufferWByte c.regs.elemSize) := by
    unfold yCutoff
    rw [if_pos (Or.inr rfl)]
  have x : xCutoff A c.regs c.tiles c.iter .preload =
      cutoff (c.regs.nSize * c.regs.elemSize) 0 A.bufferNByte := by
    unfold xCutoff
    rw [if_pos (Or.inr rfl)]
  unfold View.storedZ View.loadedX View.loadedY View.contents Contents.preload loadYTile loadXTile
  dsimp only
  rw [given.xAddr, given.yAddr, given.xBlocks, given.yBlocks, given.zBlocks, state, x, y,
    rowBlocks_first small]
  simp only [funext (rowAt_first _ _ _ _ _ _)]
  rfl

/-- The accesses of the last phase on its view. -/
theorem contents_storing {T : Tiles} {zStore : Nat × Nat}
    (at' : v.At (getStoringAccessBlockNumber A c.regs T zStore.2 a).2)
    (width : c.zStoreWidth = zStore.1) :
    (((v.loadedY A c).loadedX A c).storedZ A c).contents zStore =
      (v.contents zStore).storing A c.regs T := by
  have given := at'
  unfold getStoringAccessBlockNumber at given
  unfold View.storedZ View.loadedX View.loadedY View.contents Contents.storing
  dsimp only
  rw [given.xBlocks, given.yBlocks, given.zBlocks, given.zAddr, width]
  rfl

/-! ## The start of a phase -/

/-- The registers of a job whose counts do not wrap. -/
structure Regular (A : Arch) (R : Regs) : Prop where
  rows : 0 < A.bufferN R.elemSize
  counts : A.bufferN R.elemSize + 3 * A.bufferH < 2 ^ 32
  xAddr : R.xAddr < 2 ^ 32
  yAddr : R.yAddr < 2 ^ 32

/-- The cursor and the counters at the start of a phase. -/
structure Ready (A : Arch) (s : Machine Q) : Prop where
  rewound : s.view.Rewound
  width : s.fsm.state ≠ .preload →
    u32 (s.data.zStoreWidth * s.regs.elemSize) ≤ A.bufferWByte s.regs.elemSize
  height : s.fsm.state ≠ .preload → s.data.zStoreHeight ≤ A.bufferH
  preload : s.fsm.state = .preload → ∃ a,
    s.view.At (getPreloadAccessBlockNumber A s.regs (initAccess s.regs a)).2 ∧
      s.fsm.tcdmBlockTotal = (getPreloadAccessBlockNumber A s.regs (initAccess s.regs a)).1
  routine : s.fsm.state = .routine → ∃ height a,
    s.view.At (getRoutineAccessBlockNumber A s.regs s.tiles s.iter height a).2 ∧
      s.fsm.tcdmBlockTotal = (getRoutineAccessBlockNumber A s.regs s.tiles s.iter height a).1 ∧
        (isFirstIteration s.iter = false → height = s.data.zStoreHeight)
  storing : s.fsm.state = .storing → ∃ a,
    s.view.At (getStoringAccessBlockNumber A s.regs s.tiles s.data.zStoreHeight a).2 ∧
      s.fsm.tcdmBlockTotal =
        (getStoringAccessBlockNumber A s.regs s.tiles s.data.zStoreHeight a).1

theorem calculateTileBaseAddress_lt (R : Regs) (base stride tileCol tileRow i j : Nat) :
    calculateTileBaseAddress A R base stride tileCol tileRow i j < 2 ^ 32 := by
  unfold calculateTileBaseAddress
  split
  · exact u32_lt _
  · exact u32_lt _

theorem rowBlocks_le (R : Regs) (i : Nat) : rowBlocks A R i ≤ A.bufferH := Nat.min_le_right _ _

/-- The accesses of the first phase. -/
theorem accesses_preload (ready : Ready A s) (state : s.fsm.state = .preload)
    (enabled : s.computeAble ≠ 0) (regular : Regular A s.regs) (small : s.regs.mSize < 2 ^ 32)
    (ran : accesses A s.fsm.tcdmBlockTotal (settle s) = some u) :
    u.contents = s.contents.preload A s.regs ∧ u.view.Rewound := by
  obtain ⟨a, at', total⟩ := ready.preload state
  have noW : s.view.wBlocks = 0 := at'.wBlocks
  have noZ : s.view.zBlocks = 0 := at'.zBlocks
  have phased : Phased (settle s).setting (settle s).view :=
    ⟨enabled, fun _ => ⟨noW, noZ⟩, fun storing => absurd (state.symm.trans storing) nofun, by
      exact congrArg RedmuleState.active state⟩
  obtain ⟨nexts, -⟩ := accesses_view phased (fun pos => absurd noZ (Nat.ne_of_gt pos)) ran
  have count : s.fsm.tcdmBlockTotal = s.view.yBlocks + s.view.xBlocks + s.view.zBlocks := by
    have counts := regular.counts
    have rows : min s.regs.mSize A.ceHeight ≤ A.bufferH := Nat.min_le_right _ _
    rw [total, at'.yBlocks, at'.xBlocks, at'.zBlocks]
    exact u32_of_lt (by omega)
  have small' : s.view.Small :=
    ⟨fun _ => at'.xAddr ▸ regular.xAddr, fun pos => absurd noW (Nat.ne_of_gt pos),
      fun _ => at'.yAddr ▸ regular.yAddr, fun pos => absurd noZ (Nat.ne_of_gt pos)⟩
  have all := nexts_copies (A := A) (c := s.setting) ready.rewound small' noW
  have final := Option.some.inj ((count ▸ nexts).symm.trans all)
  have size := (accesses_trace ran).2
  constructor
  · unfold Machine.contents
    rw [final, size]
    exact contents_preload at' state small _
  · rw [final]
    exact ⟨rfl, ready.rewound.wPtr, rfl, rfl⟩

/-- The accesses of an iteration. -/
theorem accesses_routine (ready : Ready A s) (state : s.fsm.state = .routine)
    (enabled : s.computeAble ≠ 0) (regular : Regular A s.regs)
    (lefts : s.tiles.xRowLefts < A.bufferN s.regs.elemSize)
    (ran : accesses A s.fsm.tcdmBlockTotal (settle s) = some u) :
    u.contents = s.contents.iterate A s.regs s.tiles s.computeAble s.iter ∧ u.view.Rewound := by
  obtain ⟨height, a, at', total, same⟩ := ready.routine state
  have given := at'
  unfold getRoutineAccessBlockNumber at given total
  have phased : Phased (settle s).setting (settle s).view :=
    ⟨enabled, fun preload => absurd (state.symm.trans preload) nofun,
      fun storing => absurd (state.symm.trans storing) nofun, congrArg RedmuleState.active state⟩
  obtain ⟨nexts, -⟩ := accesses_view phased
    (fun _ => ready.width (by rw [state]; nofun)) ran
  have size := (accesses_trace ran).2
  have x := rowBlocks_le (A := A) s.regs (nextTile s.tiles s.iter).i
  have y := rowBlocks_le (A := A) s.regs (nextYTile s.tiles s.iter).1
  have counts := regular.counts
  have rows := regular.rows
  have pos : 0 < s.view.wBlocks := by
    rw [given.wBlocks]
    dsimp only
    split
    · rename_i partial'
      rw [Bool.and_eq_true] at partial'
      exact of_decide_eq_true partial'.2
    · exact rows
  have z : (if (s.iter.k == 0 && !isFirstIteration s.iter) = true then height else 0) ≤
      A.bufferH := by
    split
    · rename_i stores
      rw [Bool.and_eq_true, Bool.not_eq_true'] at stores
      rw [same stores.2]
      exact ready.height (by rw [state]; nofun)
    · exact Nat.zero_le _
  have count : s.fsm.tcdmBlockTotal =
      s.view.yBlocks + s.view.wBlocks + s.view.xBlocks + s.view.zBlocks := by
    rw [total, given.yBlocks, given.wBlocks, given.xBlocks, given.zBlocks]
    dsimp only
    rw [u32_of_lt]
    · omega
    · split <;> split <;> split <;> omega
  have small : s.view.Small := by
    refine ⟨fun pos => ?_, fun _ => ?_, fun pos => ?_, fun pos => ?_⟩
    · rw [given.xBlocks] at pos
      rw [given.xAddr]
      exact lt_of_copied pos (calculateTileBaseAddress_lt ..)
    · rw [given.wAddr]
      exact calculateTileBaseAddress_lt ..
    · rw [given.yBlocks] at pos
      rw [given.yAddr]
      exact lt_of_copied pos (calculateTileBaseAddress_lt ..)
    · rw [given.zBlocks] at pos
      rw [given.zAddr]
      exact lt_of_copied pos (calculateTileBaseAddress_lt ..)
  have all := nexts_routine (A := A) (c := s.setting) ready.rewound small pos
  have final := Option.some.inj ((count ▸ nexts).symm.trans all)
  constructor
  · unfold Machine.contents
    rw [final, size]
    exact contents_routine (c := s.setting) at' state rfl same
  · rw [final]
    exact ⟨rfl, rfl, rfl, rfl⟩

/-- The accesses of the last phase. -/
theorem accesses_storing (ready : Ready A s) (state : s.fsm.state = .storing)
    (enabled : s.computeAble ≠ 0)
    (ran : accesses A s.fsm.tcdmBlockTotal (settle s) = some u) :
    u.contents = s.contents.storing A s.regs s.tiles ∧ u.view.Rewound := by
  obtain ⟨a, at', total⟩ := ready.storing state
  have noY : s.view.yBlocks = 0 := at'.yBlocks
  have noW : s.view.wBlocks = 0 := at'.wBlocks
  have noX : s.view.xBlocks = 0 := at'.xBlocks
  have phased : Phased (settle s).setting (settle s).view :=
    ⟨enabled, fun preload => absurd (state.symm.trans preload) nofun, fun _ => ⟨noY, noW, noX⟩,
      congrArg RedmuleState.active state⟩
  obtain ⟨nexts, -⟩ := accesses_view phased (fun _ => ready.width (by rw [state]; nofun)) ran
  have count : s.fsm.tcdmBlockTotal = s.view.yBlocks + s.view.xBlocks + s.view.zBlocks := by
    rw [total, noY, noX, at'.zBlocks, Nat.zero_add]
    rfl
  have small : s.view.Small :=
    ⟨fun pos => absurd noX (Nat.ne_of_gt pos), fun pos => absurd noW (Nat.ne_of_gt pos),
      fun pos => absurd noY (Nat.ne_of_gt pos), fun _ => at'.zAddr ▸ calculateTileBaseAddress_lt ..⟩
  have all := nexts_copies (A := A) (c := s.setting) ready.rewound small noW
  have final := Option.some.inj ((count ▸ nexts).symm.trans all)
  have size := (accesses_trace ran).2
  constructor
  · unfold Machine.contents
    rw [final, size]
    exact contents_storing (c := s.setting) at' rfl
  · rw [final]
    exact ⟨rfl, ready.rewound.wPtr, rfl, rfl⟩

/-! ## Jumps -/

theorem forwardYZ_contents (enabled : s.computeAble ≠ 0) :
    (forwardYZ A s).contents = s.contents.forward A s.regs s.iter ∧
      ((forwardYZ A s).view.Rewound ↔ s.view.Rewound) := by
  unfold forwardYZ
  rw [if_pos enabled]
  exact ⟨rfl, ⟨fun rewound => ⟨rewound.xPtr, rewound.wPtr, rewound.yPtr, rewound.zPtr⟩,
    fun rewound => ⟨rewound.xPtr, rewound.wPtr, rewound.yPtr, rewound.zPtr⟩⟩⟩

/-- A tile has at most the width and height of the buffers. -/
theorem forward_fits (R : Regs) (it : Iter) :
    u32 (zWidthCutoff A R it.j / R.elemSize * R.elemSize) ≤ A.bufferWByte R.elemSize ∧
      zHeightCutoff A R it.i / R.elemSize ≤ A.bufferH := by
  have width : zWidthCutoff A R it.j ≤ A.bufferWByte R.elemSize := Nat.min_le_right _ _
  have part := Nat.div_mul_le_self (zWidthCutoff A R it.j) R.elemSize
  refine ⟨?_, zHeight_le it.i⟩
  exact Nat.le_trans (Nat.mod_le _ _) (Nat.le_trans part width)

theorem forwardYZ_fits (enabled : s.computeAble ≠ 0) :
    u32 ((forwardYZ A s).data.zStoreWidth * s.regs.elemSize) ≤ A.bufferWByte s.regs.elemSize ∧
      (forwardYZ A s).data.zStoreHeight ≤ A.bufferH := by
  unfold forwardYZ
  rw [if_pos enabled]
  exact forward_fits s.regs s.iter

/-- An iteration begins. -/
theorem enterRoutine_ready (rewound : s.view.Rewound)
    (width : u32 (s.data.zStoreWidth * s.regs.elemSize) ≤ A.bufferWByte s.regs.elemSize)
    (height : s.data.zStoreHeight ≤ A.bufferH) : Ready A (enterRoutine A s) := by
  refine ⟨⟨rewound.xPtr, rewound.wPtr, rewound.yPtr, rewound.zPtr⟩, fun _ => width, fun _ => height,
    fun preload => (by cases preload), fun _ => ?_, fun storing => (by cases storing)⟩
  exact ⟨s.data.zStoreHeight, s.access, ⟨rfl, rfl, rfl, rfl, rfl, rfl, rfl, rfl⟩, rfl, fun _ => rfl⟩

theorem enterStoring_ready (rewound : s.view.Rewound)
    (width : u32 (s.data.zStoreWidth * s.regs.elemSize) ≤ A.bufferWByte s.regs.elemSize)
    (height : s.data.zStoreHeight ≤ A.bufferH) : Ready A (enterStoring A s) := by
  refine ⟨⟨rewound.xPtr, rewound.wPtr, rewound.yPtr, rewound.zPtr⟩, fun _ => width, fun _ => height,
    fun preload => (by cases preload), fun routine => (by cases routine), fun _ => ?_⟩
  exact ⟨s.access, ⟨rfl, rfl, rfl, rfl, rfl, rfl, rfl, rfl⟩, rfl⟩

/-- The first iteration begins. -/
theorem leavePreload_ready (rewound : s.view.Rewound) (enabled : s.computeAble ≠ 0)
    (first : s.iter = ⟨0, 0, 0⟩) : Ready A (leavePreload A s) ∧
      (leavePreload A s).contents = s.contents.forward A s.regs s.iter := by
  have entered : (enterRoutine A s).view.Rewound :=
    ⟨rewound.xPtr, rewound.wPtr, rewound.yPtr, rewound.zPtr⟩
  have enabled' : (enterRoutine A s).computeAble ≠ 0 := enabled
  obtain ⟨contents, rewound'⟩ := forwardYZ_contents (A := A) enabled'
  obtain ⟨width, height⟩ := forwardYZ_fits (A := A) enabled'
  have job : (leavePreload A s).job = s.job := leavePreload_job
  have regs : (leavePreload A s).regs = s.regs := congrArg Prod.fst job
  have tiles : (leavePreload A s).tiles = s.tiles := congrArg (fun j => j.2.2) job
  have iter : (leavePreload A s).iter = s.iter := forwardYZ_iter
  have fsm : (leavePreload A s).fsm = (enterRoutine A s).fsm := forwardYZ_fsm
  refine ⟨⟨rewound'.mpr entered, fun _ => ?_, fun _ => height, fun preload => ?_, fun _ => ?_,
    fun storing => ?_⟩, contents⟩
  · rw [regs]
    exact width
  · rw [fsm] at preload
    cases preload
  · refine ⟨s.data.zStoreHeight, s.access, ?_, ?_, fun other => ?_⟩
    · rw [regs, tiles, iter]
      unfold leavePreload forwardYZ
      rw [if_pos enabled']
      exact ⟨rfl, rfl, rfl, rfl, rfl, rfl, rfl, rfl⟩
    · rw [regs, tiles, iter, fsm]
      rfl
    · rw [iter, first] at other
      cases other
  · rw [fsm] at storing
    cases storing

/-- The end of an iteration. -/
theorem leaveRoutine_ready (rewound : s.view.Rewound) (enabled : s.computeAble ≠ 0)
    (width : u32 (s.data.zStoreWidth * s.regs.elemSize) ≤ A.bufferWByte s.regs.elemSize)
    (height : s.data.zStoreHeight ≤ A.bufferH) : Ready A (leaveRoutine A s) ∧
      (leaveRoutine A s).contents =
        if u32 (s.iter.k + 1) = s.tiles.xRowTiles then s.contents.forward A s.regs s.iter
        else s.contents := by
  have forwarded : (forwardLast A s).view.Rewound ∧
      u32 ((forwardLast A s).data.zStoreWidth * s.regs.elemSize) ≤ A.bufferWByte s.regs.elemSize ∧
      (forwardLast A s).data.zStoreHeight ≤ A.bufferH ∧
      (forwardLast A s).contents =
        if u32 (s.iter.k + 1) = s.tiles.xRowTiles then s.contents.forward A s.regs s.iter
        else s.contents := by
    unfold forwardLast
    split
    · obtain ⟨contents, rewound'⟩ := forwardYZ_contents (A := A) enabled
      obtain ⟨width', height'⟩ := forwardYZ_fits (A := A) enabled
      exact ⟨rewound'.mpr rewound, width', height', contents⟩
    · exact ⟨rewound, width, height, rfl⟩
  obtain ⟨rewound', width', height', contents⟩ := forwarded
  have regs : (forwardLast A s).regs = s.regs := congrArg Prod.fst forwardLast_job
  rw [← regs] at width'
  rw [← contents]
  unfold leaveRoutine nextPhase
  dsimp only
  split
  · exact ⟨enterStoring_ready rewound' width' height', rfl⟩
  · exact ⟨enterRoutine_ready rewound' width' height', rfl⟩

/-! ## Phases -/

/-- A phase is its operations. -/
theorem phase_pass {n : Nat} (located : Located (initTiles A s.regs) n s)
    (le : n ≤ (initTiles A s.regs).total + 1) (ready : Ready A s) (enabled : s.computeAble ≠ 0)
    (regular : Regular A s.regs) (ended : phase A s = some s') :
    Ready A s' ∧
      s'.contents = s.contents.pass A s.regs (initTiles A s.regs) s.computeAble n := by
  obtain ⟨u, ran, state, iter, job, rfl⟩ := phase_eq_some ended
  rw [located.fresh, Nat.sub_zero] at ran
  have regs : u.regs = s.regs := congrArg Prod.fst job
  have mode : u.computeAble = s.computeAble := congrArg (fun j => j.2.1) job
  have tiles : u.tiles = s.tiles := congrArg (fun j => j.2.2) job
  have enabled' : u.computeAble ≠ 0 := mode ▸ enabled
  have size : u.data.storeSize = s.data.storeSize := (accesses_trace ran).2
  have fits : s.fsm.state ≠ .preload →
      u32 (u.data.zStoreWidth * u.regs.elemSize) ≤ A.bufferWByte u.regs.elemSize ∧
        u.data.zStoreHeight ≤ A.bufferH := by
    intro notPreload
    have width : u.data.zStoreWidth = s.data.zStoreWidth := congrArg Prod.fst size
    have height : u.data.zStoreHeight = s.data.zStoreHeight := congrArg Prod.snd size
    rw [width, height, regs]
    exact ⟨ready.width notPreload, ready.height notPreload⟩
  have stateAt := located.state
  unfold Tiles.stateAt at stateAt
  unfold Contents.pass
  split at stateAt
  · rename_i first
    obtain ⟨contents, rewound⟩ := accesses_preload ready stateAt enabled regular
      located.sound.bounded.mSize ran
    have start := iter.trans (located.start first)
    obtain ⟨ready', left⟩ := leavePreload_ready (A := A) rewound enabled' start
    rw [leave_preload (state.trans stateAt), if_pos first, left, contents, regs, start]
    exact ⟨ready', rfl⟩
  · rename_i notFirst
    rw [if_neg notFirst]
    split at stateAt
    · rename_i inside
      have lefts : s.tiles.xRowLefts < A.bufferN s.regs.elemSize := by
        rw [located.tiles]
        exact Nat.mod_lt _ regular.rows
      obtain ⟨contents, rewound⟩ := accesses_routine ready stateAt enabled regular lefts ran
      obtain ⟨width, height⟩ := fits (by rw [stateAt]; nofun)
      obtain ⟨ready', left⟩ := leaveRoutine_ready rewound enabled' width height
      have index : n - 1 = s.iter.index (initTiles A s.regs) := by
        have whole := located.iter stateAt
        omega
      have within := located.inside stateAt
      have named : iterAt (initTiles A s.regs) (n - 1) = s.iter := by
        rw [index]
        exact iterAt_index within
      have jump : leave A u = leaveRoutine A u := leave_routine (state.trans stateAt)
      rw [jump, if_pos inside, named, left, contents, regs, iter, tiles, located.tiles]
      exact ⟨ready', rfl⟩
    · rename_i outside
      rw [if_pos (by omega)] at stateAt
      obtain ⟨contents, rewound⟩ := accesses_storing ready stateAt enabled ran
      obtain ⟨width, height⟩ := fits (by rw [stateAt]; nofun)
      have left : (leaveStoring u).contents = u.contents := rfl
      rw [leave_storing (state.trans stateAt), if_neg outside, left, contents, located.tiles]
      refine ⟨⟨⟨rewound.xPtr, rewound.wPtr, rewound.yPtr, rewound.zPtr⟩, fun _ => width,
        fun _ => height, fun preload => (by cases preload), fun routine => (by cases routine),
        fun storing => (by cases storing)⟩, rfl⟩

/-- The phases of a job are its operations on tiles. -/
theorem phases_passes (located : Located (initTiles A s.regs) 0 s) (ready : Ready A s)
    (enabled : s.computeAble ≠ 0) (regular : Regular A s.regs) :
    ∀ n ≤ (initTiles A s.regs).total + 2, ∃ u, phases A n s = some u ∧
      u.contents = s.contents.passes A s.regs (initTiles A s.regs) s.computeAble n := by
  intro n le
  obtain ⟨u, ran, -, -, -, contents⟩ := phases_induct (A := A)
    (fun n u => Ready A u ∧
      u.contents = s.contents.passes A s.regs (initTiles A s.regs) s.computeAble n)
    located ⟨ready, rfl⟩
    (by
      intro n u u' le located' job kept ended _
      obtain ⟨ready', contents⟩ := kept
      have regs : u.regs = s.regs := congrArg Prod.fst job
      have mode : u.computeAble = s.computeAble := congrArg (fun j => j.2.1) job
      rw [← regs] at located' le
      obtain ⟨next, passed⟩ := phase_pass located' le ready' (mode ▸ enabled) (regs ▸ regular) ended
      refine ⟨next, ?_⟩
      rw [passed, contents, regs, mode]
      rfl)
    n le
  exact ⟨u, ran, contents⟩

/-- A job from its trigger to its end. -/
theorem job_contents {t : Machine Q} (bounded : Bounded s.fsm s.regs s.data)
    (triggered : trigger A s = some t) (enabled : s.computeAble ≠ 0) (regular : Regular A s.regs)
    (latency : Nat → Nat) :
    ∃ u, Finishes A latency t u ∧
      u.contents = s.contents.passes A s.regs (initTiles A s.regs) s.computeAble
        ((initTiles A s.regs).total + 2) := by
  have located := (trigger_located s.computeAble bounded triggered).1
  obtain ⟨-, -, -, rfl⟩ := trigger_eq triggered
  have ready : Ready A { initRedmuleMetaData A s with
      access := (getPreloadAccessBlockNumber A s.regs (initAccess s.regs s.access)).2
      fsm := s.fsm.enter .preload (getPreloadAccessBlockNumber A s.regs s.access).1 } := by
    refine ⟨⟨rfl, rfl, rfl, rfl⟩, fun other => absurd rfl other, fun other => absurd rfl other,
      fun _ => ⟨s.access, ⟨rfl, rfl, rfl, rfl, rfl, rfl, rfl, rfl⟩, rfl⟩,
      fun routine => (by cases routine), fun storing => (by cases storing)⟩
  obtain ⟨u, ran, contents⟩ := phases_passes located ready enabled regular _ (Nat.le_refl _)
  exact ⟨u, (finishes_iff latency located).mpr ran, contents⟩

end

end SoftHier.Redmule
