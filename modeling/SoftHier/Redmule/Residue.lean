import Mathlib.Algebra.BigOperators.Group.Finset.Piecewise
import SoftHier.Redmule.Leftovers
import SoftHier.Redmule.Stores

/-!
# Jobs and what was in the buffers before

The constructor does not clear the buffers.  The buffers of X and W are cleared after each
computation, but not before the first one: if the rows of X do not fill their buffer, the first
tile is computed with what was in the buffers.

* `passes_first`, `first_differs`: what becomes of that in the first element of Z.
* `HistoryFree`, `historyFree_iff`: the jobs that do not depend on the buffers.
* `first_job_differs`: the first job after construction.
-/

namespace SoftHier.Redmule

/-! ## The first element of Z -/

section

variable {A : Arch} {R : Regs} {mode p : Nat} {b b' : Contents}

theorem tileCount_short {size block : Nat} (pos : 0 < size) (short : size < block) :
    tileCount size block = 1 := by
  unfold tileCount
  rw [Nat.div_eq_of_lt short, Nat.mod_eq_of_lt short, if_pos pos]

/-- With one X tile in a row, the first element stored is that of the first tile. -/
theorem passes_first (sized : Sized A R mode) (fits : Fits A R) (sound : (initTiles A R).Sound)
    (small : R.zAddr < 2 ^ 32) (one : (initTiles A R).xRowTiles = 1)
    (less : p < (initTiles A R).total) :
    loadLe (b.passes A R (initTiles A R) mode (p + 3)).mem R.zAddr R.elemSize =
      elem R.elemSize (b.passes A R (initTiles A R) mode 2).zPrevios 0 := by
  have step : ∀ p < (initTiles A R).total,
      loadLe (b.passes A R (initTiles A R) mode (p + 3)).mem R.zAddr R.elemSize =
        if p = 0 then elem R.elemSize (b.passes A R (initTiles A R) mode (p + 2)).zPrevios 0
        else loadLe (b.passes A R (initTiles A R) mode (p + 2)).mem R.zAddr R.elemSize := by
    intro p less
    have tile : p < (initTiles A R).zColTiles * (initTiles A R).zRowTiles := by
      unfold Tiles.total at less
      rw [one, Nat.mul_one] at less
      exact less
    have size : (b.passes A R (initTiles A R) mode (p + 2)).zStore =
        tileSize A R (initTiles A R) p := by
      rw [Contents.passes, pass_zStore sound less, one, Nat.mod_one, if_pos rfl, Nat.div_one]
    rw [Contents.passes, pass_mem sound less, one, Nat.mod_one, if_pos ⟨Nat.succ_pos p, rfl⟩,
      Nat.div_one, Nat.succ_sub_one, size]
    exact storeZTile_first sized fits sound small tile
  induction p with
  | zero => rw [step 0 less, if_pos rfl]
  | succ p ih => rw [step (p + 1) less, if_neg (Nat.succ_ne_zero p), ih (Nat.lt_of_succ_lt less)]

/-- The first element of the first tile, if that is complete after one iteration. -/
theorem first_tile (sized : Sized A R mode) (sound : (initTiles A R).Sound)
    (one : (initTiles A R).xRowTiles = 1) :
    elem R.elemSize (b.passes A R (initTiles A R) mode 2).zPrevios 0 =
      elem R.elemSize (loadYTile A R (0, 0) b.y b.mem) 0 + ∑ n ∈
        Finset.range (A.bufferN R.elemSize), elem R.elemSize (loadXTile A R ⟨0, 0, 0⟩ b.x b.mem) n *
          elem R.elemSize (loadWTile A R (initTiles A R) ⟨0, 0, 0⟩ b.w b.mem) (n * A.bufferW) := by
  have h := sized.height_pos
  have w := sized.width_pos
  have inside : (0 + 1) * R.elemSize ≤ A.bufferYZByte R.elemSize := by
    rw [sized.yzByte_eq, ← Nat.mul_assoc]
    exact Nat.mul_le_mul_right _ (Nat.mul_pos h w)
  have last : u32 ((iterAt (initTiles A R) 0).k + 1) = (initTiles A R).xRowTiles := by
    rw [wrapK_iff sound, one]
  have product := compute_elem sized (memcpy b.z 0 (loadYTile A R (0, 0) b.y b.mem) 0
    (A.bufferYZByte R.elemSize)) (loadXTile A R ⟨0, 0, 0⟩ b.x b.mem)
    (loadWTile A R (initTiles A R) ⟨0, 0, 0⟩ b.w b.mem) h w
  simp only [Nat.zero_mul, Nat.zero_add, Nat.add_zero] at product
  rw [memcpy_elem inside] at product
  rw [Contents.passes, pass_routine sound.total_pos, iterAt_zero, Contents.routine,
    if_pos (iterAt_zero _ ▸ last)]
  exact (memcpy_elem inside).trans product

/-- The first element of Y is loaded into the tile. -/
theorem loadY_first (sized : Sized A R mode) (sound : (initTiles A R).Sound)
    (mem : b.mem = b'.mem) : elem R.elemSize (loadYTile A R (0, 0) b.y b.mem) 0 =
      elem R.elemSize (loadYTile A R (0, 0) b'.y b'.mem) 0 := by
  have inside : Iter.Inside (initTiles A R) ⟨0, 0, 0⟩ :=
    ⟨sound.zCol_pos, sound.zRow_pos, sound.xRow_pos⟩
  obtain ⟨hi, hj, -⟩ := inside.le sized
  have h := sized.height_pos
  have width := sized.width_pos
  have same : SameTile R.elemSize A.bufferW 1 1 (loadYTile A R (0, 0) b.y b.mem)
      (loadYTile A R (0, 0) b'.y b.mem) := by
    apply SameTile.loadY sized inside width
    intro r hr c hc outside
    dsimp only at outside hi hj
    omega
  have first := same 0 Nat.one_pos 0 Nat.one_pos
  rw [Nat.zero_mul] at first
  rw [← mem]
  exact first

/-- What is loaded of the first row of X, and behind it what was in the buffer. -/
theorem loadX_row (sized : Sized A R mode) (sound : (initTiles A R).Sound) (mem : Buffer) :
    ∃ row : Nat → BitVec (8 * R.elemSize), ∀ x n, n < A.bufferN R.elemSize →
      elem R.elemSize (loadXTile A R ⟨0, 0, 0⟩ x mem) n =
        if n < R.nSize then row n else elem R.elemSize x n := by
  have inside : Iter.Inside (initTiles A R) ⟨0, 0, 0⟩ :=
    ⟨sound.zCol_pos, sound.zRow_pos, sound.xRow_pos⟩
  obtain ⟨hi, -, hk⟩ := inside.le sized
  have h := sized.height_pos
  refine ⟨fun n => loadLe mem (rowAt (calculateTileBaseAddress A R R.xAddr R.nSize A.bufferH
    (A.bufferN R.elemSize) 0 0) (rowStep A R R.nSize (A.bufferN R.elemSize)) 0 + n * R.elemSize)
    R.elemSize, fun x n less => ?_⟩
  have element : elem R.elemSize (loadXTile A R ⟨0, 0, 0⟩ x mem) (0 * _ + n) = _ :=
    loadXTile_elem sized (Nat.le_of_lt hi) (Nat.le_of_lt hk) less
  simp only [Nat.zero_mul, Nat.zero_add, Nat.sub_zero] at element hi
  exact element.trans (if_congr (by omega) rfl rfl)

/-- What is loaded of the first column of W, and below it what was in the buffer. -/
theorem loadW_column (sized : Sized A R mode) (sound : (initTiles A R).Sound) (mem : Buffer) :
    ∃ column : Nat → BitVec (8 * R.elemSize), ∀ w n, n < A.bufferN R.elemSize →
      elem R.elemSize (loadWTile A R (initTiles A R) ⟨0, 0, 0⟩ w mem) (n * A.bufferW) =
        if n < R.nSize then column n else elem R.elemSize w (n * A.bufferW) := by
  have inside : Iter.Inside (initTiles A R) ⟨0, 0, 0⟩ :=
    ⟨sound.zCol_pos, sound.zRow_pos, sound.xRow_pos⟩
  obtain ⟨-, hj, -⟩ := inside.le sized
  have width := sized.width_pos
  refine ⟨fun n => loadLe mem (rowAt (calculateTileBaseAddress A R R.wAddr R.kSize
    (A.bufferN R.elemSize) A.bufferW 0 0) (rowStep A R R.kSize A.bufferW) n) R.elemSize,
    fun w n less => ?_⟩
  have element : elem R.elemSize (loadWTile A R (initTiles A R) ⟨0, 0, 0⟩ w mem)
      (n * A.bufferW + 0) = _ := loadWTile_elem sized (Nat.le_of_lt hj) inside.k width
  simp only [Nat.zero_mul, Nat.add_zero, Nat.sub_zero] at element hj
  exact element.trans (if_congr (by omega) rfl rfl)

/-- An element of X and one of W beyond the rows of the matrices are multiplied and added. -/
theorem first_differs (b b' : Contents) (sized : Sized A R mode) (sound : (initTiles A R).Sound)
    (n : 0 < R.nSize) (short : R.nSize < A.bufferN R.elemSize) (mem : b.mem = b'.mem)
    (x : ∀ c, R.nSize ≤ c → elem R.elemSize b.x c = if c = R.nSize then 1 else 0)
    (w : elem R.elemSize b.w (R.nSize * A.bufferW) = 1)
    (x' : ∀ c, R.nSize ≤ c → elem R.elemSize b'.x c = 0) :
    elem R.elemSize (b.passes A R (initTiles A R) mode 2).zPrevios 0 =
      elem R.elemSize (b'.passes A R (initTiles A R) mode 2).zPrevios 0 + 1 := by
  have one : (initTiles A R).xRowTiles = 1 := tileCount_short n short
  obtain ⟨row, xs⟩ := loadX_row sized sound b'.mem
  obtain ⟨column, ws⟩ := loadW_column sized sound b'.mem
  have terms : ∀ n ∈ Finset.range (A.bufferN R.elemSize),
      elem R.elemSize (loadXTile A R ⟨0, 0, 0⟩ b.x b'.mem) n *
          elem R.elemSize (loadWTile A R (initTiles A R) ⟨0, 0, 0⟩ b.w b'.mem) (n * A.bufferW) =
        elem R.elemSize (loadXTile A R ⟨0, 0, 0⟩ b'.x b'.mem) n *
            elem R.elemSize (loadWTile A R (initTiles A R) ⟨0, 0, 0⟩ b'.w b'.mem) (n * A.bufferW) +
          if n = R.nSize then 1 else 0 := by
    intro n mem
    have less := Finset.mem_range.mp mem
    rw [xs _ n less, xs _ n less, ws _ n less, ws _ n less]
    rcases Nat.lt_or_ge n R.nSize with loaded | beyond
    · rw [if_pos loaded, if_pos loaded, if_pos loaded, if_pos loaded, if_neg (Nat.ne_of_lt loaded),
        add_zero]
    · have outside := Nat.not_lt.mpr beyond
      rw [if_neg outside, if_neg outside, if_neg outside, if_neg outside, x n beyond, x' n beyond,
        zero_mul, zero_add]
      split
      · rename_i same
        rw [same, w, one_mul]
      · exact zero_mul _
  rw [first_tile sized sound one, first_tile sized sound one, loadY_first sized sound mem, mem,
    Finset.sum_congr rfl terms, Finset.sum_add_distrib, Finset.sum_ite_eq',
    if_pos (Finset.mem_range.mpr short), add_assoc]

end

/-! ## Jobs -/

/-- The accelerator with the contents of other buffers. -/
def Machine.withBuffers {Q : Type*} (s : Machine Q) (d : Datapath) : Machine Q :=
  { s with data := { s.data with
      accessBuffer := d.accessBuffer
      yBufferPreload := d.yBufferPreload
      wBuffer := d.wBuffer
      xBuffer := d.xBuffer
      zBufferCompute := d.zBufferCompute
      zBufferPrevios := d.zBufferPrevios } }

/-- Whatever is in the buffers when a core starts a job, the job ends with the same memory. -/
def HistoryFree {Q : Type*} (A : Arch) (r : IoReq) (s : Machine Q) : Prop :=
  ∀ (d d' : Datapath) (latency : Nat → Nat), ∃ e e' u u',
    coreAccReq A r (s.withBuffers d) = some e ∧ coreAccReq A r (s.withBuffers d') = some e' ∧
      Finishes A latency e.machine u ∧ Finishes A latency e'.machine u' ∧ u.mem = u'.mem

/-- Buffers with a one in one element of X and in one of W. -/
def residue (elemSize x w : Nat) : Datapath :=
  { zeroDatapath with
    xBuffer := storeLe (fun _ => 0) (x * elemSize) elemSize 1
    wBuffer := storeLe (fun _ => 0) (w * elemSize) elemSize 1 }

section

variable {Q : Type*} {A : Arch} {s : Machine Q} {r : IoReq}

theorem residue_elem {elemSize x w c : Nat} :
    elem elemSize (residue elemSize x w).xBuffer c = if c = x then 1 else 0 := by
  split
  · rename_i same
    rw [same]
    exact elem_storeLe
  · rename_i other
    exact (elem_storeLe_of_ne (Ne.symm other)).trans (loadLe_zero fun _ _ => rfl)

/-- What a job leaves; the registers do not depend on the buffers. -/
theorem start_withBuffers (start : r.offset = 4) (idle : s.fsm.state = .idle)
    (bounded : Bounded s.fsm s.regs s.data) (m : 0 < s.regs.mSize) (n : 0 < s.regs.nSize)
    (k : 0 < s.regs.kSize) (sized : Sized A (configureXWY r s).regs (configureXWY r s).computeAble)
    (d : Datapath) (latency : Nat → Nat) : ∃ e u, coreAccReq A r (s.withBuffers d) = some e ∧
      Finishes A latency e.machine u ∧ (∀ v, Finishes A latency e.machine v → v = u) ∧
      u.contents = (s.withBuffers d).contents.passes A (configureXWY r s).regs
        (initTiles A (configureXWY r s).regs) (configureXWY r s).computeAble
        ((initTiles A (configureXWY r s).regs).total + 2) :=
  start_contents (s := s.withBuffers d) start idle
    ⟨bounded.fsm, bounded.mSize, bounded.nSize, bounded.kSize, bounded.height⟩ m n k sized latency

/-- A row of X fills its buffer. -/
theorem historyFree_of_full (start : r.offset = 4) (idle : s.fsm.state = .idle)
    (bounded : Bounded s.fsm s.regs s.data) (m : 0 < s.regs.mSize) (n : 0 < s.regs.nSize)
    (k : 0 < s.regs.kSize) (sized : Sized A (configureXWY r s).regs (configureXWY r s).computeAble)
    (full : A.bandwidth ≤ s.regs.nSize * (configureXWY r s).regs.elemSize) : HistoryFree A r s := by
  intro d d' latency
  obtain ⟨e, u, started, finished, -, contents⟩ :=
    start_withBuffers start idle bounded m n k sized d latency
  obtain ⟨e', u', started', finished', -, contents'⟩ :=
    start_withBuffers start idle bounded m n k sized d' latency
  refine ⟨e, e', u, u', started, started', finished, finished', ?_⟩
  rw [sized.bandwidth_eq] at full
  have rows := Nat.le_of_mul_le_mul_right full sized.elemSize_pos
  have same := passes_mem (s.withBuffers d).contents (s.withBuffers d').contents sized
    (initTiles_sound sized m n k) rows rfl
  rw [← contents, ← contents'] at same
  exact same

/-- A row of X does not fill its buffer: the same job with and without a residue in the buffers. -/
theorem not_historyFree_of_short (start : r.offset = 4) (idle : s.fsm.state = .idle)
    (bounded : Bounded s.fsm s.regs s.data) (m : 0 < s.regs.mSize) (n : 0 < s.regs.nSize)
    (k : 0 < s.regs.kSize) (sized : Sized A (configureXWY r s).regs (configureXWY r s).computeAble)
    (fits : Fits A (configureXWY r s).regs)
    (short : s.regs.nSize < A.bufferN (configureXWY r s).regs.elemSize) : ¬ HistoryFree A r s := by
  intro free
  have sound := initTiles_sound sized m n k
  have one : (initTiles A (configureXWY r s).regs).xRowTiles = 1 := tileCount_short n short
  have last := Nat.sub_lt sound.total_pos Nat.one_pos
  obtain ⟨e, e', u, u', started, started', finished, finished', same⟩ :=
    free (residue (configureXWY r s).regs.elemSize s.regs.nSize (s.regs.nSize * A.bufferW))
      zeroDatapath fun _ => 0
  obtain ⟨e₁, u₁, started₁, -, unique, contents⟩ := start_withBuffers start idle bounded m n k sized
    (residue (configureXWY r s).regs.elemSize s.regs.nSize (s.regs.nSize * A.bufferW)) fun _ => 0
  obtain ⟨e₂, u₂, started₂, -, unique', contents'⟩ :=
    start_withBuffers start idle bounded m n k sized zeroDatapath fun _ => 0
  obtain rfl := Option.some.inj (started₁.symm.trans started)
  obtain rfl := Option.some.inj (started₂.symm.trans started')
  obtain rfl := unique u finished
  obtain rfl := unique' u' finished'
  have stored := fun b => passes_first (b := b) sized fits sound (loadLe r.data 8 4).isLt one last
  have count : (initTiles A (configureXWY r s).regs).total - 1 + 3 =
      (initTiles A (configureXWY r s).regs).total + 2 := by
    have pos := sound.total_pos
    omega
  rw [count] at stored
  have first := stored (s.withBuffers (residue (configureXWY r s).regs.elemSize s.regs.nSize
    (s.regs.nSize * A.bufferW))).contents
  have first' := stored (s.withBuffers zeroDatapath).contents
  rw [← contents] at first
  rw [← contents'] at first'
  have differs :=
    first_differs (s.withBuffers (residue (configureXWY r s).regs.elemSize s.regs.nSize
    (s.regs.nSize * A.bufferW))).contents (s.withBuffers zeroDatapath).contents sized sound n short
    rfl (fun c _ => residue_elem (w := s.regs.nSize * A.bufferW)) elem_storeLe fun c _ =>
      loadLe_zero fun _ _ => rfl
  have equal : u.contents.mem = u'.contents.mem := same
  rw [← first, ← first', equal] at differs
  have none : (1 : BitVec (8 * (configureXWY r s).regs.elemSize)) = 0 := left_eq_add.mp differs
  have size := BitVec.one_eq_zero_iff.mp none
  have pos := sized.elemSize_pos
  omega

/-- A job does not depend on the buffers if a row of X fills its buffer; and only then, if the
addresses of the Z matrix do not wrap. -/
theorem historyFree_iff (start : r.offset = 4) (idle : s.fsm.state = .idle)
    (bounded : Bounded s.fsm s.regs s.data) (m : 0 < s.regs.mSize) (n : 0 < s.regs.nSize)
    (k : 0 < s.regs.kSize)
    (sized : Sized A (configureXWY r s).regs (configureXWY r s).computeAble) :
    (A.bandwidth ≤ s.regs.nSize * (configureXWY r s).regs.elemSize → HistoryFree A r s) ∧
      (Fits A (configureXWY r s).regs →
        (HistoryFree A r s ↔ A.bandwidth ≤ s.regs.nSize * (configureXWY r s).regs.elemSize)) := by
  have enough := historyFree_of_full start idle bounded m n k sized
  refine ⟨enough, fun fits => ⟨fun free => ?_, enough⟩⟩
  by_contra partial'
  rw [sized.bandwidth_eq] at partial'
  exact not_historyFree_of_short start idle bounded m n k sized fits
    (Nat.lt_of_mul_lt_mul_right (Nat.lt_of_not_le partial')) free

end

/-- The request of a core for a product of one element. -/
def oneElement : IoReq := ⟨0, true, fun i => if i = 0 ∨ i = 2 ∨ i = 4 then 1 else 0⟩

/-- The request of a core that starts a job in mode 1, with X at 0, W at 16 and Y at 32. -/
def startOne : IoReq :=
  ⟨4, true, fun i => if i = 4 then 16 else if i = 8 then 32 else if i = 12 then 1 else 0⟩

theorem historyFree_tinySystem : HistoryFree tinyArch startOne tinySystem.machine := by
  have sound : tinySystem.machine.Sound := initial_sound.machine
  have sized : Sized tinyArch (configureXWY startOne tinySystem.machine).regs
      (configureXWY startOne tinySystem.machine).computeAble := by
    constructor <;> decide
  obtain ⟨enough, -⟩ :=
    historyFree_iff (r := startOne) rfl rfl sound.bounded (by decide) (by decide) (by decide) sized
  exact enough (by decide)

/-- The accelerator after construction and that request, on a TCDM that is all zero. -/
def oneMachine : Machine Unit :=
  configureMNK oneElement (System.initial 2 (residue 2 1 2) fun _ => 0 : System Unit).machine

/-- The first job after construction stores a one that was in the buffers. -/
theorem first_job_differs : ∃ s t u u',
    (System.initial 2 (residue 2 1 2) fun _ => 0 : System Unit).step tinyArch
      (.coreAcc oneElement) =
        some (s, .ok) ∧
      s.step tinyArch (.coreAcc startOne) = some (t, .ok) ∧
      Finishes tinyArch (fun _ => 0) t.machine u ∧
      Finishes tinyArch (fun _ => 0) (t.machine.withBuffers zeroDatapath) u' ∧
      u.mem 32 = 1 ∧ u'.mem 32 = 0 := by
  have sound : (System.initial 2 (residue 2 1 2) fun _ => 0 : System Unit).machine.Sound :=
    initial_sound.machine
  obtain ⟨fsm, -, -, -, height⟩ := sound.bounded
  have bounded : Bounded oneMachine.fsm oneMachine.regs oneMachine.data :=
    ⟨fsm, by decide, by decide, by decide, height⟩
  have pos : 0 < oneMachine.regs.mSize ∧ 0 < oneMachine.regs.nSize ∧ 0 < oneMachine.regs.kSize := by
    decide
  have sized : Sized tinyArch (configureXWY startOne oneMachine).regs 1 := by
    constructor <;> decide
  obtain ⟨e, u, started, finished, -, contents⟩ :=
    start_withBuffers (r := startOne) rfl rfl bounded pos.1 pos.2.1 pos.2.2 sized (residue 2 1 2)
      fun _ => 0
  obtain ⟨e', u', started', finished', -, contents'⟩ :=
    start_withBuffers (r := startOne) rfl rfl bounded pos.1 pos.2.1 pos.2.2 sized zeroDatapath
      fun _ => 0
  have job := Option.some.inj started
  have job' := Option.some.inj started'
  subst job
  subst job'
  refine ⟨_, _, u, u', rfl, rfl, finished, finished', ?_, ?_⟩
  · have stored : u.mem = u.contents.mem := rfl
    rw [stored, contents]
    decide
  · have stored : u'.mem = u'.contents.mem := rfl
    rw [stored, contents']
    decide

end SoftHier.Redmule
