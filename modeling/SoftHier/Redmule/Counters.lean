import SoftHier.Redmule.TileAccess

/-!
# The counters of a phase

The blocks of a phase are counted when it begins, requested one by one, and counted once more by
the state machine.  The sizes of a job with computation have 16 bits, and none of these counts
leaves its 32.

* `checkedSub`, `routineChecked`, `storingChecked`: the functions that count the blocks, with
  subtractions that fail when they underflow.
* `routine_checked`, `storing_checked`: during a job none of them fails.
* `routine_total`, `preload_total`, `storing_total`: the total of a phase is the number of its
  blocks.
* `Counted`: what is counted and what is left are the total.
* `Move`, `event_moves`: an event keeps that, and goes on with its phase or begins the next one.
-/

namespace SoftHier.Redmule

/-! ## Subtractions -/

/-- `a - b`, which has no result if it underflows. -/
def checkedSub (a b : Nat) : Option Nat := if b ≤ a then some (a - b) else none

theorem checkedSub_of_le {a b : Nat} (le : b ≤ a) (small : a < 2 ^ 32) :
    checkedSub a b = some (sub32 a b) := by
  unfold checkedSub
  rw [if_pos le, sub32_of_le le small]

section

variable (A : Arch) (R : Regs) (T : Tiles) (it : Iter)

/-- `m_size - _i * ce_height`, at most `ce_height`, without a wrapping operation. -/
def rowBlocksChecked (i : Nat) : Option Nat :=
  (checkedSub R.mSize (i * A.ceHeight)).map (min · A.ceHeight)

/-- `previousZTile` with checked subtractions. -/
def previousZTileChecked : Option (Nat × Nat) :=
  if it.j = 0 then do
    let i ← checkedSub it.i 1
    let j ← checkedSub T.zRowTiles 1
    some (i, j)
  else do
    let j ← checkedSub it.j 1
    some (it.i, j)

/-- `get_routine_access_block_number` with checked subtractions. -/
def routineChecked (zStoreHeight : Nat) (a : Access) : Option (Nat × Access) := do
  let lastCol ← checkedSub T.zColTiles 1
  let lastRow ← checkedSub T.zRowTiles 1
  let lastDepth ← checkedSub T.xRowTiles 1
  let bufferN := A.bufferN R.elemSize
  let lastK := it.k == lastDepth
  let last := it.i == lastCol && it.j == lastRow && lastK
  let wBlocks := if lastK && decide (T.xRowLefts > 0) then T.xRowLefts else bufferN
  let xTile := nextTile T it
  let xBlocks ← (if !last then rowBlocksChecked A R xTile.i else some 0 : Option Nat)
  let yTile := nextYTile T it
  let yBlocks ← (if lastK && !last then rowBlocksChecked A R yTile.1 else some 0 : Option Nat)
  let storeZ := it.k == 0 && !isFirstIteration it
  let zBlocks := if storeZ then zStoreHeight else 0
  let iterZAddr ← (if storeZ then (previousZTileChecked T it).map fun zTile =>
      calculateTileBaseAddress A R R.zAddr R.kSize A.bufferH A.bufferW zTile.1 zTile.2
    else some a.iterZAddr : Option Nat)
  some (u32 (wBlocks + xBlocks + yBlocks + zBlocks),
    { iterXAddr := if !last then
        calculateTileBaseAddress A R R.xAddr R.nSize A.bufferH bufferN xTile.i xTile.k
          else a.iterXAddr
      iterWAddr := calculateTileBaseAddress A R R.wAddr R.kSize bufferN A.bufferW it.k it.j
      iterYAddr := if lastK && !last then
        calculateTileBaseAddress A R R.yAddr R.kSize A.bufferH A.bufferW yTile.1 yTile.2
          else a.iterYAddr
      iterZAddr := iterZAddr
      xAccBlock := xBlocks
      wAccBlock := wBlocks
      yAccBlock := yBlocks
      zAccBlock := zBlocks
      iterInstruction := a.iterInstruction })

/-- `get_storing_access_block_number` with checked subtractions. -/
def storingChecked (zStoreHeight : Nat) (a : Access) : Option (Nat × Access) := do
  let lastCol ← checkedSub T.zColTiles 1
  let lastRow ← checkedSub T.zRowTiles 1
  some (zStoreHeight,
    { a with
      iterZAddr := calculateTileBaseAddress A R R.zAddr R.kSize A.bufferH A.bufferW lastCol lastRow
      xAccBlock := 0
      wAccBlock := 0
      yAccBlock := 0
      zAccBlock := zStoreHeight })

end

section

variable {A : Arch} {R : Regs} {T : Tiles} {it : Iter}

/-- A tile of the matrix begins inside of it, also if the blocks are empty. -/
theorem mul_le_of_tile {index size block : Nat} (less : index < tileCount size block) :
    index * block ≤ size := by
  rcases Nat.eq_zero_or_pos block with rfl | pos
  · exact Nat.zero_le _
  · exact Nat.le_of_lt (mul_le_of_lt_tileCount pos less)

theorem rowBlocks_checked {i : Nat} (inside : i < (initTiles A R).zColTiles)
    (small : R.mSize < 2 ^ 32) :
    rowBlocksChecked A R i = some (rowBlocks A R i) := by
  have le : i * A.ceHeight ≤ R.mSize := mul_le_of_tile inside
  unfold rowBlocksChecked rowBlocks
  rw [u32_of_lt (Nat.lt_of_le_of_lt le small), checkedSub_of_le le small]
  rfl

/-- Only the last iteration is followed by none. -/
theorem index_succ_lt (sound : T.Sound) (inside : it.Inside T)
    (more : isLastIteration T it = false) :
    it.index T + 1 < T.total := by
  have below := index_lt inside
  have last := isLastIteration_iff sound below
  rw [iterAt_index inside, more] at last
  have notLast : it.index T + 1 ≠ T.total := fun same => Bool.false_ne_true (last.mpr same)
  omega

theorem nextTile_inside (sound : T.Sound) (inside : it.Inside T)
    (more : isLastIteration T it = false) :
    (nextTile T it).Inside T := by
  have less := index_succ_lt sound inside more
  have next := nextTile_iterAt sound less
  rw [iterAt_index inside] at next
  rw [next]
  exact (iterAt_inside sound less).1

theorem nextYTile_inside (sound : T.Sound) (inside : it.Inside T)
    (loadY : (it.k == sub32 T.xRowTiles 1 && !isLastIteration T it) = true) :
    (nextYTile T it).1 < T.zColTiles := by
  obtain ⟨last, more⟩ := Bool.and_eq_true_iff.mp loadY
  have less := index_succ_lt sound inside (by rw [← Bool.not_eq_true', more])
  have index := iterAt_index inside
  have whole := (lastK_iff (p := it.index T) sound).mp (by rw [index]; exact last)
  have next := nextYTile_iterAt sound less whole
  rw [index] at next
  rw [next]
  exact (iterAt_inside sound less).1.i

/-- An iteration that stores a Z tile is not in the first tile. -/
theorem previousZTile_checked (sound : T.Sound) (inside : it.Inside T)
    (storeZ : (it.k == 0 && !isFirstIteration it) = true) :
    previousZTileChecked T it = some (previousZTile T it) := by
  have i := inside.i
  have j := inside.j
  have col := sound.zCol_lt
  have row := sound.zRow_lt
  unfold previousZTileChecked previousZTile
  split
  · rename_i first
    have later : 1 ≤ it.i := by
      by_contra none
      obtain ⟨k, notFirst⟩ := Bool.and_eq_true_iff.mp storeZ
      have zero : it.i = 0 := by omega
      unfold isFirstIteration at notFirst
      rw [zero, first, k] at notFirst
      cases notFirst
    rw [checkedSub_of_le later (by omega), checkedSub_of_le sound.zRow_pos row]
    rfl
  · rename_i later
    rw [checkedSub_of_le (Nat.pos_of_ne_zero later) (by omega)]
    rfl

/-- During a job no subtraction of `get_routine_access_block_number` underflows. -/
theorem routine_checked (tiles : T = initTiles A R) (sound : T.Sound) (inside : it.Inside T)
    (small : R.mSize < 2 ^ 32) (zStoreHeight : Nat) (a : Access) :
    routineChecked A R T it zStoreHeight a =
      some (getRoutineAccessBlockNumber A R T it zStoreHeight a) := by
  have rows : ∀ i < T.zColTiles, rowBlocksChecked A R i = some (rowBlocks A R i) := fun i less =>
    rowBlocks_checked (tiles ▸ less) small
  have isLast : (it.i == sub32 T.zColTiles 1 && it.j == sub32 T.zRowTiles 1 &&
      it.k == sub32 T.xRowTiles 1) = isLastIteration T it := rfl
  have x : (if !isLastIteration T it then rowBlocksChecked A R (nextTile T it).i else some 0) =
      some (if !isLastIteration T it then rowBlocks A R (nextTile T it).i else 0) := by
    cases more : isLastIteration T it with
    | true => rfl
    | false => exact rows _ (nextTile_inside sound inside more).i
  have y : (if it.k == sub32 T.xRowTiles 1 && !isLastIteration T it then
        rowBlocksChecked A R (nextYTile T it).1 else some 0) =
      some (if it.k == sub32 T.xRowTiles 1 && !isLastIteration T it then
        rowBlocks A R (nextYTile T it).1 else 0) := by
    split
    · rename_i loadY
      exact rows _ (nextYTile_inside sound inside loadY)
    · rfl
  have z : (if it.k == 0 && !isFirstIteration it then (previousZTileChecked T it).map fun zTile =>
        calculateTileBaseAddress A R R.zAddr R.kSize A.bufferH A.bufferW zTile.1 zTile.2
      else some a.iterZAddr) =
      some (if it.k == 0 && !isFirstIteration it then
        calculateTileBaseAddress A R R.zAddr R.kSize A.bufferH A.bufferW (previousZTile T it).1
          (previousZTile T it).2 else a.iterZAddr) := by
    split
    · rename_i storeZ
      rw [previousZTile_checked sound inside storeZ, Option.map_some]
    · rfl
  unfold routineChecked
  rw [checkedSub_of_le sound.zCol_pos sound.zCol_lt, checkedSub_of_le sound.zRow_pos sound.zRow_lt,
    checkedSub_of_le sound.xRow_pos sound.xRow_lt]
  simp only [Option.bind_eq_bind, Option.bind_some]
  rw [isLast, x, Option.bind_some, y, Option.bind_some, z, Option.bind_some]
  rfl

/-- During a job no subtraction of `get_storing_access_block_number` underflows. -/
theorem storing_checked (sound : T.Sound) (zStoreHeight : Nat) (a : Access) :
    storingChecked A R T zStoreHeight a =
      some (getStoringAccessBlockNumber A R T zStoreHeight a) := by
  unfold storingChecked
  rw [checkedSub_of_le sound.zCol_pos sound.zCol_lt, checkedSub_of_le sound.zRow_pos sound.zRow_lt]
  rfl

/-! ## Totals -/

/-- A W tile has no more rows than W. -/
theorem wRows_le (less : it.k < (initTiles A R).xRowTiles) :
    wRows A R (initTiles A R) it ≤ R.nSize := by
  unfold wRows
  split
  · exact Nat.mod_le _ _
  · rename_i whole
    by_contra larger
    have short : R.nSize < A.bufferN R.elemSize := Nat.lt_of_not_le larger
    have count : (initTiles A R).xRowTiles = tileCount R.nSize (A.bufferN R.elemSize) := rfl
    have lefts : (initTiles A R).xRowLefts = R.nSize := Nat.mod_eq_of_lt short
    have pos : 0 < R.nSize := Nat.lt_of_le_of_lt (Nat.zero_le _)
      (Nat.lt_of_lt_of_le less (tileCount_le R.nSize _))
    -- the only tile is the last one, and not whole
    have one : (initTiles A R).xRowTiles = 1 := by
      rw [count]
      unfold tileCount
      rw [Nat.div_eq_of_lt short, Nat.mod_eq_of_lt short, if_pos pos]
    have first : it.k = 0 := by omega
    rw [one, lefts, first] at whole
    exact whole (Bool.and_eq_true_iff.mpr ⟨rfl, decide_eq_true pos⟩)

/-- The tiles of X, Y and Z have no more rows than the matrices. -/
theorem rowBlocks_le_size {i : Nat} (inside : i < (initTiles A R).zColTiles)
    (small : R.mSize < 2 ^ 32) :
    rowBlocks A R i ≤ R.mSize := by
  rw [rowBlocks_eq (mul_le_of_tile inside) small]
  exact Nat.le_trans (Nat.min_le_left _ _) (Nat.sub_le _ _)

theorem zHeight_le_size {i : Nat} (inside : i < (initTiles A R).zColTiles) :
    zHeightCutoff A R i / R.elemSize ≤ R.mSize := by
  rcases Nat.eq_zero_or_pos i with rfl | later
  · have first : zHeightCutoff A R 0 ≤ R.mSize * R.elemSize := by
      apply Nat.le_trans (Nat.min_le_left _ _)
      rw [Nat.zero_mul]
      exact Nat.le_trans (Nat.le_of_eq (sub32_of_le (Nat.zero_le _) (u32_lt _))) (Nat.mod_le _ _)
    exact Nat.div_le_of_le_mul (Nat.mul_comm _ _ ▸ first)
  · -- there is a whole tile above this one
    have le : i * A.bufferH ≤ R.mSize := mul_le_of_tile inside
    exact Nat.le_trans (zHeight_le i) (Nat.le_trans (Nat.le_mul_of_pos_left _ later) le)

/-- The total of an iteration is the number of its blocks. -/
theorem routine_total {zStoreHeight : Nat} {a : Access} (tiles : T = initTiles A R)
    (sound : T.Sound) (inside : it.Inside T) (m : R.mSize < 2 ^ 16) (n : R.nSize < 2 ^ 16)
    (stored : isFirstIteration it = false → zStoreHeight ≤ R.mSize) :
    (getRoutineAccessBlockNumber A R T it zStoreHeight a).1 =
      (getRoutineAccessBlockNumber A R T it zStoreHeight a).2.blocks := by
  have rows : ∀ i < T.zColTiles, rowBlocks A R i ≤ R.mSize := fun i less =>
    rowBlocks_le_size (tiles ▸ less) (by omega)
  have w : (getRoutineAccessBlockNumber A R T it zStoreHeight a).2.wAccBlock ≤ R.nSize := by
    rw [tiles]
    exact wRows_le (tiles ▸ inside.k)
  have x : (getRoutineAccessBlockNumber A R T it zStoreHeight a).2.xAccBlock ≤ R.mSize := by
    unfold getRoutineAccessBlockNumber
    dsimp only
    cases more : isLastIteration T it with
    | true => exact Nat.zero_le _
    | false => exact rows _ (nextTile_inside sound inside more).i
  have y : (getRoutineAccessBlockNumber A R T it zStoreHeight a).2.yAccBlock ≤ R.mSize := by
    unfold getRoutineAccessBlockNumber
    dsimp only
    split
    · rename_i loadY
      exact rows _ (nextYTile_inside sound inside loadY)
    · exact Nat.zero_le _
  have z : (getRoutineAccessBlockNumber A R T it zStoreHeight a).2.zAccBlock ≤ R.mSize := by
    unfold getRoutineAccessBlockNumber
    dsimp only
    split
    · rename_i storeZ
      obtain ⟨-, later⟩ := Bool.and_eq_true_iff.mp storeZ
      exact stored (by rw [← Bool.not_eq_true', later])
    · exact Nat.zero_le _
  have total : (getRoutineAccessBlockNumber A R T it zStoreHeight a).1 =
      u32 ((getRoutineAccessBlockNumber A R T it zStoreHeight a).2.wAccBlock +
        (getRoutineAccessBlockNumber A R T it zStoreHeight a).2.xAccBlock +
        (getRoutineAccessBlockNumber A R T it zStoreHeight a).2.yAccBlock +
        (getRoutineAccessBlockNumber A R T it zStoreHeight a).2.zAccBlock) := rfl
  rw [total, u32_of_lt (by omega)]
  unfold Access.blocks
  omega

theorem preload_total {a : Access} (m : R.mSize < 2 ^ 16) :
    (getPreloadAccessBlockNumber A R a).1 = (getPreloadAccessBlockNumber A R a).2.blocks := by
  have rows : min R.mSize A.ceHeight ≤ R.mSize := Nat.min_le_left _ _
  unfold getPreloadAccessBlockNumber Access.blocks
  dsimp only
  rw [u32_of_lt (by omega)]
  rfl

theorem storing_total {zStoreHeight : Nat} {a : Access} :
    (getStoringAccessBlockNumber A R T zStoreHeight a).2.blocks =
      (getStoringAccessBlockNumber A R T zStoreHeight a).1 := by
  exact Nat.zero_add _

end

/-! ## Events -/

/-- No answer is awaited at the start of a phase, and nothing is counted outside of the phases with
accesses. -/
structure Fsm.Fresh (f : Fsm) : Prop where
  start : f.fsmCounter = 0 → f.pendingReqQueue = []
  resting : f.state.active = false → f.fsmCounter = 0

namespace Fsm

variable {f : Fsm}

theorem Fresh.receive (fresh : f.Fresh) : f.tick.receive.Fresh := by
  refine ⟨fun zero => ?_, fresh.resting⟩
  have received : f.pendingReqQueue = [] := fresh.start zero
  unfold Fsm.receive Fsm.tick
  dsimp only
  rw [received, List.dropWhile_nil]

theorem Fresh.advance (fresh : f.Fresh) (sound : f.Sound) (active : f.state.active = true)
    (queueDepth latency : Nat) : (f.advance queueDepth latency).Fresh := by
  unfold Fsm.advance
  split
  · rename_i send
    have counter : (f.tick.push latency).receive.fsmCounter = f.fsmCounter + 1 :=
      push_counter latency sound send
    refine ⟨fun zero => ?_, fun resting => ?_⟩
    · exact absurd (counter.symm.trans zero) (Nat.succ_ne_zero _)
    · exact absurd (active.symm.trans resting) (by decide)
  · exact fresh.receive

theorem fresh_enter (received : f.pendingReqQueue = []) (state : RedmuleState) (total : Nat) :
    (f.enter state total).Fresh :=
  ⟨fun _ => received, fun _ => rfl⟩

/-- At the start of a phase there is a request to send, or the phase is over. -/
theorem sent_of_busy {queueDepth : Nat} (fresh : f.Fresh) (wait : f.tick.canSend queueDepth = false)
    (busy : f.tick.receive.drained = false) : 0 < f.fsmCounter := by
  apply Nat.pos_of_ne_zero
  intro zero
  have received : f.pendingReqQueue = [] := fresh.start zero
  have all : f.tcdmBlockTotal ≤ f.fsmCounter := by
    by_contra more
    have send : f.tick.canSend queueDepth = true := canSend_iff.mpr ⟨Nat.lt_of_not_le more, by
      rw [show f.tick.pendingReqQueue = [] from received]
      exact Nat.zero_le _⟩
    exact Bool.false_ne_true (wait.symm.trans send)
  have drained : f.tick.receive.drained = true := drained_iff.mpr ⟨all, fresh.receive.start zero⟩
  exact Bool.false_ne_true (busy.symm.trans drained)

end Fsm

section

variable {Q : Type*} {A : Arch} {s s' : Machine Q} {e : Effect Q}

/-- A job with computation whose blocks fit into the counters. -/
structure Countable (A : Arch) (s : Machine Q) : Prop where
  enabled : s.computeAble ≠ 0
  tiles : s.tiles = initTiles A s.regs
  mSize : s.regs.mSize < 2 ^ 16
  nSize : s.regs.nSize < 2 ^ 16

/-- The invariant of the counters: what is counted and what is left are the total of the phase. -/
structure Counted (A : Arch) (s : Machine Q) : Prop where
  job : Countable A s
  counters : s.fsm.fsmCounter + s.access.blocks = s.fsm.tcdmBlockTotal
  first : s.fsm.state = .preload → s.iter = ⟨0, 0, 0⟩
  height : s.fsm.state ≠ .preload → s.data.zStoreHeight ≤ s.regs.mSize

/-- How an event goes through the phases. -/
inductive Move (s s' : Machine Q) : Prop
  | stay (state : s'.fsm.state = s.fsm.state) (iter : s'.iter = s.iter)
    (sent : 0 < s'.fsm.fsmCounter)
  | first (preload : s.fsm.state = .preload) (routine : s'.fsm.state = .routine)
      (iter : s'.iter = ⟨0, 0, 0⟩) (start : s'.fsm.fsmCounter = 0)
  | next (routine : s.fsm.state = .routine) (routine' : s'.fsm.state = .routine)
      (iter : s'.iter.index s.tiles = s.iter.index s.tiles + 1) (start : s'.fsm.fsmCounter = 0)
  | last (routine : s.fsm.state = .routine) (storing : s'.fsm.state = .storing)
      (iter : s.iter.index s.tiles + 1 = s.tiles.total)
  | finish (storing : s.fsm.state = .storing) (finished : s'.fsm.state = .finished)

theorem Move.of_same {u : Machine Q} (move : Move u s') (state : u.fsm.state = s.fsm.state)
    (iter : u.iter = s.iter) (tiles : u.tiles = s.tiles) : Move s s' := by
  cases move with
  | stay state' iter' sent => exact .stay (state'.trans state) (iter'.trans iter) sent
  | first preload routine iter' start => exact .first (state.symm.trans preload) routine iter' start
  | next routine routine' iter' start =>
    rw [iter, tiles] at iter'
    exact .next (state.symm.trans routine) routine' iter' start
  | last routine storing index =>
    rw [iter, tiles] at index
    exact .last (state.symm.trans routine) storing index
  | finish storing finished => exact .finish (state.symm.trans storing) finished

theorem Countable.of_job (countable : Countable A s) (job : s'.job = s.job) : Countable A s' := by
  obtain ⟨regs, rest⟩ := Prod.mk.inj job
  obtain ⟨mode, tiles⟩ := Prod.mk.inj rest
  refine ⟨?_, ?_, ?_, ?_⟩
  · rw [mode]
    exact countable.enabled
  · rw [tiles, regs]
    exact countable.tiles
  · rw [regs]
    exact countable.mSize
  · rw [regs]
    exact countable.nSize

/-- A request is counted, and its block is not left any more. -/
theorem accessPhase_counted {before after : IterInstruction → Bool} {status : TcdmStatus}
    (sound : s.Sound) (fresh : s.fsm.Fresh) (counted : Counted A s)
    (accessed : accessPhase A before after status { s with fsm := s.fsm.tick } = some s') :
    Counted A s' ∧ s'.fsm.state = s.fsm.state ∧
      (s'.fsm.drained = false → 0 < s'.fsm.fsmCounter) := by
  obtain ⟨wait, rfl⟩ | ⟨send, latency, sent, -, made, rfl⟩ := accessPhase_cases accessed
  · exact ⟨⟨counted.job.of_job rfl, counted.counters, counted.first, counted.height⟩, rfl,
      Fsm.sent_of_busy fresh wait⟩
  · obtain ⟨one, -⟩ := sendRequest_sound made sound.bounded.height
    have size := congrArg Prod.snd (sendRequest_storeSize made)
    have counter := Fsm.push_counter latency sound.bounded.fsm send
    have counters := counted.counters
    obtain ⟨r, a, d, mem, -, rfl⟩ := sendRequest_cases made
    have counter' : (s.fsm.tick.push latency).receive.fsmCounter = s.fsm.fsmCounter + 1 := counter
    have total : (s.fsm.tick.push latency).receive.tcdmBlockTotal = s.fsm.tcdmBlockTotal := rfl
    refine ⟨⟨counted.job.of_job rfl, ?_, counted.first, fun later => ?_⟩, rfl, fun _ => ?_⟩
    · dsimp only at one ⊢
      omega
    · exact Nat.le_trans (Nat.le_of_eq size) (counted.height later)
    · exact Nat.lt_of_lt_of_eq (Nat.succ_pos _) counter'.symm

theorem forwardYZ_blocks : (forwardYZ A s).access.blocks = s.access.blocks := by
  unfold forwardYZ
  split <;> rfl

/-- `INSTR_FORWARD_YZ` leaves a Z tile that has no more rows than Z. -/
theorem forwardYZ_height (countable : Countable A s) (inside : s.iter.i < s.tiles.zColTiles) :
    (forwardYZ A s).data.zStoreHeight ≤ s.regs.mSize := by
  have size : (forwardYZ A s).data.zStoreHeight =
      zHeightCutoff A s.regs s.iter.i / s.regs.elemSize :=
    congrArg Prod.snd (forwardYZ_storeSize.trans (if_neg countable.enabled))
  rw [size]
  exact zHeight_le_size (countable.tiles ▸ inside)

/-- A phase begins with all its blocks left. -/
theorem enterRoutine_counters (countable : Countable A s) (tiles : s.tiles.Sound)
    (inside : s.iter.Inside s.tiles)
    (stored : isFirstIteration s.iter = false → s.data.zStoreHeight ≤ s.regs.mSize) :
    (enterRoutine A s).fsm.fsmCounter + (enterRoutine A s).access.blocks =
      (enterRoutine A s).fsm.tcdmBlockTotal := by
  have total := routine_total (a := s.access) countable.tiles tiles inside countable.mSize
    countable.nSize stored
  exact (Nat.zero_add _).trans total.symm

theorem leavePreload_counted (sound : s.Sound) (counted : Counted A s)
    (preload : s.fsm.state = .preload) :
    Counted A (leavePreload A s) ∧ Move s (leavePreload A s) := by
  have tiles := sound.tiles (active_of_eq preload rfl)
  have start := counted.first preload
  have inside : s.iter.Inside s.tiles := by
    rw [start]
    exact ⟨tiles.zCol_pos, tiles.zRow_pos, tiles.xRow_pos⟩
  have fsm : (leavePreload A s).fsm = (enterRoutine A s).fsm := forwardYZ_fsm
  have entered : Countable A (enterRoutine A s) := counted.job.of_job rfl
  have counters := enterRoutine_counters counted.job tiles inside fun later => by
    rw [start] at later
    cases later
  have routine : (leavePreload A s).fsm.state = .routine := congrArg Fsm.state fsm
  have iter : (leavePreload A s).iter = ⟨0, 0, 0⟩ := forwardYZ_iter.trans start
  refine ⟨⟨counted.job.of_job leavePreload_job, ?_, fun first => ?_, fun _ => ?_⟩,
    .first preload routine iter (congrArg Fsm.fsmCounter fsm)⟩
  · have blocks : (leavePreload A s).access.blocks = (enterRoutine A s).access.blocks :=
      forwardYZ_blocks
    rw [fsm, blocks]
    exact counters
  · rw [routine] at first
    cases first
  · have regs : (leavePreload A s).regs = s.regs := congrArg Prod.fst leavePreload_job
    rw [regs]
    exact forwardYZ_height entered inside.i

theorem leaveRoutine_counted (sound : s.Sound) (counted : Counted A s)
    (routine : s.fsm.state = .routine) :
    Counted A (leaveRoutine A s) ∧ Move s (leaveRoutine A s) := by
  have tiles := sound.tiles (active_of_eq routine rfl)
  have inside := sound.inside routine
  have job : (forwardLast A s).job = s.job := forwardLast_job
  have regs : (forwardLast A s).regs = s.regs := congrArg Prod.fst job
  have tiles' : (forwardLast A s).tiles = s.tiles := congrArg (fun j => j.2.2) job
  have iter : (forwardLast A s).iter = s.iter := forwardLast_iter
  have height : (forwardLast A s).data.zStoreHeight ≤ s.regs.mSize := by
    obtain same | same := forwardLast_cases (A := A) (s := s)
    · rw [same]
      exact counted.height (by rw [routine]; decide)
    · rw [same]
      exact forwardYZ_height counted.job inside.i
  have left : leaveRoutine A s = nextPhase A (forwardLast A s) := rfl
  rw [left]
  obtain ⟨-, it, inside', index, -, next⟩ | ⟨ended, next⟩ := nextPhase_cases (A := A)
    (s := forwardLast A s) (by rw [tiles']; exact tiles) (by rw [iter, tiles']; exact inside)
  · -- the next iteration
    have countable : Countable A { forwardLast A s with iter := it } := counted.job.of_job job
    have counters := enterRoutine_counters countable (tiles'.symm ▸ tiles) inside'
      fun _ => regs.symm ▸ height
    rw [next]
    refine ⟨⟨countable.of_job rfl, counters, fun first => (by cases first), fun _ => ?_⟩,
      .next routine rfl ?_ rfl⟩
    · exact Nat.le_trans height (Nat.le_of_eq (congrArg Regs.mSize regs.symm))
    · rw [tiles', iter] at index
      exact index
  · -- the last phase
    have countable : Countable A (forwardLast A s) := counted.job.of_job job
    rw [next]
    refine ⟨⟨countable.of_job rfl, ?_, fun first => (by cases first), fun _ => ?_⟩,
      .last routine rfl ?_⟩
    · exact (Nat.zero_add _).trans storing_total
    · exact Nat.le_trans height (Nat.le_of_eq (congrArg Regs.mSize regs.symm))
    · rw [tiles', iter] at ended
      exact ended

theorem leaveStoring_counted (counted : Counted A s) (storing : s.fsm.state = .storing)
    (drained : s.fsm.drained = true) : Counted A (leaveStoring s) ∧ Move s (leaveStoring s) := by
  have all := (Fsm.drained_iff.mp drained).1
  have counters := counted.counters
  have none : s.access.blocks = 0 := by omega
  refine ⟨⟨counted.job.of_job rfl, ?_, fun first => (by cases first), fun _ => ?_⟩,
    .finish storing rfl⟩
  · exact (Nat.zero_add _).trans none
  · exact counted.height (by rw [storing]; decide)

/-- Every event of a job keeps the counters, and goes on with the phase or begins the next one. -/
theorem event_moves {status : TcdmStatus} (sound : s.Sound) (fresh : s.fsm.Fresh)
    (counted : Counted A s) (active : s.fsm.state.active = true)
    (handled : fsmHandler A status s = some e) :
    Counted A e.machine ∧ Move s e.machine := by
  obtain ⟨s₁, accessed, next⟩ := fsmHandler_active active handled
  obtain ⟨sound₁, -, job, iter, -, -⟩ := accessPhase_spec sound active accessed
  obtain ⟨counted₁, state₁, sent⟩ := accessPhase_counted sound fresh counted accessed
  rw [next]
  cases drained : s₁.fsm.drained with
  | false => exact ⟨counted₁, .stay state₁ iter (sent drained)⟩
  | true =>
    -- the first half of the event has changed neither the state nor the iteration
    have moved : Counted A (leave A s₁) ∧ Move s₁ (leave A s₁) := by
      cases state : s₁.fsm.state with
      | preload =>
        rw [leave_preload state]
        exact leavePreload_counted sound₁ counted₁ state
      | routine =>
        rw [leave_routine state]
        exact leaveRoutine_counted sound₁ counted₁ state
      | storing =>
        rw [leave_storing state]
        exact leaveStoring_counted counted₁ state drained
      | _ =>
        rw [← state₁, state] at active
        cases active
    obtain ⟨counted', move⟩ := moved
    exact ⟨counted', move.of_same state₁ iter (congrArg (fun j => j.2.2) job)⟩

end

end SoftHier.Redmule
