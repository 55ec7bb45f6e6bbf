import Mathlib.Data.List.TakeWhile
import Mathlib.Data.Prod.Lex
import SoftHier.Redmule.Steps

/-!
# Progress of the state machine

Whatever the latencies and whatever is requested meanwhile, an event of a running accelerator is
not fatal and brings it nearer to the end of its job.

* `Fsm.Sound`, `Fsm.advance`: the counters of a phase, and what one event does to them.
* `Machine.Sound`: the invariant of the accelerator.
* `rank`, `fsmHandler_rank`: every event of a running accelerator decreases the rank.
* `fsmHandler_isSome`: no event is fatal if the TCDM answers.
-/

namespace SoftHier.Redmule

/-! ## The counters of a phase -/

/-- The state machine is working on a job. -/
def RedmuleState.active : RedmuleState → Bool
  | .preload | .routine | .storing => true
  | _ => false

theorem active_of_eq {s r : RedmuleState} (same : s = r) (active : r.active = true) :
    s.active = true := by
  rw [same, active]

/-- A state with accesses is none of those without. -/
theorem ne_of_active {s r : RedmuleState} (active : s.active = true) (resting : r.active = false) :
    s ≠ r := by
  intro same
  rw [same, resting] at active
  cases active

/-- A machine in one state is in no other. -/
theorem other_state {s r other : RedmuleState} {P : Prop} (same : s = r) (ne : other ≠ r) :
    s = other → P :=
  fun is => absurd (is.symm.trans same) ne

namespace Fsm

/-- The invariant of the counters. -/
structure Sound (f : Fsm) : Prop where
  counter_le : f.fsmCounter ≤ f.tcdmBlockTotal
  total_lt : f.tcdmBlockTotal < 2 ^ 32
  stamps : ∀ stamp ∈ f.pendingReqQueue, stamp < 2 ^ 32
  time : f.state.active = true → f.pendingReqQueue ≠ [] → f.fsmTimestamp + 1 < 2 ^ 32

/-- What is left to do in a phase: two units for each request to be sent, and one for each answer
to be received. -/
def work (f : Fsm) : Nat := 2 * (f.tcdmBlockTotal - f.fsmCounter) + f.pendingReqQueue.length

/-- One event on the counters of a phase. -/
def advance (f : Fsm) (queueDepth latency : Nat) : Fsm :=
  if f.tick.canSend queueDepth then (f.tick.push latency).receive else f.tick.receive

variable {f : Fsm}

theorem receive_sound (counter : f.fsmCounter ≤ f.tcdmBlockTotal)
    (total : f.tcdmBlockTotal < 2 ^ 32) (stamps : ∀ stamp ∈ f.pendingReqQueue, stamp < 2 ^ 32) :
    f.receive.Sound := by
  have stamps' : ∀ stamp ∈ f.receive.pendingReqQueue, stamp < 2 ^ 32 := fun stamp mem =>
    stamps stamp (List.dropWhile_subset _ mem)
  refine ⟨counter, total, stamps', fun _ waiting => ?_⟩
  have late := List.head_dropWhile_not (fun stamp => decide (stamp ≤ f.fsmTimestamp)) waiting
  have bound := stamps' _ (List.head_mem waiting)
  have late' := of_decide_eq_false late
  exact Nat.lt_of_le_of_lt (Nat.lt_of_not_le late') bound

theorem receive_length : f.receive.pendingReqQueue.length ≤ f.pendingReqQueue.length :=
  List.length_dropWhile_le _ _

theorem receive_eq_self (same : f.receive.pendingReqQueue.length = f.pendingReqQueue.length) :
    f.receive = f := by
  have kept : f.receive.pendingReqQueue = f.pendingReqQueue :=
    (List.dropWhile_suffix _).eq_of_length same
  exact congrArg (fun queue => { f with pendingReqQueue := queue }) kept

theorem canSend_iff {queueDepth : Nat} : f.canSend queueDepth = true ↔
    f.fsmCounter < f.tcdmBlockTotal ∧ f.pendingReqQueue.length ≤ queueDepth := decide_eq_true_iff

theorem drained_iff : f.drained = true ↔
    f.tcdmBlockTotal ≤ f.fsmCounter ∧ f.pendingReqQueue = [] := decide_eq_true_iff

theorem push_counter {queueDepth : Nat} (latency : Nat) (sound : f.Sound)
    (send : f.tick.canSend queueDepth = true) :
    (f.tick.push latency).fsmCounter = f.fsmCounter + 1 := by
  have less : f.fsmCounter < f.tcdmBlockTotal := (canSend_iff.mp send).1
  have total := sound.total_lt
  exact u32_of_lt (n := f.fsmCounter + 1) (by omega)

theorem advance_sound (queueDepth latency : Nat) (sound : f.Sound) :
    (f.advance queueDepth latency).Sound := by
  unfold advance
  split
  · rename_i send
    have less : f.fsmCounter < f.tcdmBlockTotal := (canSend_iff.mp send).1
    have counter := push_counter latency sound send
    apply receive_sound
    · exact counter ▸ less
    · exact sound.total_lt
    · intro stamp mem
      obtain old | new := List.mem_append.mp mem
      · exact sound.stamps stamp old
      · rw [List.mem_singleton.mp new]
        exact u32_lt _
  · exact receive_sound sound.counter_le sound.total_lt sound.stamps

/-- An event ends the phase, does some of its work, or brings the time nearer to the next answer. -/
theorem advance_progress (queueDepth latency : Nat) (sound : f.Sound)
    (active : f.state.active = true) :
    (f.advance queueDepth latency).drained = true ∨ (f.advance queueDepth latency).work < f.work ∨
      (f.advance queueDepth latency).work = f.work ∧
        (f.advance queueDepth latency).fsmTimestamp = f.fsmTimestamp + 1 ∧
          f.fsmTimestamp + 1 < 2 ^ 32 := by
  have total := sound.total_lt
  cases send : f.tick.canSend queueDepth with
  | true =>
    have less : f.fsmCounter < f.tcdmBlockTotal := (canSend_iff.mp send).1
    have counter := push_counter latency sound send
    have length := receive_length (f := f.tick.push latency)
    have added : (f.tick.push latency).pendingReqQueue.length = f.pendingReqQueue.length + 1 :=
      List.length_append
    have moved : f.advance queueDepth latency = (f.tick.push latency).receive := if_pos send
    have counter' : (f.tick.push latency).receive.fsmCounter = f.fsmCounter + 1 := counter
    apply Or.inr (Or.inl _)
    rw [moved]
    unfold work
    have same : (f.tick.push latency).receive.tcdmBlockTotal = f.tcdmBlockTotal := rfl
    omega
  | false =>
    have moved : f.advance queueDepth latency = f.tick.receive := by
      unfold advance
      rw [send, if_neg Bool.false_ne_true]
    have length := receive_length (f := f.tick)
    have unfinished : f.tick.receive.work = 2 * (f.tcdmBlockTotal - f.fsmCounter) +
        f.tick.receive.pendingReqQueue.length := rfl
    rw [moved]
    obtain fewer | same := Nat.lt_or_eq_of_le length
    · apply Or.inr (Or.inl _)
      rw [unfinished]
      exact Nat.add_lt_add_left fewer _
    · have kept := receive_eq_self same
      rw [kept]
      by_cases waiting : f.pendingReqQueue = []
      · apply Or.inl
        rw [drained_iff]
        refine ⟨?_, waiting⟩
        by_contra more
        have send' : f.tick.canSend queueDepth = true :=
          canSend_iff.mpr ⟨Nat.lt_of_not_le more, by
            rw [show f.tick.pendingReqQueue = [] from waiting]
            exact Nat.zero_le _⟩
        rw [send] at send'
        cases send'
      · have time := sound.time active waiting
        exact Or.inr (Or.inr ⟨rfl, u32_of_lt time, time⟩)

@[simp] theorem advance_state {queueDepth latency : Nat} :
    (f.advance queueDepth latency).state = f.state := by
  unfold advance
  split <;> rfl

@[simp] theorem advance_total {queueDepth latency : Nat} :
    (f.advance queueDepth latency).tcdmBlockTotal = f.tcdmBlockTotal := by
  unfold advance
  split <;> rfl

theorem enter_sound {state : RedmuleState} {total : Nat} (sound : f.Sound) (less : total < 2 ^ 32) :
    (f.enter state total).Sound :=
  ⟨Nat.zero_le _, less, sound.stamps, fun _ _ => (by decide : 0 + 1 < 2 ^ 32)⟩

end Fsm

/-! ## The blocks of a phase -/

/-- The blocks that are left to access. -/
def Access.blocks (a : Access) : Nat := a.yAccBlock + a.wAccBlock + a.xAccBlock + a.zAccBlock

section

variable {A : Arch} {R : Regs} {a a' : Access} {r : TcdmReq} {zStoreWidth : Nat}

theorem nextAddr_blocks (next : nextAddr A R zStoreWidth a = some (r, a')) :
    a'.blocks + 1 = a.blocks := by
  unfold Access.blocks
  obtain ⟨y, hy, -, rfl⟩ | ⟨hy, w, hw, -, rfl⟩ | ⟨hy, hw, x, hx, -, rfl⟩ |
    ⟨hy, hw, hx, z, hz, -, rfl⟩ :=
    nextAddr_cases next
  all_goals
    dsimp only
    omega

/-- There is a next address as long as there are blocks left. -/
theorem nextAddr_isSome (left : 0 < a.blocks) : (nextAddr A R zStoreWidth a).isSome := by
  unfold Access.blocks at left
  unfold nextAddr
  split
  · rfl
  · split
    · rfl
    · split
      · rfl
      · split
        · rfl
        · omega

end

/-! ## Iterations -/

/-- There are tiles in each direction. -/
structure Tiles.Sound (T : Tiles) : Prop where
  xRow_pos : 0 < T.xRowTiles
  xRow_lt : T.xRowTiles < 2 ^ 32
  zRow_pos : 0 < T.zRowTiles
  zRow_lt : T.zRowTiles < 2 ^ 32
  zCol_pos : 0 < T.zColTiles
  zCol_lt : T.zColTiles < 2 ^ 32

/-- The number of iterations. -/
def Tiles.total (T : Tiles) : Nat := T.zColTiles * T.zRowTiles * T.xRowTiles

theorem Tiles.Sound.total_pos {T : Tiles} (sound : T.Sound) : 0 < T.total :=
  Nat.mul_pos (Nat.mul_pos sound.zCol_pos sound.zRow_pos) sound.xRow_pos

/-- The indices are those of an iteration. -/
structure Iter.Inside (T : Tiles) (it : Iter) : Prop where
  i : it.i < T.zColTiles
  j : it.j < T.zRowTiles
  k : it.k < T.xRowTiles

/-- The number of iterations before this one. -/
def Iter.index (T : Tiles) (it : Iter) : Nat := (it.i * T.zRowTiles + it.j) * T.xRowTiles + it.k

theorem index_first (T : Tiles) : (⟨0, 0, 0⟩ : Iter).index T = 0 := by
  unfold Iter.index
  rw [Nat.zero_mul, Nat.zero_add, Nat.zero_mul, Nat.zero_add]

theorem tileCount_pos {size buffer : Nat} (pos : 0 < size) : 0 < tileCount size buffer := by
  unfold tileCount
  split
  · exact Nat.succ_pos _
  · rename_i whole
    have zero : size % buffer = 0 := Nat.eq_zero_of_not_pos whole
    have product := Nat.div_add_mod size buffer
    by_contra none
    have quotient : size / buffer = 0 := Nat.eq_zero_of_not_pos none
    rw [quotient, zero, Nat.mul_zero] at product
    omega

theorem tileCount_le (size buffer : Nat) : tileCount size buffer ≤ size := by
  unfold tileCount
  split
  · rename_i left
    have product := Nat.div_add_mod size buffer
    rcases Nat.lt_or_ge buffer 1 with zero | pos
    · obtain rfl : buffer = 0 := by omega
      rw [Nat.div_zero]
      rw [Nat.mod_zero] at left
      omega
    · have le := Nat.le_mul_of_pos_left (size / buffer) pos
      omega
  · exact Nat.div_le_self _ _

theorem le_tileCount_mul {block : Nat} (pos : 0 < block) (size : Nat) :
    size ≤ tileCount size block * block := by
  have product := Nat.div_add_mod size block
  have rest := Nat.mod_lt size pos
  rw [Nat.mul_comm] at product
  unfold tileCount
  split
  · rw [Nat.succ_mul]
    omega
  · rw [Nat.add_zero]
    omega

theorem index_lt {T : Tiles} {it : Iter} (inside : it.Inside T) : it.index T < T.total := by
  have row : (it.i + 1) * T.zRowTiles ≤ T.zColTiles * T.zRowTiles := Nat.mul_le_mul_right _ inside.i
  have tile : it.i * T.zRowTiles + it.j + 1 ≤ T.zColTiles * T.zRowTiles := by
    have j := inside.j
    rw [Nat.succ_mul] at row
    omega
  have whole := Nat.mul_le_mul_right T.xRowTiles tile
  have k := inside.k
  rw [Nat.succ_mul] at whole
  unfold Iter.index Tiles.total
  omega

/-- The iterations are numbered in the order of execution, and the last one is followed by none. -/
theorem nextIteration_spec {T : Tiles} {it : Iter} (sound : T.Sound) (inside : it.Inside T) :
    ((nextIteration T it).2 = false ∧ (nextIteration T it).1.Inside T ∧
        (nextIteration T it).1.index T = it.index T + 1) ∨
      ((nextIteration T it).2 = true ∧ it.index T + 1 = T.total) := by
  have hi := inside.i
  have hj := inside.j
  have hk := inside.k
  have wrapI : u32 (it.i + 1) = it.i + 1 := u32_of_lt (Nat.lt_of_le_of_lt hi sound.zCol_lt)
  have wrapJ : u32 (it.j + 1) = it.j + 1 := u32_of_lt (Nat.lt_of_le_of_lt hj sound.zRow_lt)
  have wrapK : u32 (it.k + 1) = it.k + 1 := u32_of_lt (Nat.lt_of_le_of_lt hk sound.xRow_lt)
  unfold nextIteration Iter.index
  simp only [wrapI, wrapJ, wrapK]
  split
  · rename_i lastK
    split
    · rename_i lastJ
      have tile : it.i * T.zRowTiles + it.j + 1 = (it.i + 1) * T.zRowTiles := by
        rw [Nat.succ_mul]
        omega
      have next : (it.i * T.zRowTiles + it.j) * T.xRowTiles + it.k + 1 =
          (it.i + 1) * T.zRowTiles * T.xRowTiles := by
        rw [← tile, Nat.succ_mul]
        omega
      rcases Nat.eq_or_lt_of_le hi with lastI | more
      · apply Or.inr
        refine ⟨beq_iff_eq.mpr lastI, next.trans ?_⟩
        unfold Tiles.total
        rw [← lastI]
      · apply Or.inl
        refine ⟨beq_false_of_ne (Nat.ne_of_lt more), ⟨more, sound.zRow_pos, sound.xRow_pos⟩, ?_⟩
        rw [next, Nat.add_zero, Nat.add_zero]
    · rename_i moreJ
      apply Or.inl
      refine ⟨rfl, ⟨hi, Nat.lt_of_le_of_ne hj moreJ, sound.xRow_pos⟩, ?_⟩
      rw [Nat.add_zero, ← Nat.add_assoc (it.i * T.zRowTiles), Nat.succ_mul]
      omega
  · rename_i moreK
    exact Or.inl ⟨rfl, ⟨hi, hj, Nat.lt_of_le_of_ne hk moreK⟩, rfl⟩

/-! ## The invariant -/

/-- The values that are bounded in every state. -/
structure Bounded (f : Fsm) (R : Regs) (d : Datapath) : Prop where
  fsm : f.Sound
  mSize : R.mSize < 2 ^ 32
  nSize : R.nSize < 2 ^ 32
  kSize : R.kSize < 2 ^ 32
  height : d.zStoreHeight < 2 ^ 32

/-- The invariant of the accelerator. -/
structure Machine.Sound {Q : Type*} (s : Machine Q) : Prop where
  bounded : Bounded s.fsm s.regs s.data
  blocks : s.fsm.state.active = true → s.fsm.tcdmBlockTotal ≤ s.fsm.fsmCounter + s.access.blocks
  tiles : s.fsm.state.active = true → s.tiles.Sound
  iter : s.fsm.state.active = true → s.fsm.state ≠ .storing → s.iter.Inside s.tiles
  idle : s.fsm.state = .idle → s.redmuleQuery = none
  acknowledge : s.fsm.state = .acknowledge → s.redmuleQuery ≠ none

theorem Machine.Sound.inside {Q : Type*} {s : Machine Q} (sound : s.Sound)
    (state : s.fsm.state = .routine) :
    s.iter.Inside s.tiles := by
  have notStoring : s.fsm.state ≠ .storing := by
    rw [state]
    decide
  exact sound.iter (active_of_eq state rfl) notStoring

section

variable {Q : Type*} {A : Arch} {s s' : Machine Q} {e : Effect Q}

theorem processIterInstruction_height {R : Regs} {computeAble : Nat} {T : Tiles} {it : Iter}
    {state : RedmuleState} {a : Access} {d : Datapath} (less : d.zStoreHeight < 2 ^ 32) :
    (processIterInstruction A R computeAble T it state a d).zStoreHeight < 2 ^ 32 := by
  unfold processIterInstruction
  cases a.iterInstruction with
  | forwardYZ =>
    have bound : zHeightCutoff A R it.i < 2 ^ 32 :=
      Nat.lt_of_le_of_lt (Nat.min_le_left _ _) (u32_lt _)
    exact Nat.lt_of_le_of_lt (Nat.div_le_self _ _) bound
  | _ => exact less

theorem process_height {wanted : IterInstruction → Bool} {a : Access} {d : Datapath}
    (less : d.zStoreHeight < 2 ^ 32) : (process A s wanted a d).zStoreHeight < 2 ^ 32 := by
  unfold process
  split
  · exact processIterInstruction_height less
  · exact less

/-- What a request changes: it takes one block. -/
theorem sendRequest_sound {before after : IterInstruction → Bool}
    (sent : sendRequest A before after s = some s') (less : s.data.zStoreHeight < 2 ^ 32) :
    s'.access.blocks + 1 = s.access.blocks ∧ s'.data.zStoreHeight < 2 ^ 32 := by
  obtain ⟨⟨r, a⟩, next, rfl⟩ := Option.map_eq_some_iff.mp sent
  exact ⟨nextAddr_blocks next, process_height (process_height less)⟩

/-- The first half of an event: one event on the counters, and one block less if a request is
sent. -/
theorem accessPhase_spec {before after : IterInstruction → Bool} {status : TcdmStatus}
    (sound : s.Sound) (active : s.fsm.state.active = true)
    (accessed : accessPhase A before after status { s with fsm := s.fsm.tick } = some s') :
    s'.Sound ∧ (∃ latency, s'.fsm = s.fsm.advance A.queueDepth latency) ∧ s'.job = s.job ∧
      s'.iter = s.iter ∧ s'.redmuleQuery = s.redmuleQuery ∧ s'.numMatmul = s.numMatmul := by
  obtain ⟨wait, rfl⟩ | ⟨send, latency, sent, -, made, rfl⟩ := accessPhase_cases accessed
  · have moved : s.fsm.advance A.queueDepth 0 = s.fsm.tick.receive :=
      if_neg (by rw [wait]; exact Bool.false_ne_true)
    have fsm := Fsm.advance_sound A.queueDepth 0 sound.bounded.fsm
    rw [moved] at fsm
    exact ⟨⟨{ sound.bounded with fsm := fsm }, sound.blocks, sound.tiles, sound.iter, sound.idle,
      sound.acknowledge⟩, ⟨0, moved.symm⟩, rfl, rfl, rfl, rfl⟩
  · have moved : s.fsm.advance A.queueDepth latency = (s.fsm.tick.push latency).receive :=
      if_pos send
    have fsm := Fsm.advance_sound A.queueDepth latency sound.bounded.fsm
    rw [moved] at fsm
    obtain ⟨one, height⟩ := sendRequest_sound made sound.bounded.height
    have counter := Fsm.push_counter latency sound.bounded.fsm send
    have blocks := sound.blocks active
    obtain ⟨r, a, d, mem, -, rfl⟩ := sendRequest_cases made
    refine ⟨⟨{ sound.bounded with fsm := fsm, height := height }, fun _ => ?_, sound.tiles,
      sound.iter, sound.idle, sound.acknowledge⟩, ⟨latency, moved.symm⟩, rfl, rfl, rfl, rfl⟩
    have counter' : (s.fsm.tick.push latency).receive.fsmCounter = s.fsm.fsmCounter + 1 := counter
    have total : (s.fsm.tick.push latency).receive.tcdmBlockTotal = s.fsm.tcdmBlockTotal := rfl
    dsimp only at one ⊢
    omega

theorem forwardYZ_sound (sound : s.Sound) : (forwardYZ A s).Sound := by
  unfold forwardYZ
  split
  · exact ⟨{ sound.bounded with height := processIterInstruction_height sound.bounded.height },
      sound.blocks, sound.tiles, sound.iter, sound.idle, sound.acknowledge⟩
  · exact sound

@[simp] theorem forwardYZ_fsm : (forwardYZ A s).fsm = s.fsm := by
  unfold forwardYZ
  split <;> rfl

@[simp] theorem forwardYZ_iter : (forwardYZ A s).iter = s.iter := by
  unfold forwardYZ
  split <;> rfl

@[simp] theorem forwardYZ_tiles : (forwardYZ A s).tiles = s.tiles := by
  unfold forwardYZ
  split <;> rfl

@[simp] theorem forwardYZ_redmuleQuery : (forwardYZ A s).redmuleQuery = s.redmuleQuery := by
  unfold forwardYZ
  split <;> rfl

@[simp] theorem forwardYZ_numMatmul : (forwardYZ A s).numMatmul = s.numMatmul := by
  unfold forwardYZ
  split <;> rfl

theorem routine_total_le {R : Regs} {T : Tiles} {it : Iter} {height : Nat} {a : Access} :
    (getRoutineAccessBlockNumber A R T it height a).1 ≤
      (getRoutineAccessBlockNumber A R T it height a).2.blocks := by
  unfold getRoutineAccessBlockNumber Access.blocks
  dsimp only
  apply Nat.le_trans (Nat.mod_le _ _)
  omega

theorem enterRoutine_sound (bounded : Bounded s.fsm s.regs s.data) (tiles : s.tiles.Sound)
    (inside : s.iter.Inside s.tiles) : (enterRoutine A s).Sound := by
  refine ⟨{ bounded with fsm := Fsm.enter_sound bounded.fsm (u32_lt _) }, fun _ => ?_,
    fun _ => tiles, fun _ _ => inside, fun idle => (by cases idle), fun ack => (by cases ack)⟩
  exact Nat.le_trans routine_total_le (Nat.le_add_left _ _)

theorem enterStoring_sound (bounded : Bounded s.fsm s.regs s.data) (tiles : s.tiles.Sound) :
    (enterStoring A s).Sound := by
  refine ⟨{ bounded with fsm := Fsm.enter_sound bounded.fsm bounded.height }, fun _ => ?_,
    fun _ => tiles, fun _ storing => absurd rfl storing, fun idle => (by cases idle),
    fun ack => (by cases ack)⟩
  exact Nat.le_trans (Nat.le_add_left _ _) (Nat.le_add_left _ _)

/-! ## The rank -/

/-- The phases that are left, this one included. -/
def Machine.phasesLeft (s : Machine Q) : Nat :=
  match s.fsm.state with
  | .idle => 0
  | .acknowledge => 1
  | .finished => 2
  | .storing => 3
  | .routine => s.tiles.total - s.iter.index s.tiles + 3
  | .preload => s.tiles.total + 4

/-- The phases left, the work left in this one, and the time left in which no answer is due. -/
def rank (s : Machine Q) : Nat ×ₗ Nat ×ₗ Nat :=
  toLex (s.phasesLeft, toLex (s.fsm.work, 2 ^ 32 - s.fsm.fsmTimestamp))

theorem rank_lt_of_phase (less : s'.phasesLeft < s.phasesLeft) : rank s' < rank s :=
  Prod.Lex.toLex_lt_toLex.mpr (Or.inl less)

/-- Within a phase an event does some work or lets time pass, unless the phase is over. -/
theorem rank_lt_of_advance {latency : Nat} (sound : s.Sound) (active : s.fsm.state.active = true)
    (fsm : s'.fsm = s.fsm.advance A.queueDepth latency) (job : s'.job = s.job)
    (iter : s'.iter = s.iter) : s'.fsm.drained = true ∨ rank s' < rank s := by
  have tiles : s'.tiles = s.tiles := congrArg (fun j => j.2.2) job
  have state : s'.fsm.state = s.fsm.state := by rw [fsm, Fsm.advance_state]
  have phases : s'.phasesLeft = s.phasesLeft := by
    unfold Machine.phasesLeft
    rw [state, iter, tiles]
  obtain drained | less | ⟨same, later, time⟩ := Fsm.advance_progress A.queueDepth latency
    sound.bounded.fsm active
  · exact Or.inl (by rw [fsm]; exact drained)
  · apply Or.inr
    apply Prod.Lex.toLex_lt_toLex.mpr (Or.inr ⟨phases, _⟩)
    apply Prod.Lex.toLex_lt_toLex.mpr (Or.inl _)
    rw [fsm]
    exact less
  · apply Or.inr
    apply Prod.Lex.toLex_lt_toLex.mpr (Or.inr ⟨phases, _⟩)
    apply Prod.Lex.toLex_lt_toLex.mpr (Or.inr ⟨_, _⟩)
    · rw [fsm]
      exact same
    · rw [fsm, later]
      dsimp only
      omega

/-! ## An event -/

/-- What an event of a working accelerator does: it gets nearer to the end of the job, which is
counted when it is reached. -/
structure Worked (s : Machine Q) (e : Effect Q) : Prop where
  sound : e.machine.Sound
  rank : rank e.machine < rank s
  query : e.machine.redmuleQuery = s.redmuleQuery
  enqueue : e.enqueue.isSome = true
  answer : e.answer = .silent
  next : (e.machine.fsm.state.active = true ∧ e.machine.numMatmul = s.numMatmul) ∨
    (e.machine.fsm.state = .finished ∧ e.machine.numMatmul = s.numMatmul + 1)

/-- The phase goes on. -/
theorem worked_of_busy {before after : IterInstruction → Bool} {status : TcdmStatus} {latency : Nat}
    (sound : s.Sound) (active : s.fsm.state.active = true)
    (accessed : accessPhase A before after status { s with fsm := s.fsm.tick } = some s')
    (busy : s'.fsm.drained = false) : Worked s ⟨s', some latency, .silent⟩ := by
  obtain ⟨sound', ⟨latency', fsm⟩, job, iter, query, num⟩ := accessPhase_spec sound active accessed
  refine ⟨sound', ?_, query, rfl, rfl, Or.inl ⟨?_, num⟩⟩
  · obtain drained | less := rank_lt_of_advance sound active fsm job iter
    · rw [busy] at drained
      cases drained
    · exact less
  · dsimp only
    rw [fsm, Fsm.advance_state]
    exact active

theorem leavePreload_worked {before after : IterInstruction → Bool} {status : TcdmStatus}
    {latency : Nat} (sound : s.Sound) (state : s.fsm.state = .preload)
    (accessed : accessPhase A before after status { s with fsm := s.fsm.tick } = some s') :
    Worked s ⟨leavePreload A s', some latency, .silent⟩ := by
  have active := active_of_eq state rfl
  obtain ⟨sound', ⟨latency', fsm⟩, job, iter, query, num⟩ := accessPhase_spec sound active accessed
  have tiles : s'.tiles = s.tiles := congrArg (fun j => j.2.2) job
  have inside : s'.iter.Inside s'.tiles := by
    rw [iter, tiles]
    exact sound.iter active (by rw [state]; decide)
  have phase : (leavePreload A s').fsm.state = .routine := congrArg Fsm.state forwardYZ_fsm
  refine ⟨?_, rank_lt_of_phase ?_, ?_, rfl, rfl, Or.inl ⟨?_, ?_⟩⟩
  · exact forwardYZ_sound
      (enterRoutine_sound sound'.bounded (by rw [tiles]; exact sound.tiles active) inside)
  · have total : (leavePreload A s').tiles = s.tiles := forwardYZ_tiles.trans tiles
    unfold Machine.phasesLeft
    simp only [phase, state, total]
    omega
  · exact forwardYZ_redmuleQuery.trans query
  · simp only [phase]
    rfl
  · exact forwardYZ_numMatmul.trans num

theorem forwardLast_cases : forwardLast A s = s ∨ forwardLast A s = forwardYZ A s := by
  unfold forwardLast
  split
  · exact Or.inr rfl
  · exact Or.inl rfl

/-- The next iteration or the last phase has one phase less left. -/
theorem nextPhase_sound (bounded : Bounded s.fsm s.regs s.data) (tiles : s.tiles.Sound)
    (inside : s.iter.Inside s.tiles) : (nextPhase A s).Sound ∧
      (nextPhase A s).fsm.state.active = true ∧
        (nextPhase A s).phasesLeft < s.tiles.total - s.iter.index s.tiles + 3 := by
  have below := index_lt inside
  unfold nextPhase
  obtain ⟨more, inside', index⟩ | ⟨ended, -⟩ := nextIteration_spec tiles inside
  · simp only [more, if_neg Bool.false_ne_true]
    refine ⟨enterRoutine_sound bounded tiles inside', rfl, ?_⟩
    have left : s.tiles.total - (nextIteration s.tiles s.iter).1.index s.tiles + 3 <
        s.tiles.total - s.iter.index s.tiles + 3 := by omega
    exact left
  · simp only [ended, if_pos]
    exact ⟨enterStoring_sound bounded tiles, rfl, Nat.lt_add_of_pos_left (Nat.sub_pos_of_lt below)⟩

theorem nextPhase_kept : (nextPhase A s).redmuleQuery = s.redmuleQuery ∧
    (nextPhase A s).numMatmul = s.numMatmul := by
  unfold nextPhase
  dsimp only
  split
  · exact ⟨rfl, rfl⟩
  · exact ⟨rfl, rfl⟩

theorem leaveRoutine_worked {before after : IterInstruction → Bool} {status : TcdmStatus}
    {latency : Nat} (sound : s.Sound) (state : s.fsm.state = .routine)
    (accessed : accessPhase A before after status { s with fsm := s.fsm.tick } = some s') :
    Worked s ⟨leaveRoutine A s', some latency, .silent⟩ := by
  have active := active_of_eq state rfl
  obtain ⟨sound', ⟨latency', fsm⟩, job, iter, query, num⟩ := accessPhase_spec sound active accessed
  have tiles : s'.tiles = s.tiles := congrArg (fun j => j.2.2) job
  have inside := sound.inside state
  -- what the jump keeps, whether or not it forwards a tile
  obtain ⟨forwarded, iter', tiles', query', num'⟩ : (forwardLast A s').Sound ∧
      (forwardLast A s').iter = s.iter ∧ (forwardLast A s').tiles = s.tiles ∧
        (forwardLast A s').redmuleQuery = s.redmuleQuery ∧
          (forwardLast A s').numMatmul = s.numMatmul := by
    obtain same | same := forwardLast_cases (A := A) (s := s')
    · rw [same]
      exact ⟨sound', iter, tiles, query, num⟩
    · rw [same]
      exact ⟨forwardYZ_sound sound', forwardYZ_iter.trans iter, forwardYZ_tiles.trans tiles,
        forwardYZ_redmuleQuery.trans query, forwardYZ_numMatmul.trans num⟩
  obtain ⟨next, working, fewer⟩ := nextPhase_sound (A := A) forwarded.bounded
    (by rw [tiles']; exact sound.tiles active) (by rw [iter', tiles']; exact inside)
  obtain ⟨query'', num''⟩ := nextPhase_kept (A := A) (s := forwardLast A s')
  refine ⟨next, rank_lt_of_phase ?_, query''.trans query', rfl, rfl,
    Or.inl ⟨working, num''.trans num'⟩⟩
  have phases : s.phasesLeft = s.tiles.total - s.iter.index s.tiles + 3 := by
    unfold Machine.phasesLeft
    rw [state]
  rw [iter', tiles'] at fewer
  rw [phases]
  exact fewer

theorem leaveStoring_worked {before after : IterInstruction → Bool} {status : TcdmStatus}
    {latency : Nat} (sound : s.Sound) (state : s.fsm.state = .storing)
    (accessed : accessPhase A before after status { s with fsm := s.fsm.tick } = some s') :
    Worked s ⟨leaveStoring s', some latency, .silent⟩ := by
  have active := active_of_eq state rfl
  obtain ⟨sound', -, -, -, query, num⟩ := accessPhase_spec sound active accessed
  refine ⟨?_, rank_lt_of_phase ?_, query, rfl, rfl, Or.inr ⟨rfl, congrArg (· + 1) num⟩⟩
  · exact ⟨{ sound'.bounded with fsm := Fsm.enter_sound sound'.bounded.fsm (by decide) },
      fun active => (by cases active), fun active => (by cases active), fun active =>
        (by cases active),
      fun idle => (by cases idle), fun ack => (by cases ack)⟩
  · have phases : s.phasesLeft = 3 := by
      unfold Machine.phasesLeft
      rw [state]
    rw [phases]
    exact Nat.lt_succ_self 2

/-- Every event of a working accelerator. -/
theorem fsmHandler_worked {status : TcdmStatus} (sound : s.Sound)
    (active : s.fsm.state.active = true) (handled : fsmHandler A status s = some e) :
    Worked s e := by
  cases state : s.fsm.state with
  | preload =>
    obtain ⟨s₁, accessed, rfl⟩ := fsmHandler_preload state handled
    cases drained : s₁.fsm.drained with
    | false => exact worked_of_busy sound active accessed drained
    | true => exact leavePreload_worked sound state accessed
  | routine =>
    obtain ⟨s₁, latency, accessed, rfl⟩ := fsmHandler_routine state handled
    cases drained : s₁.fsm.drained with
    | false => exact worked_of_busy sound active accessed drained
    | true => exact leaveRoutine_worked sound state accessed
  | storing =>
    obtain ⟨s₁, accessed, rfl⟩ := fsmHandler_storing state handled
    cases drained : s₁.fsm.drained with
    | false => exact worked_of_busy sound active accessed drained
    | true => exact leaveStoring_worked sound state accessed
  | _ =>
    rw [state] at active
    cases active

/-! ## No event is fatal -/

theorem accessPhase_isSome {before after : IterInstruction → Bool} {latency : Nat} (sound : s.Sound)
    (active : s.fsm.state.active = true) :
    (accessPhase A before after (.ok latency) { s with fsm := s.fsm.tick }).isSome := by
  unfold accessPhase
  split
  · rename_i send
    have less : s.fsm.fsmCounter < s.fsm.tcdmBlockTotal := (Fsm.canSend_iff.mp send).1
    have blocks := sound.blocks active
    dsimp only
    rw [Option.isSome_map]
    unfold sendRequest
    rw [Option.isSome_map]
    exact nextAddr_isSome (Nat.pos_of_ne_zero fun none => by
      dsimp only at none
      omega)
  · rfl

/-- If the TCDM answers, no event of the state machine is fatal. -/
theorem fsmHandler_isSome (sound : s.Sound) (latency : Nat) :
    (fsmHandler A (.ok latency) s).isSome := by
  have tick : s.fsm.tick.state = s.fsm.state := rfl
  cases state : s.fsm.state with
  | idle => rw [fsmHandler_idle state]; rfl
  | finished => rw [fsmHandler_finished state]; rfl
  | acknowledge =>
    simp only [fsmHandler, tick, state]
    rw [Option.isSome_map, Option.isSome_iff_ne_none]
    exact sound.acknowledge state
  | preload =>
    simp only [fsmHandler, tick, state]
    rw [Option.isSome_map]
    exact accessPhase_isSome sound (by rw [state]; rfl)
  | routine =>
    simp only [fsmHandler, tick, state]
    rw [Option.isSome_map]
    exact accessPhase_isSome sound (by rw [state]; rfl)
  | storing =>
    simp only [fsmHandler, tick, state]
    rw [Option.isSome_map]
    exact accessPhase_isSome sound (by rw [state]; rfl)

end

end SoftHier.Redmule
