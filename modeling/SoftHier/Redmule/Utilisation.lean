import Mathlib.Algebra.BigOperators.Ring.Finset
import Mathlib.Algebra.Order.BigOperators.Group.Finset
import SoftHier.Redmule.Iterations
import SoftHier.Redmule.Report

/-!
# The utilisation of the array

A job is to take at least as many cycles as its `M * N * K` products need on `ce_height * ce_width`
elements.

* `runtimeBefore`: the modelled runtime of the iterations so far.
* `RuntimeFits`, `work_le_runtime`: it covers the products if the runtime of an iteration fits into
  32 bits.
* `Clocked.Timed`, `Clocked.timed_next`: the clock is not behind the modelled runtime.
* `utilisation_le_one`: a finished job takes as long as its products need.
* `runtime_wraps`: a deep pipeline for which it does not.
-/

namespace SoftHier.Redmule

open Finset (range)

section

variable {A : Arch} {R : Regs}

/-! ## The modelled runtime -/

/-- The modelled runtime of iteration `p`. -/
def runtimeAt (A : Arch) (R : Regs) (p : Nat) : Nat :=
  getRedmuleArrayRuntime A R (initTiles A R) (iterAt (initTiles A R) p)

/-- The modelled runtime of the first `n` iterations. -/
def runtimeBefore (A : Arch) (R : Regs) (n : Nat) : Nat := ∑ p ∈ range n, runtimeAt A R p

/-- There are tiles, and no step of the computation of a runtime wraps. -/
structure RuntimeFits (A : Arch) (R : Regs) : Prop where
  rows : 0 < A.bufferN R.elemSize
  unit : 0 < A.bufferW
  room : min R.nSize (A.bufferN R.elemSize) * u32 (A.cePipe + 1) + A.bufferW ≤ 2 ^ 32

/-- The rows of the tiles of a size, of which the last one may be less than whole. -/
def tileRows (size buffer k : Nat) : Nat :=
  if k + 1 = tileCount size buffer ∧ 0 < size % buffer then size % buffer else buffer

theorem tileCount_of_left {size buffer : Nat} (left : 0 < size % buffer) :
    tileCount size buffer = size / buffer + 1 := by
  unfold tileCount
  rw [if_pos left]

theorem tileCount_of_whole {size buffer : Nat} (whole : ¬ 0 < size % buffer) :
    tileCount size buffer = size / buffer := by
  unfold tileCount
  rw [if_neg whole, Nat.add_zero]

theorem tileRows_of_whole {size buffer k : Nat}
    (whole : ¬ (k + 1 = tileCount size buffer ∧ 0 < size % buffer)) :
    tileRows size buffer k = buffer := if_neg whole

theorem tileRows_le {size buffer k : Nat} (pos : 0 < buffer) (inside : k < tileCount size buffer) :
    tileRows size buffer k ≤ min size buffer := by
  by_cases last : k + 1 = tileCount size buffer ∧ 0 < size % buffer
  · have rows : tileRows size buffer k = size % buffer := if_pos last
    rw [rows]
    exact Nat.le_min.mpr ⟨Nat.mod_le _ _, Nat.le_of_lt (Nat.mod_lt _ pos)⟩
  · -- a whole tile lies inside the size
    have some : 0 < size / buffer := by
      by_cases left : 0 < size % buffer
      · have count := tileCount_of_left left
        have notLast : k + 1 ≠ tileCount size buffer := fun same => last ⟨same, left⟩
        omega
      · have count := tileCount_of_whole left
        omega
    rw [tileRows_of_whole last]
    exact Nat.le_min.mpr ⟨((Nat.div_pos_iff).mp some).2, Nat.le_refl _⟩

/-- Together the tiles have as many rows as the size. -/
theorem sum_tileRows (size buffer : Nat) :
    ∑ k ∈ range (tileCount size buffer), tileRows size buffer k = size := by
  by_cases left : 0 < size % buffer
  · have count := tileCount_of_left left
    have last : tileRows size buffer (size / buffer) = size % buffer := if_pos ⟨count.symm, left⟩
    have whole : ∀ k ∈ range (size / buffer), tileRows size buffer k = buffer := by
      intro k mem
      have less := Finset.mem_range.mp mem
      exact tileRows_of_whole fun both => by omega
    rw [count, Finset.sum_range_succ, Finset.sum_const_nat whole, last, Finset.card_range,
      Nat.div_add_mod']
  · have whole : ∀ k ∈ range (size / buffer), tileRows size buffer k = buffer := fun k _ =>
      tileRows_of_whole fun both => left both.2
    have zero : size % buffer = 0 := Nat.eq_zero_of_not_pos left
    rw [tileCount_of_whole left, Finset.sum_const_nat whole, Finset.card_range]
    exact Nat.div_mul_cancel (Nat.dvd_of_mod_eq_zero zero)

/-- A sum over iterations of which only the last index counts. -/
theorem sum_mod (f : Nat → Nat) (blocks size : Nat) :
    ∑ p ∈ range (blocks * size), f (p % size) = blocks * ∑ k ∈ range size, f k := by
  induction blocks with
  | zero => rw [Nat.zero_mul, Nat.zero_mul, Finset.sum_range_zero]
  | succ blocks ih =>
    have block : ∀ k ∈ range size, f ((blocks * size + k) % size) = f k := by
      intro k mem
      rw [Nat.mul_add_mod_self_right, Nat.mod_eq_of_lt (Finset.mem_range.mp mem)]
    rw [Nat.succ_mul, Finset.sum_range_add, ih, Finset.sum_congr rfl block, Nat.succ_mul]

/-- Rounding up to the unit, in 32 bits. -/
theorem le_roundUp {x unit : Nat} (pos : 0 < unit) (room : x + unit ≤ 2 ^ 32) :
    x ≤ u32 (u32 (u32 x + unit - 1) / unit * unit) := by
  have product := Nat.div_add_mod' (x + unit - 1) unit
  have less := Nat.mod_lt (x + unit - 1) pos
  rw [u32_of_lt (by omega : x < 2 ^ 32), u32_of_lt (by omega : x + unit - 1 < 2 ^ 32),
    u32_of_lt (by omega)]
  omega

/-- The modelled runtime of an iteration is enough for its rows. -/
theorem rows_le_runtime (fits : RuntimeFits A R) (sound : (initTiles A R).Sound) (p : Nat) :
    tileRows R.nSize (A.bufferN R.elemSize) (p % tileCount R.nSize (A.bufferN R.elemSize)) *
      u32 (A.cePipe + 1) ≤ runtimeAt A R p := by
  have tiles : 0 < tileCount R.nSize (A.bufferN R.elemSize) := sound.xRow_pos
  have inside := Nat.mod_lt p tiles
  have k : (iterAt (initTiles A R) p).k = p % tileCount R.nSize (A.bufferN R.elemSize) := rfl
  have rows : (if (iterAt (initTiles A R) p).k = sub32 (initTiles A R).xRowTiles 1 ∧
      (initTiles A R).xRowLefts > 0 then (initTiles A R).xRowLefts else A.bufferN R.elemSize) =
        tileRows R.nSize (A.bufferN R.elemSize) (p % tileCount R.nSize (A.bufferN R.elemSize)) := by
    have last : (iterAt (initTiles A R) p).k = sub32 (initTiles A R).xRowTiles 1 ↔
        p % tileCount R.nSize (A.bufferN R.elemSize) + 1 =
          tileCount R.nSize (A.bufferN R.elemSize) := by
      have count : sub32 (initTiles A R).xRowTiles 1 =
          tileCount R.nSize (A.bufferN R.elemSize) - 1 :=
        sub32_of_le tiles sound.xRow_lt
      rw [k, count]
      omega
    exact if_congr (and_congr_left' last) rfl rfl
  unfold runtimeAt getRedmuleArrayRuntime
  dsimp only
  rw [rows]
  apply le_roundUp fits.unit
  exact Nat.le_trans
    (Nat.add_le_add_right (Nat.mul_le_mul_right _ (tileRows_le fits.rows inside)) _) fits.room

/-- The modelled runtime is enough for the products of the job. -/
theorem work_le_runtime (height : 0 < A.ceHeight) (fits : RuntimeFits A R)
    (sound : (initTiles A R).Sound) : R.mSize * R.nSize * R.kSize ≤
      runtimeBefore A R (initTiles A R).total * (A.ceHeight * A.ceWidth) := by
  have unit : A.bufferW ≤ A.ceWidth * u32 (A.cePipe + 1) := Nat.mod_le _ _
  have columns := le_tileCount_mul fits.unit R.kSize
  have rows := le_tileCount_mul height R.mSize
  have iterations : tileCount R.mSize A.ceHeight * tileCount R.kSize A.bufferW *
      (R.nSize * u32 (A.cePipe + 1)) ≤ runtimeBefore A R (initTiles A R).total := by
    calc tileCount R.mSize A.ceHeight * tileCount R.kSize A.bufferW * (R.nSize * u32 (A.cePipe + 1))
        = tileCount R.mSize A.ceHeight * tileCount R.kSize A.bufferW *
            ∑ k ∈ range (tileCount R.nSize (A.bufferN R.elemSize)),
              tileRows R.nSize (A.bufferN R.elemSize) k * u32 (A.cePipe + 1) := by
          rw [← Finset.sum_mul, sum_tileRows]
      _ = ∑ p ∈ range (initTiles A R).total,
            tileRows R.nSize (A.bufferN R.elemSize) (p % tileCount R.nSize (A.bufferN R.elemSize)) *
              u32 (A.cePipe + 1) := (sum_mod _ _ _).symm
      _ ≤ runtimeBefore A R (initTiles A R).total :=
          Finset.sum_le_sum fun p _ => rows_le_runtime fits sound p
  calc R.mSize * R.nSize * R.kSize
      ≤ tileCount R.mSize A.ceHeight * A.ceHeight * R.nSize *
          (tileCount R.kSize A.bufferW * (A.ceWidth * u32 (A.cePipe + 1))) :=
        Nat.mul_le_mul (Nat.mul_le_mul_right _ rows)
          (Nat.le_trans columns (Nat.mul_le_mul_left _ unit))
    _ = tileCount R.mSize A.ceHeight * tileCount R.kSize A.bufferW *
      (R.nSize * u32 (A.cePipe + 1)) *
          (A.ceHeight * A.ceWidth) := by ring
    _ ≤ runtimeBefore A R (initTiles A R).total * (A.ceHeight * A.ceWidth) :=
        Nat.mul_le_mul_right _ iterations

end

/-! ## The clock -/

section

variable {Q : Type*} {A : Arch}

theorem Fsm.advance_timestamp {f : Fsm} {queueDepth latency : Nat} :
    (f.advance queueDepth latency).fsmTimestamp = u32 (f.fsmTimestamp + 1) := by
  unfold advance
  split <;> rfl

/-- The event after an iteration makes up for the time that its accesses did not take. -/
theorem latency_covers {stamp runtime before due : Nat} (less : runtime < 2 ^ 32)
    (behind : before + stamp < due) : before + runtime < due +
      if u32 (stamp + 1) ≥ runtime then 1 else u32 (runtime - u32 (stamp + 1) + 1) := by
  unfold u32
  split
  · omega
  · omega

/-- The clock is ahead of the modelled runtime of the iterations so far. -/
structure Clocked.Timed (A : Arch) (t : Clocked Q) : Prop where
  sound : t.system.Sound
  tiles : t.state.active = true → t.system.machine.tiles = initTiles A t.atTrigger
  elem : t.state ≠ .idle → t.system.machine.regs.elemSize = t.atTrigger.elemSize
  start : t.state = .preload → t.system.machine.iter = ⟨0, 0, 0⟩
  preload : t.state = .preload → t.cycleStart < t.due
  routine : t.state = .routine → t.cycleStart +
    runtimeBefore A t.atTrigger (t.system.machine.iter.index (initTiles A t.atTrigger)) +
      t.system.machine.fsm.fsmTimestamp < t.due
  storing : t.state = .storing →
    t.cycleStart + runtimeBefore A t.atTrigger (initTiles A t.atTrigger).total < t.due

namespace Clocked

variable {t t' : Clocked Q}

namespace Timed

variable {m : Machine Q} (timed : Timed A t)
include timed

theorem tiles_of_job (active : t.state.active = true) (job : m.job = t.system.machine.job) :
    m.tiles = initTiles A t.atTrigger :=
  (congrArg (fun j => j.2.2) job).trans (timed.tiles active)

theorem elem_of_job (busy : t.state ≠ .idle) (job : m.job = t.system.machine.job) :
    m.regs.elemSize = t.atTrigger.elemSize :=
  (congrArg (fun j => j.1.elemSize) job).trans (timed.elem busy)

theorem iter_inside (middle : t.state = .routine) :
    t.system.machine.iter.Inside (initTiles A t.atTrigger) := by
  rw [← timed.tiles (active_of_eq middle rfl)]
  exact timed.sound.machine.inside middle

end Timed

theorem initial_timed {elemSize : Nat} {buffers : Datapath} {mem : Buffer} :
    Timed A (initial elemSize buffers mem : Clocked Q) :=
  ⟨initial_sound, fun active => (by cases active), fun busy => absurd rfl busy,
    fun state => (by cases state),
    fun state => (by cases state), fun state => (by cases state), fun state => (by cases state)⟩

/-- The runtime of an iteration does not depend on registers that a job can see changed. -/
theorem runtime_eq {R R' : Regs} {p : Nat} (elem : R.elemSize = R'.elemSize) :
    getRedmuleArrayRuntime A R (initTiles A R') (iterAt (initTiles A R') p) = runtimeAt A R' p := by
  unfold runtimeAt getRedmuleArrayRuntime
  rw [elem]

/-- An event of a job whose phase goes on. -/
theorem busy_timed {m : Machine Q} {event : Bool} (timed : Timed A t)
    (active : t.state.active = true) (sound : System.Sound ⟨m, event⟩)
    (job : m.job = t.system.machine.job) (iter : m.iter = t.system.machine.iter)
    (fsm : ∃ latency, m.fsm = t.system.machine.fsm.advance A.queueDepth latency) :
    Timed A { t with system := ⟨m, event⟩, cycle := t.due, due := t.due + 1 } := by
  obtain ⟨latency, fsm⟩ := fsm
  have state : m.fsm.state = t.state := by
    rw [fsm, Fsm.advance_state]
    rfl
  have busy : t.state ≠ .idle := ne_of_active active rfl
  have stamp : m.fsm.fsmTimestamp ≤ t.system.machine.fsm.fsmTimestamp + 1 := by
    rw [fsm, Fsm.advance_timestamp]
    exact Nat.mod_le _ _
  refine ⟨sound, fun _ => ?_, fun _ => ?_, fun first => ?_, fun first => ?_, fun middle => ?_,
    fun last => ?_⟩
  · exact timed.tiles_of_job active job
  · exact timed.elem_of_job busy job
  · exact iter.trans (timed.start (state.symm.trans first))
  · exact Nat.lt_succ_of_lt (timed.preload (state.symm.trans first))
  · have ahead := timed.routine (state.symm.trans middle)
    dsimp only
    rw [iter]
    omega
  · exact Nat.lt_succ_of_lt (timed.storing (state.symm.trans last))

/-- The event with which the first iteration begins. -/
theorem leavePreload_timed {m : Machine Q} {event : Bool} (timed : Timed A t)
    (first : t.state = .preload) (sound : System.Sound ⟨leavePreload A m, event⟩)
    (job : m.job = t.system.machine.job) (iter : m.iter = t.system.machine.iter) :
    Timed A { t with system := ⟨leavePreload A m, event⟩, cycle := t.due, due := t.due + 1 } := by
  have state : (leavePreload A m).fsm.state = .routine := congrArg Fsm.state forwardYZ_fsm
  have stamp : (leavePreload A m).fsm.fsmTimestamp = 0 := congrArg Fsm.fsmTimestamp forwardYZ_fsm
  have job' : (leavePreload A m).job = t.system.machine.job := leavePreload_job.trans job
  have iter' : (leavePreload A m).iter = ⟨0, 0, 0⟩ :=
    forwardYZ_iter.trans (iter.trans (timed.start first))
  refine ⟨sound, fun _ => ?_, fun _ => ?_, other_state state (by decide),
    other_state state (by decide), fun _ => ?_, other_state state (by decide)⟩
  · exact timed.tiles_of_job (active_of_eq first rfl) job'
  · exact timed.elem_of_job (by rw [first]; decide) job'
  · have ahead := timed.preload first
    dsimp only
    rw [iter', index_first, stamp]
    unfold runtimeBefore
    rw [Finset.sum_range_zero]
    omega

/-- When the event after an iteration comes, the iteration has taken its modelled runtime. -/
theorem runtime_covered {m : Machine Q} (timed : Timed A t) (middle : t.state = .routine)
    (job : m.job = t.system.machine.job) (iter : m.iter = t.system.machine.iter)
    (fsm : ∃ latency, m.fsm = t.system.machine.fsm.advance A.queueDepth latency) :
    t.cycleStart + runtimeBefore A t.atTrigger (m.iter.index (initTiles A t.atTrigger) + 1) <
      t.due + routineLatency A m := by
  obtain ⟨latency, fsm⟩ := fsm
  have tiles := timed.tiles_of_job (active_of_eq middle rfl) job
  have elem := timed.elem_of_job (by rw [middle]; decide) job
  have inside : m.iter.Inside (initTiles A t.atTrigger) := by
    rw [iter]
    exact timed.iter_inside middle
  have runtime : getRedmuleArrayRuntime A m.regs m.tiles m.iter =
      runtimeAt A t.atTrigger (m.iter.index (initTiles A t.atTrigger)) := by
    rw [tiles, ← runtime_eq elem, iterAt_index inside]
  have stamp : m.fsm.fsmTimestamp = u32 (t.system.machine.fsm.fsmTimestamp + 1) := by
    rw [fsm, Fsm.advance_timestamp]
  have ahead := timed.routine middle
  rw [← iter] at ahead
  have less : getRedmuleArrayRuntime A m.regs m.tiles m.iter < 2 ^ 32 := u32_lt _
  have latest := latency_covers less ahead
  have least : (if m.fsm.fsmTimestamp ≥ getRedmuleArrayRuntime A m.regs m.tiles m.iter then 1
      else u32 (getRedmuleArrayRuntime A m.regs m.tiles m.iter - m.fsm.fsmTimestamp + 1)) ≤
        routineLatency A m := by
    unfold routineLatency
    dsimp only
    cases (nextIteration m.tiles m.iter).2 with
    | true => exact Nat.le_add_right _ _
    | false => exact Nat.le_refl _
  rw [stamp] at least
  have step : runtimeBefore A t.atTrigger (m.iter.index (initTiles A t.atTrigger) + 1) =
      runtimeBefore A t.atTrigger (m.iter.index (initTiles A t.atTrigger)) +
        getRedmuleArrayRuntime A m.regs m.tiles m.iter := by
    rw [runtime]
    exact Finset.sum_range_succ _ _
  rw [step, ← Nat.add_assoc]
  exact Nat.lt_of_lt_of_le latest (Nat.add_le_add_left least _)

/-- The event at the end of an iteration. -/
theorem leaveRoutine_timed {m : Machine Q} {event : Bool} (timed : Timed A t)
    (middle : t.state = .routine) (sound : System.Sound ⟨leaveRoutine A m, event⟩)
    (job : m.job = t.system.machine.job) (iter : m.iter = t.system.machine.iter)
    (fsm : ∃ latency, m.fsm = t.system.machine.fsm.advance A.queueDepth latency) :
    Timed A { t with
      system := ⟨leaveRoutine A m, event⟩, cycle := t.due, due := t.due + routineLatency A m } := by
  have active := active_of_eq middle rfl
  have tiles := timed.tiles_of_job active job
  have tilesSound : m.tiles.Sound := by
    rw [tiles, ← timed.tiles active]
    exact timed.sound.machine.tiles active
  have inside : m.iter.Inside m.tiles := by
    rw [tiles, iter]
    exact timed.iter_inside middle
  have covered := runtime_covered timed middle job iter fsm
  have job' : (leaveRoutine A m).job = t.system.machine.job := leaveRoutine_job.trans job
  have tiles' := timed.tiles_of_job active job'
  have elem' := timed.elem_of_job (by rw [middle]; decide) job'
  have forwarded : (forwardLast A m).tiles = m.tiles := congrArg (fun j => j.2.2) forwardLast_job
  have iter' : (forwardLast A m).iter = m.iter := forwardLast_iter
  obtain ⟨-, it, -, index, -, next⟩ | ⟨ended, next⟩ := nextPhase_cases (A := A)
    (s := forwardLast A m) (by rw [forwarded]; exact tilesSound)
    (by rw [iter', forwarded]; exact inside)
  · have state : (leaveRoutine A m).fsm.state = .routine := congrArg (·.fsm.state) next
    have stamp : (leaveRoutine A m).fsm.fsmTimestamp = 0 := congrArg (·.fsm.fsmTimestamp) next
    have entered : (leaveRoutine A m).iter = it := congrArg Machine.iter next
    refine ⟨sound, fun _ => tiles', fun _ => elem', other_state state (by decide),
      other_state state (by decide), fun _ => ?_, other_state state (by decide)⟩
    rw [forwarded, iter', tiles] at index
    dsimp only
    rw [entered, stamp, index]
    exact covered
  · have state : (leaveRoutine A m).fsm.state = .storing := congrArg (·.fsm.state) next
    refine ⟨sound, fun _ => tiles', fun _ => elem', other_state state (by decide),
      other_state state (by decide), other_state state (by decide), fun _ => ?_⟩
    rw [forwarded, iter', tiles] at ended
    rw [← ended]
    exact covered

/-- An event after the job. -/
theorem resting_timed {m : Machine Q} {event : Bool} {due : Nat} (timed : Timed A t)
    (busy : t.state ≠ .idle) (sound : System.Sound ⟨m, event⟩)
    (regs : m.regs = t.system.machine.regs) (resting : m.fsm.state.active = false) :
    Timed A { t with system := ⟨m, event⟩, cycle := t.due, due := due } := by
  have never : ∀ {s : RedmuleState} {P : Prop}, s.active = true → m.fsm.state = s → P := by
    intro s P active same
    rw [same, active] at resting
    cases resting
  refine ⟨sound, fun active => never active rfl, fun _ => ?_, never rfl, never rfl, never rfl,
    never rfl⟩
  exact (congrArg Regs.elemSize regs).trans (timed.elem busy)

/-- A request that triggers nothing. -/
theorem request_timed {s : System Q} {cycle : Nat} (timed : Timed A t) (sound : s.Sound)
    (fsm : s.machine.fsm = t.system.machine.fsm) (tiles : s.machine.tiles = t.system.machine.tiles)
    (iter : s.machine.iter = t.system.machine.iter)
    (elem : t.state ≠ .idle → s.machine.regs.elemSize = t.system.machine.regs.elemSize) :
    Timed A { t with system := s, cycle := cycle } := by
  have state : s.machine.fsm.state = t.state := congrArg Fsm.state fsm
  refine ⟨sound, fun active => ?_, fun busy => ?_, fun first => ?_, fun first => ?_,
    fun middle => ?_, fun last => ?_⟩
  · exact tiles.trans (timed.tiles (state ▸ active))
  · have busy' : t.state ≠ .idle := fun idle => busy (state.trans idle)
    exact (elem busy').trans (timed.elem busy')
  · exact iter.trans (timed.start (state.symm.trans first))
  · exact timed.preload (state.symm.trans first)
  · have ahead := timed.routine (state.symm.trans middle)
    dsimp only
    rw [iter, fsm]
    exact ahead
  · exact timed.storing (state.symm.trans last)

theorem timed_next (timed : Timed A t) (next : t.Next A t') : Timed A t' := by
  have sound := next_sound timed.sound next
  obtain ⟨cycle, i, stepped⟩ := next
  cases step_cases timed.sound stepped with
  | request fsm tiles iter elem => exact request_timed timed sound fsm tiles iter elem
  | trigger idle preload tiles iter =>
    exact ⟨sound, fun _ => tiles, fun _ => rfl, fun _ => iter, fun _ => Nat.lt_succ_self _,
      other_state preload (by decide), other_state preload (by decide)⟩
  | event busy handled =>
    cases state : t.state with
    | idle => exact absurd state busy
    | preload =>
      have active := active_of_eq state rfl
      obtain ⟨m, accessed, rfl⟩ := fsmHandler_preload state handled
      obtain ⟨-, fsm, job, iter, -⟩ := accessPhase_spec timed.sound.machine active accessed
      dsimp only at sound ⊢
      split
      · rename_i drained
        rw [if_pos drained] at sound
        exact leavePreload_timed timed state sound job iter
      · rename_i more
        rw [if_neg more] at sound
        exact busy_timed timed active sound job iter fsm
    | routine =>
      have active := active_of_eq state rfl
      obtain ⟨m, accessed, rfl⟩ := fsmHandler_routine_eq state handled
      obtain ⟨-, fsm, job, iter, -⟩ := accessPhase_spec timed.sound.machine active accessed
      split
      · rename_i drained
        rw [if_pos drained] at sound
        exact leaveRoutine_timed timed state sound job iter fsm
      · rename_i more
        rw [if_neg more] at sound
        exact busy_timed timed active sound job iter fsm
    | storing =>
      have active := active_of_eq state rfl
      obtain ⟨m, accessed, rfl⟩ := fsmHandler_storing state handled
      obtain ⟨-, fsm, job, iter, -⟩ := accessPhase_spec timed.sound.machine active accessed
      dsimp only at sound ⊢
      split
      · rename_i drained
        rw [if_pos drained] at sound
        exact resting_timed timed busy sound (congrArg Prod.fst job) rfl
      · rename_i more
        rw [if_neg more] at sound
        exact busy_timed timed active sound job iter fsm
    | finished =>
      rw [fsmHandler_finished state] at handled
      obtain rfl := Option.some.inj handled
      dsimp only at sound ⊢
      split
      · rename_i free
        rw [if_pos free] at sound
        exact resting_timed timed busy sound rfl (congrArg RedmuleState.active state)
      · rename_i held
        rw [if_neg held] at sound
        exact resting_timed timed busy sound rfl rfl
    | acknowledge =>
      obtain ⟨q, -, rfl⟩ := fsmHandler_acknowledge state handled
      exact resting_timed timed busy sound rfl rfl

theorem timed_run {elemSize : Nat} {buffers : Datapath} {mem : Buffer}
    (run : Relation.ReflTransGen (Next A) (initial elemSize buffers mem) t) : Timed A t := by
  induction run with
  | refl => exact initial_timed
  | tail _ last ih => exact timed_next ih last

/-- A job is reported later than the modelled runtime of all iterations. -/
theorem reports_covered (timed : Timed A t) (reports : t.Reports A t') :
    (initTiles A t'.atTrigger).Sound ∧
      runtimeBefore A t'.atTrigger (initTiles A t'.atTrigger).total < t'.periodClk := by
  obtain ⟨⟨cycle, i, stepped⟩, last, finished⟩ := reports
  have active := active_of_eq last rfl
  have tiles := timed.sound.machine.tiles active
  have stored := timed.storing last
  rw [timed.tiles active] at tiles
  cases step_cases timed.sound stepped with
  | request fsm =>
    have same : t.state = .finished := (congrArg Fsm.state fsm).symm.trans finished
    rw [last] at same
    cases same
  | trigger idle =>
    rw [last] at idle
    cases idle
  | event =>
    refine ⟨tiles, ?_⟩
    unfold periodClk
    dsimp only
    omega

/-- `n` events, each of them answered at once. -/
def events (A : Arch) : Nat → Clocked Q → Option (Clocked Q)
  | 0, t => some t
  | n + 1, t => (t.step A t.due (.fsm (.ok 0))).bind (events A n)

theorem events_run {n : Nat} (ran : t.events A n = some t') :
    Relation.ReflTransGen (Next A) t t' := by
  induction n generalizing t with
  | zero =>
    obtain rfl := Option.some.inj ran
    exact .refl
  | succ n ih =>
    obtain ⟨t₁, stepped, ran'⟩ := Option.bind_eq_some_iff.mp ran
    exact .head ⟨_, _, stepped⟩ (ih ran')

end Clocked

/-- A job that is reported has taken at least as many cycles as its products need, if the modelled
runtime of an iteration fits. -/
theorem utilisation_le_one {elemSize : Nat} {buffers : Datapath} {mem : Buffer} {t t' : Clocked Q}
    (height : 0 < A.ceHeight)
    (run : Relation.ReflTransGen (Clocked.Next A) (Clocked.initial elemSize buffers mem) t)
    (reports : t.Reports A t') (fits : RuntimeFits A t'.atTrigger) :
    t'.atTrigger.mSize * t'.atTrigger.nSize * t'.atTrigger.kSize ≤
      t'.periodClk * (A.ceHeight * A.ceWidth) := by
  obtain ⟨sound, covered⟩ := Clocked.reports_covered (Clocked.timed_run run) reports
  calc t'.atTrigger.mSize * t'.atTrigger.nSize * t'.atTrigger.kSize
      ≤ runtimeBefore A t'.atTrigger (initTiles A t'.atTrigger).total * (A.ceHeight * A.ceWidth) :=
        work_le_runtime height fits sound
    _ ≤ t'.periodClk * (A.ceHeight * A.ceWidth) := Nat.mul_le_mul_right _ (Nat.le_of_lt covered)

end

/-! ## Two jobs -/

/-- The accelerator after construction. -/
def fresh : Clocked Unit := Clocked.initial 2 zeroDatapath fun _ => 0

/-- The last step of a job of the given sizes, whose accesses are all answered at once: the sizes
and the cycles that are reported. -/
def quickJob (A : Arch) (m n k : BitVec 16) (events : Nat) : Option (Clocked Unit × Clocked Unit) :=
  (fresh.step A 0 (.coreAcc (sizesAt m n k))).bind fun t =>
    (t.step A 0 (.coreAcc (startAt 0))).bind fun t =>
      (t.events A events).bind fun t => (t.step A t.due (.fsm (.ok 0))).map fun t' => (t, t')

/-- The sizes and the cycles of a report. -/
def figures (job : Clocked Unit × Clocked Unit) : RedmuleState × RedmuleState × Regs × Nat :=
  (job.1.state, job.2.state, job.2.atTrigger, job.2.periodClk)

theorem quickJob_reports {A : Arch} (m n k : BitVec 16) (events : Nat) (R : Regs) (period : Nat)
    (ran : (quickJob A m n k events).map figures = some (.storing, .finished, R, period)) :
    ∃ t t', Relation.ReflTransGen (Clocked.Next A) fresh t ∧ t.Reports A t' ∧ t'.atTrigger = R ∧
      t'.periodClk = period := by
  obtain ⟨⟨t, t'⟩, job, same⟩ := Option.map_eq_some_iff.mp ran
  obtain ⟨t₁, configured, job⟩ := Option.bind_eq_some_iff.mp job
  obtain ⟨t₂, started, job⟩ := Option.bind_eq_some_iff.mp job
  obtain ⟨t₃, events, job⟩ := Option.bind_eq_some_iff.mp job
  obtain ⟨t₄, stepped, pair⟩ := Option.map_eq_some_iff.mp job
  obtain ⟨rfl, rfl⟩ := Prod.mk.inj pair
  obtain ⟨last, finished, regs, period⟩ := by simpa only [figures, Prod.mk.injEq] using same
  exact ⟨t₃, t₄, .head ⟨_, _, configured⟩ (.head ⟨_, _, started⟩ (Clocked.events_run events)),
    ⟨⟨_, _, stepped⟩, last, finished⟩, regs, period⟩

/-- An array of 16 elements without a pipeline. -/
def squareArch : Arch := { tinyArch with ceHeight := 4, ceWidth := 4, cePipe := 0, bandwidth := 8 }

theorem utilisation_squareArch : ∃ t t', Relation.ReflTransGen (Clocked.Next squareArch) fresh t ∧
    t.Reports squareArch t' ∧ t'.periodClk = 17 ∧ 4 * 4 * 4 ≤ t'.periodClk * (4 * 4) := by
  obtain ⟨t, t', run, reports, regs, period⟩ :=
    quickJob_reports (A := squareArch) 4 4 4 12 ⟨4, 4, 4, 0, 0, 0, 0, 2⟩ 17 (by decide +kernel)
  have fits : RuntimeFits squareArch t'.atTrigger := by
    rw [regs]
    exact ⟨by decide, by decide, by decide⟩
  have covered := utilisation_le_one (by decide) run reports fits
  rw [regs] at covered
  exact ⟨t, t', run, reports, period, covered⟩

/-- An array of one element with a pipeline of `2 ^ 23` stages. -/
def deepArch : Arch := { tinyArch with cePipe := 2 ^ 23 - 1, bandwidth := 1024 }

/-- The runtime of 512 rows wraps to 0. -/
theorem runtime_wraps : ∃ t t', Relation.ReflTransGen (Clocked.Next deepArch) fresh t ∧
    t.Reports deepArch t' ∧ t'.atTrigger = ⟨1, 512, 65535, 0, 0, 0, 0, 2⟩ ∧
      t'.periodClk = 8389123 ∧ t'.periodClk * (deepArch.ceHeight * deepArch.ceWidth) <
        t'.atTrigger.mSize * t'.atTrigger.nSize * t'.atTrigger.kSize := by
  obtain ⟨t, t', run, reports, regs, period⟩ :=
    quickJob_reports (A := deepArch) 1 512 65535 514 ⟨1, 512, 65535, 0, 0, 0, 0, 2⟩ 8389123
      (by decide +kernel)
  refine ⟨t, t', run, reports, regs, period, ?_⟩
  rw [regs, period]
  decide

end SoftHier.Redmule
