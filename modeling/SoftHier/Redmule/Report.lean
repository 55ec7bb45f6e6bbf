import SoftHier.Redmule.TimingOnly

/-!
# The report of a job

The accelerator on its clock, and the figures that it reports when a job is finished.

* `Clocked`, `Clocked.step`: an event comes at the cycle that it is enqueued for, a request at any
  cycle until then.
* `idealNumerator`, `gemmSize`, `Clocked.periodClk`: the figures of the report.
* `Clocked.StepCase`, `Clocked.step_cases`: what a step does to the clock and to the job.
* `statistics_iff`: when the work that is reported is exact.
-/

namespace SoftHier.Redmule

/-- The product of which `ideal_runtime` is computed at a trigger. -/
def idealNumerator (R : Regs) : Nat := u32 (u32 (R.mSize * R.nSize) * R.kSize)

/-- `gemm_size` -/
def gemmSize (R : Regs) : Nat :=
  u32 (2 * u32 (u32 (u32 (R.mSize * R.nSize) + u32 (R.nSize * R.kSize)) +
    u32 (u32 (2 * R.mSize) * R.kSize)))

section

variable {Q : Type*}

/-- The accelerator with the cycle of its last input, the cycle that its event is enqueued for, and
what the last trigger stored. -/
structure Clocked (Q : Type*) where
  system : System Q
  cycle : Nat
  due : Nat
  cycleStart : Nat
  atTrigger : Regs

namespace Clocked

/-- The accelerator after construction. -/
def initial (elemSize : Nat) (buffers : Datapath) (mem : Buffer) : Clocked Q where
  system := System.initial elemSize buffers mem
  cycle := 0
  due := 0
  cycleStart := 0
  atTrigger := (System.initial elemSize buffers mem : System Q).machine.regs

variable (A : Arch) (t : Clocked Q)

/-- The state of the state machine. -/
def state : RedmuleState := t.system.machine.fsm.state

/-- The clock after an input with effect `e`.  A trigger stores the cycle and, as the ideal
runtime, the sizes that it finds. -/
def after (cycle : Nat) (event : Bool) (e : Effect Q) : Clocked Q :=
  let triggered := t.state = .idle ∧ e.machine.fsm.state ≠ .idle
  { system := ⟨e.machine, event⟩
    cycle := cycle
    due := e.enqueue.elim t.due (cycle + ·)
    cycleStart := if triggered then cycle else t.cycleStart
    atTrigger := if triggered then e.machine.regs else t.atTrigger }

/-- A request, not later than the event that is enqueued. -/
def request (cycle : Nat) (e : Option (Effect Q)) : Option (Clocked Q) :=
  if t.cycle ≤ cycle ∧ (t.system.event = true → cycle ≤ t.due) then
    e.map fun e => t.after cycle (t.system.event || e.enqueue.isSome) e
  else none

/-- An input at a cycle. -/
def step (cycle : Nat) : Input Q → Option (Clocked Q)
  | .mmio q r => t.request cycle (req A q r t.system.machine)
  | .coreAcc r => t.request cycle (coreAccReq A r t.system.machine)
  | .fsm status =>
    if t.system.event ∧ cycle = t.due then
      (fsmHandler A status t.system.machine).map fun e => t.after cycle e.enqueue.isSome e
    else none

/-- `period_clk` -/
def periodClk : Nat := t.cycle - t.cycleStart

/-- Some input comes. -/
def Next (t t' : Clocked Q) : Prop := ∃ cycle i, t.step A cycle i = some t'

/-- The job is finished by this step, and reported. -/
def Reports (t t' : Clocked Q) : Prop := t.Next A t' ∧ t.state = .storing ∧ t'.state = .finished

/-- What a step does. -/
inductive StepCase : Clocked Q → Prop
  /-- A request that triggers nothing. -/
  | request {cycle : Nat} {s : System Q} (fsm : s.machine.fsm = t.system.machine.fsm)
      (tiles : s.machine.tiles = t.system.machine.tiles)
      (iter : s.machine.iter = t.system.machine.iter)
      (elem : t.state ≠ .idle → s.machine.regs.elemSize = t.system.machine.regs.elemSize) :
      StepCase { t with system := s, cycle := cycle }
  | trigger {cycle : Nat} {m : Machine Q} (idle : t.state = .idle)
    (preload : m.fsm.state = .preload)
      (tiles : m.tiles = initTiles A m.regs) (iter : m.iter = ⟨0, 0, 0⟩) :
      StepCase ⟨⟨m, true⟩, cycle, cycle + 1, cycle, m.regs⟩
  | event {status : TcdmStatus} {e : Effect Q} (busy : t.state ≠ .idle)
      (handled : fsmHandler A status t.system.machine = some e) :
      StepCase { t with
        system := ⟨e.machine, e.enqueue.isSome⟩
        cycle := t.due
        due := e.enqueue.elim t.due (t.due + ·) }

variable {A t} {t' : Clocked Q} {cycle : Nat} {i : Input Q}

theorem request_eq_some {e : Option (Effect Q)} (requested : t.request cycle e = some t') :
    ∃ e', e = some e' ∧ t' = t.after cycle (t.system.event || e'.enqueue.isSome) e' := by
  unfold request at requested
  split at requested
  · obtain ⟨e', same, rfl⟩ := Option.map_eq_some_iff.mp requested
    exact ⟨e', same, rfl⟩
  · cases requested

theorem event_eq_some {status : TcdmStatus} (stepped : t.step A cycle (.fsm status) = some t') :
    t.system.event = true ∧ cycle = t.due ∧ ∃ e, fsmHandler A status t.system.machine = some e ∧
      t' = t.after cycle e.enqueue.isSome e := by
  dsimp only [step] at stepped
  split at stepped
  · rename_i canCome
    obtain ⟨e, handled, rfl⟩ := Option.map_eq_some_iff.mp stepped
    exact ⟨canCome.1, canCome.2, e, handled, rfl⟩
  · cases stepped

/-- A run on the clock is a run. -/
theorem step_system (stepped : t.step A cycle i = some t') :
    ∃ a, t.system.step A i = some (t'.system, a) := by
  cases i with
  | mmio q io =>
    obtain ⟨e, requested, rfl⟩ := request_eq_some stepped
    exact ⟨e.answer, congrArg (Option.map _) requested⟩
  | coreAcc io =>
    obtain ⟨e, requested, rfl⟩ := request_eq_some stepped
    exact ⟨e.answer, congrArg (Option.map _) requested⟩
  | fsm status =>
    obtain ⟨enqueued, -, e, handled, rfl⟩ := event_eq_some stepped
    refine ⟨e.answer, ?_⟩
    dsimp only [System.step]
    rw [if_pos enqueued, handled]
    rfl

/-- A request that leaves the state machine as it is triggers nothing. -/
theorem request_case {event : Bool} {m : Machine Q} {a : Answer Q}
    (fsm : m.fsm = t.system.machine.fsm) (tiles : m.tiles = t.system.machine.tiles)
    (iter : m.iter = t.system.machine.iter)
    (elem : t.state ≠ .idle → m.regs.elemSize = t.system.machine.regs.elemSize) :
    StepCase A t (t.after cycle event ⟨m, none, a⟩) := by
  have quiet : ¬ (t.state = .idle ∧ m.fsm.state ≠ .idle) := by
    intro both
    rw [fsm] at both
    exact both.2 both.1
  unfold after
  dsimp only
  rw [if_neg quiet, if_neg quiet]
  exact .request fsm tiles iter elem

/-- An accepted trigger, after which the mode and the waiting request may be set. -/
theorem trigger_case {m m' : Machine Q} {a : Answer Q} (idle : t.state = .idle)
    (triggered : trigger A m = some m') (computeAble : Nat) (held : Option Q) :
    StepCase A t (t.after cycle true
      ⟨{ m' with computeAble := computeAble, redmuleQuery := held }, some 1, a⟩) := by
  obtain ⟨-, -, -, same⟩ := trigger_eq triggered
  have preload : m'.fsm.state = .preload := by
    rw [same]
    rfl
  have tiles : m'.tiles = initTiles A m'.regs := by
    rw [same]
    rfl
  have iter : m'.iter = ⟨0, 0, 0⟩ := by
    rw [same]
    rfl
  have both : t.state = .idle ∧ m'.fsm.state ≠ .idle := ⟨idle, by rw [preload]; decide⟩
  unfold after
  dsimp only
  rw [if_pos both, if_pos both]
  exact .trigger idle preload tiles iter

theorem step_cases (sound : t.system.Sound) (stepped : t.step A cycle i = some t') :
    StepCase A t t' := by
  cases i with
  | mmio q io =>
    obtain ⟨e, requested, rfl⟩ := request_eq_some stepped
    obtain ⟨-, -, -, idle, m, triggered, rfl⟩ | ⟨-, -, idle, m, triggered, rfl⟩ |
      ⟨-, -, -, -, rfl⟩ | rfl := req_cases requested
    · rw [Option.isSome_some, Bool.or_true]
      exact trigger_case idle triggered _ _
    · rw [Option.isSome_some, Bool.or_true]
      exact trigger_case idle triggered _ _
    · exact request_case rfl rfl rfl fun _ => rfl
    · exact request_case rfl rfl rfl fun _ => elemSize_writeReg _ _ _
  | coreAcc io =>
    obtain ⟨e, requested, rfl⟩ := request_eq_some stepped
    obtain ⟨-, idle, rfl⟩ | ⟨-, idle, m, triggered, rfl⟩ | ⟨rfl, -⟩ := coreAccReq_cases requested
    · exact request_case rfl rfl rfl fun busy => absurd idle busy
    · rw [Option.isSome_some, Bool.or_true]
      exact trigger_case idle triggered _ _
    · exact request_case rfl rfl rfl fun _ => rfl
  | fsm status =>
    obtain ⟨enqueued, rfl, e, handled, rfl⟩ := event_eq_some stepped
    have busy : t.state ≠ .idle := sound.event.mp enqueued
    unfold after
    dsimp only
    rw [if_neg fun both => busy both.1, if_neg fun both => busy both.1]
    exact .event busy handled

theorem next_sound (sound : t.system.Sound) (next : t.Next A t') : t'.system.Sound := by
  obtain ⟨cycle, i, stepped⟩ := next
  obtain ⟨a, stepped'⟩ := step_system stepped
  exact step_sound sound (Redmule.step_cases sound stepped')

/-- While requests leave the registers of a running job alone, they are those that the trigger
found. -/
theorem registers_step (sound : t.system.Sound) (undisturbed : Undisturbed t.system i)
    (same : t.state ≠ .idle → t.system.machine.regs = t.atTrigger)
    (stepped : t.step A cycle i = some t') :
    t'.state ≠ .idle → t'.system.machine.regs = t'.atTrigger := by
  obtain ⟨a, stepped'⟩ := step_system stepped
  have stable := (configStep_iff stepped').mpr undisturbed
  -- a step of a running job keeps its registers
  have kept : t.state ≠ .idle → t'.system.machine.regs = t.system.machine.regs := by
    intro busy
    apply Regs.eq_of_get
    · intro r
      by_contra changed
      exact busy (stable r changed).2
    · exact step_elemSize busy stepped'
  cases step_cases sound stepped with
  | request fsm =>
    intro busy
    have before : t.state ≠ .idle := by
      intro idle
      exact busy ((congrArg Fsm.state fsm).trans idle)
    exact (kept before).trans (same before)
  | trigger => exact fun _ => rfl
  | event before handled => exact fun _ => (kept before).trans (same before)

end Clocked

/-! ## The work of a job -/

variable {A : Arch} {R : Regs}

/-- The product is `M * N * K`, and the size that of the matrices, Z counted twice, two bytes an
element. -/
structure StatisticsExact (R : Regs) : Prop where
  ideal : idealNumerator R = R.mSize * R.nSize * R.kSize
  gemm : gemmSize R = 2 * (R.mSize * R.nSize + R.nSize * R.kSize + 2 * (R.mSize * R.kSize))

theorem idealNumerator_eq (R : Regs) : idealNumerator R = u32 (R.mSize * R.nSize * R.kSize) := by
  unfold idealNumerator u32
  rw [Nat.mod_mul_mod]

theorem gemmSize_eq (R : Regs) : gemmSize R =
    u32 (2 * (R.mSize * R.nSize + R.nSize * R.kSize + 2 * (R.mSize * R.kSize))) := by
  unfold gemmSize u32
  rw [Nat.mod_mul_mod, Nat.mul_assoc 2, ← Nat.add_mod (R.mSize * R.nSize), ← Nat.add_mod,
    Nat.mul_mod_mod]

theorem u32_eq_self_iff {n : Nat} : u32 n = n ↔ n < 2 ^ 32 :=
  ⟨fun same => same ▸ u32_lt n, u32_of_lt⟩

/-- The figures of a running job are those of one configuration, while requests leave its registers
alone. -/
theorem registers_run {elemSize : Nat} {buffers : Datapath} {mem : Buffer} {t : Clocked Q}
    (run : Relation.ReflTransGen
      (fun t t' => ∃ cycle i, Undisturbed t.system i ∧ t.step A cycle i = some t')
      (Clocked.initial elemSize buffers mem) t) :
    t.system.Sound ∧ (t.state ≠ .idle → t.system.machine.regs = t.atTrigger) := by
  induction run with
  | refl => exact ⟨initial_sound, fun _ => rfl⟩
  | tail _ last ih =>
    obtain ⟨cycle, i, undisturbed, stepped⟩ := last
    exact ⟨Clocked.next_sound ih.1 ⟨cycle, i, stepped⟩,
      Clocked.registers_step ih.1 undisturbed ih.2 stepped⟩

/-- The figures of a job are exact as long as both of them fit into 32 bits. -/
theorem statistics_iff (R : Regs) : StatisticsExact R ↔ R.mSize * R.nSize * R.kSize < 2 ^ 32 ∧
    2 * (R.mSize * R.nSize + R.nSize * R.kSize + 2 * (R.mSize * R.kSize)) < 2 ^ 32 := by
  rw [← u32_eq_self_iff, ← u32_eq_self_iff, ← idealNumerator_eq, ← gemmSize_eq]
  exact ⟨fun exact' => ⟨exact'.ideal, exact'.gemm⟩, fun ⟨ideal, gemm⟩ => ⟨ideal, gemm⟩⟩

end

/-- The request of a core that configures the sizes. -/
def sizesAt (m n k : BitVec 16) : IoReq :=
  ⟨0, true, storeLe (storeLe (storeLe (fun _ => 0) 0 2 m) 2 2 n) 4 2 k⟩

/-- A core configures a job of size 2048 in each direction and starts it.  Its product is 0. -/
theorem product_wraps : ∃ s s' : System Unit,
    tinySystem.step tinyArch (.coreAcc (sizesAt 2048 2048 2048)) = some (s, .ok) ∧
      s.step tinyArch (.coreAcc (startAt 1)) = some (s', .ok) ∧ s'.machine.fsm.state = .preload ∧
      s'.machine.regs.mSize = 2048 ∧ s'.machine.regs.nSize = 2048 ∧ s'.machine.regs.kSize = 2048 ∧
      idealNumerator s'.machine.regs = 0 ∧ ¬ StatisticsExact s'.machine.regs := by
  refine ⟨_, _, rfl, rfl, rfl, rfl, rfl, rfl, rfl, fun exact' => ?_⟩
  have ideal := exact'.ideal
  have product : (2048 * 2048 * 2048 : Nat) = 0 := ideal.symm
  omega

end SoftHier.Redmule
