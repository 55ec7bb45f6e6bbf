import Mathlib.Logic.Relation
import SoftHier.Redmule.Steps

/-!
# The configuration of a running job

The registers are to change only by a write to their own offset or by a configuration request of a
core, and only while the accelerator is idle.  The memory-mapped port takes every request at the
offset of a register for a write, whatever its direction and whatever the state.

* `configStep_iff`: a step leaves the configuration stable exactly if it makes no such request, or
  one with the value that the register holds.
* `config_stable`: a run of such steps uses the configuration of its trigger.
* `read_changes_m`: a read at the offset of a register changes it during a run.
-/

namespace SoftHier.Redmule

/-- The registers of a job. -/
inductive Register
  | m | n | k | x | y | z | w
  deriving DecidableEq, Repr

/-- The offset on the memory-mapped port. -/
def Register.offset : Register → Nat
  | .m => 0
  | .n => 4
  | .k => 8
  | .x => 12
  | .y => 16
  | .z => 20
  | .w => 24

/-- The offset of the request on the core-accelerator port that configures the register. -/
def Register.accOffset : Register → Nat
  | .m | .n | .k => 0
  | .x | .y | .z | .w => 4

/-- The value of a register. -/
def Regs.get (R : Regs) : Register → Nat
  | .m => R.mSize
  | .n => R.nSize
  | .k => R.kSize
  | .x => R.xAddr
  | .y => R.yAddr
  | .z => R.zAddr
  | .w => R.wAddr

section

variable {Q : Type*} {A : Arch}

/-- The input is a write to the offset of the register, or the request that configures it. -/
def Input.Writes (r : Register) : Input Q → Prop
  | .mmio _ io => io.isWrite = true ∧ io.offset = r.offset
  | .coreAcc io => io.offset = r.accOffset
  | .fsm _ => False

/-- A register changes only by an input that writes it, and only in `IDLE`. -/
def ConfigStep (s : System Q) (i : Input Q) (s' : System Q) : Prop :=
  ∀ r, s'.machine.regs.get r ≠ s.machine.regs.get r → i.Writes r ∧ s.machine.fsm.state = .idle

/-- A request on the memory-mapped port at the offset of a register is a write in `IDLE`, or its
data is what the register holds. -/
def Undisturbed (s : System Q) : Input Q → Prop
  | .mmio _ io => ∀ r : Register, io.offset = r.offset →
      (io.isWrite = true ∧ s.machine.fsm.state = .idle) ∨
        (loadLe io.data 0 4).toNat = s.machine.regs.get r
  | _ => True

theorem get_writeReg (R : Regs) (offset value : Nat) (r : Register) :
    (writeReg R offset value).get r = if offset = r.offset then value else R.get r := by
  split
  · rename_i own
    rw [own]
    cases r <;> rfl
  · rename_i other
    unfold writeReg
    cases r <;> split <;> first | rfl | exact absurd rfl other

theorem elemSize_writeReg (R : Regs) (offset value : Nat) :
    (writeReg R offset value).elemSize = R.elemSize := by
  unfold writeReg
  split <;> rfl

theorem Regs.eq_of_get {R R' : Regs} (get : ∀ r, R.get r = R'.get r)
    (elemSize : R.elemSize = R'.elemSize) : R = R' := by
  have m : R.mSize = R'.mSize := get .m
  have n : R.nSize = R'.nSize := get .n
  have k : R.kSize = R'.kSize := get .k
  have x : R.xAddr = R'.xAddr := get .x
  have y : R.yAddr = R'.yAddr := get .y
  have z : R.zAddr = R'.zAddr := get .z
  have w : R.wAddr = R'.wAddr := get .w
  cases R
  cases R'
  simp_all only

/-- Whatever the request, its data goes to the register at its offset. -/
theorem req_regs {s : Machine Q} {e : Effect Q} {q : Q} {r : IoReq}
    (requested : req A q r s = some e) :
    e.machine.regs = writeReg s.regs r.offset (loadLe r.data 0 4).toNat := by
  obtain ⟨-, at', -, -, s₁, triggered, rfl⟩ | ⟨-, at', -, s₁, triggered, rfl⟩ |
    ⟨-, at', -, -, rfl⟩ | rfl :=
    req_cases requested
  · obtain ⟨-, -, -, rfl⟩ := trigger_eq triggered
    rw [at']
    rfl
  · obtain ⟨-, -, -, rfl⟩ := trigger_eq triggered
    rw [at']
    rfl
  · rw [at']
    rfl
  · rfl

/-- On the core-accelerator port only an idle accelerator is configured, each register by its own
request. -/
theorem coreAccReq_regs {s : Machine Q} {e : Effect Q} {r : IoReq}
    (requested : coreAccReq A r s = some e) : e.machine.regs = s.regs ∨
      s.fsm.state = .idle ∧ ∀ g : Register, e.machine.regs.get g ≠ s.regs.get g →
        r.offset = g.accOffset := by
  obtain ⟨at', idle, rfl⟩ | ⟨at', idle, s₁, triggered, rfl⟩ | ⟨rfl, -⟩ := coreAccReq_cases requested
  · refine Or.inr ⟨idle, fun g changed => ?_⟩
    cases g <;> first | exact at' | exact absurd rfl changed
  · obtain ⟨-, -, -, rfl⟩ := trigger_eq triggered
    refine Or.inr ⟨idle, fun g changed => ?_⟩
    cases g <;> first | exact at' | exact absurd rfl changed
  · exact Or.inl rfl

variable {s s' : System Q} {i : Input Q} {a : Answer Q}

theorem step_mmio {q : Q} {r : IoReq} (stepped : s.step A (.mmio q r) = some (s', a)) :
    ∃ e, req A q r s.machine = some e ∧ s' = ⟨e.machine, s.event || e.enqueue.isSome⟩ ∧
      a = e.answer := by
  obtain ⟨e, requested, same⟩ := Option.map_eq_some_iff.mp stepped
  obtain ⟨rfl, rfl⟩ := Prod.mk.inj same
  exact ⟨e, requested, rfl, rfl⟩

theorem step_coreAcc {r : IoReq} (stepped : s.step A (.coreAcc r) = some (s', a)) :
    ∃ e, coreAccReq A r s.machine = some e ∧ s' = ⟨e.machine, s.event || e.enqueue.isSome⟩ ∧
      a = e.answer := by
  obtain ⟨e, requested, same⟩ := Option.map_eq_some_iff.mp stepped
  obtain ⟨rfl, rfl⟩ := Prod.mk.inj same
  exact ⟨e, requested, rfl, rfl⟩

theorem step_fsm {status : TcdmStatus} (stepped : s.step A (.fsm status) = some (s', a)) :
    s.event = true ∧ ∃ e, fsmHandler A status s.machine = some e ∧
      s' = ⟨e.machine, e.enqueue.isSome⟩ ∧ a = e.answer := by
  dsimp only [System.step] at stepped
  split at stepped
  · rename_i enqueued
    obtain ⟨e, handled, same⟩ := Option.map_eq_some_iff.mp stepped
    obtain ⟨rfl, rfl⟩ := Prod.mk.inj same
    exact ⟨enqueued, e, handled, rfl, rfl⟩
  · cases stepped

theorem fsm_regs {status : TcdmStatus} (stepped : s.step A (.fsm status) = some (s', a)) :
    s'.machine.regs = s.machine.regs := by
  obtain ⟨-, e, handled, rfl, -⟩ := step_fsm stepped
  exact congrArg Prod.fst (fsmHandler_job handled)

/-- The steps that keep the configuration stable. -/
theorem configStep_iff (stepped : s.step A i = some (s', a)) :
    ConfigStep s i s' ↔ Undisturbed s i := by
  cases i with
  | mmio q io =>
    obtain ⟨e, requested, rfl, -⟩ := step_mmio stepped
    constructor
    · intro stable r own
      have written : e.machine.regs.get r = (loadLe io.data 0 4).toNat := by
        rw [req_regs requested, get_writeReg, if_pos own]
      by_cases same : (loadLe io.data 0 4).toNat = s.machine.regs.get r
      · exact Or.inr same
      · obtain ⟨⟨write, -⟩, idle⟩ := stable r (by rw [written]; exact same)
        exact Or.inl ⟨write, idle⟩
    · intro undisturbed r changed
      rw [req_regs requested, get_writeReg] at changed
      split at changed
      · rename_i own
        obtain ⟨write, idle⟩ | same := undisturbed r own
        · exact ⟨⟨write, own⟩, idle⟩
        · exact absurd same changed
      · exact absurd rfl changed
  | coreAcc io =>
    obtain ⟨e, requested, rfl, -⟩ := step_coreAcc stepped
    apply iff_of_true _ trivial
    intro r changed
    obtain same | ⟨idle, own⟩ := coreAccReq_regs requested
    · exact absurd (congrArg (Regs.get · r) same) changed
    · exact ⟨own r changed, idle⟩
  | fsm status =>
    apply iff_of_true _ trivial
    intro r changed
    exact absurd (congrArg (Regs.get · r) (fsm_regs stepped)) changed

/-- A running accelerator keeps its element size. -/
theorem step_elemSize (busy : s.machine.fsm.state ≠ .idle) (stepped : s.step A i = some (s', a)) :
    s'.machine.regs.elemSize = s.machine.regs.elemSize := by
  cases i with
  | mmio q io =>
    obtain ⟨e, requested, rfl, -⟩ := step_mmio stepped
    dsimp only
    rw [req_regs requested, elemSize_writeReg]
  | coreAcc io =>
    obtain ⟨e, requested, rfl, -⟩ := step_coreAcc stepped
    obtain same | ⟨idle, -⟩ := coreAccReq_regs requested
    · exact congrArg Regs.elemSize same
    · exact absurd idle busy
  | fsm status => exact congrArg Regs.elemSize (fsm_regs stepped)

/-! ## Runs -/

/-- A system with the configuration that its last trigger found. -/
structure Monitored (Q : Type*) where
  system : System Q
  atTrigger : Regs

/-- While the accelerator is idle, the configuration is that of the next trigger. -/
def Monitored.step (A : Arch) (t : Monitored Q) (i : Input Q) : Option (Monitored Q) :=
  (t.system.step A i).map fun (s, _) =>
    ⟨s, if t.system.machine.fsm.state = .idle then s.machine.regs else t.atTrigger⟩

/-- A step that meets the condition. -/
def UndisturbedStep (A : Arch) (t t' : Monitored Q) : Prop :=
  ∃ i, Undisturbed t.system i ∧ t.step A i = some t'

/-- A run from an idle accelerator whose steps make no request at the offset of a register but
writes in `IDLE` and requests with the value that the register holds: in every state it reaches, a
running job has the configuration of its trigger, and the steps from there that change no register
otherwise are again those that meet the condition. -/
theorem config_stable {s₀ : System Q} (idle : s₀.machine.fsm.state = .idle) {t : Monitored Q}
    (run : Relation.ReflTransGen (UndisturbedStep A) ⟨s₀, s₀.machine.regs⟩ t) :
    (t.system.machine.fsm.state ≠ .idle → t.system.machine.regs = t.atTrigger) ∧
      ∀ i t', t.step A i = some t' →
        (ConfigStep t.system i t'.system ↔ Undisturbed t.system i) := by
  constructor
  · induction run with
    | refl => exact fun busy => absurd idle busy
    | @tail t t' _ last ih =>
      obtain ⟨i, undisturbed, monitored⟩ := last
      obtain ⟨⟨s', a⟩, stepped, rfl⟩ := Option.map_eq_some_iff.mp monitored
      intro _
      dsimp only
      split
      · rfl
      · rename_i busy
        rw [← ih busy]
        apply Regs.eq_of_get
        · intro r
          by_contra changed
          exact busy ((configStep_iff stepped).mpr undisturbed r changed).2
        · exact step_elemSize busy stepped
  · intro i t' monitored
    obtain ⟨⟨s', a⟩, stepped, rfl⟩ := Option.map_eq_some_iff.mp monitored
    exact configStep_iff stepped

end

/-- An array of one element, with blocks of two rows of W and two columns. -/
def tinyArch : Arch where
  ceHeight := 1
  ceWidth := 1
  cePipe := 1
  queueDepth := 1
  bandwidth := 4
  foldTilesMapping := false
  matmulFp16 := fun z _ _ _ _ _ => z
  matmulFp8e4m3 := fun z _ _ _ _ _ => z

/-- Buffers that are all zero. -/
def zeroDatapath : Datapath :=
  ⟨0, 0, 0, 0, 0, 0, fun _ => 0, fun _ => 0, fun _ => 0, fun _ => 0, fun _ => 0, fun _ => 0⟩

/-- A read at `offset`, whose data holds `value`. -/
def readAt (offset : Nat) (value : Byte) : IoReq :=
  ⟨offset, false, fun i => if i = 0 then value else 0⟩

/-- The accelerator that executes a job of the sizes it is constructed with. -/
def tinySystem : System Unit := System.initial 2 zeroDatapath fun _ => 0

theorem config_stable_tinySystem :
    ∃ t, Relation.ReflTransGen (UndisturbedStep tinyArch) ⟨tinySystem, tinySystem.machine.regs⟩ t ∧
      t.system.machine.fsm.state = .preload ∧
      (t.system.machine.fsm.state ≠ .idle → t.system.machine.regs = t.atTrigger) ∧
      ∀ i t', t.step tinyArch i = some t' →
        (ConfigStep t.system i t'.system ↔ Undisturbed t.system i) := by
  have undisturbed : Undisturbed tinySystem (.mmio () (readAt 36 0)) := by
    intro r own
    cases r <;> cases own
  have run : Relation.ReflTransGen (UndisturbedStep tinyArch)
      ⟨tinySystem, tinySystem.machine.regs⟩ _ :=
    .single ⟨.mmio () (readAt 36 0), undisturbed, rfl⟩
  exact ⟨_, run, rfl, config_stable rfl run⟩

/-- A read of the M register in `PRELOAD` sets it to what the data of the request holds. -/
theorem read_changes_m : ∃ s s' : System Unit,
    tinySystem.step tinyArch (.mmio () (readAt 36 0)) = some (s, .ok) ∧
      s.machine.fsm.state = .preload ∧
      s.step tinyArch (.mmio () (readAt 0 9)) = some (s', .ok) ∧
      s.machine.regs.get .m = 4 ∧ s'.machine.regs.get .m = 9 ∧
      ¬ ConfigStep s (.mmio () (readAt 0 9)) s' := by
  refine ⟨_, _, rfl, rfl, rfl, rfl, rfl, ?_⟩
  intro stable
  exact absurd (stable .m (by decide)).2 (by decide)

end SoftHier.Redmule
