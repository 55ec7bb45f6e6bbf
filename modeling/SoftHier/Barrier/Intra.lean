import SoftHier.Barrier.Wakeup

/-!
# The intra-cluster barrier

The cores of a cluster run through their synchronisation points in lockstep: they all have passed
the same number of them, and the status register holds the cores that wait at the next one.

* `WakeupCore.level`: the synchronisation points a core has passed.
* `IntraInv`: what holds for the cores of a cluster and its status register.
* `intra_move`, `intra_sync`: the accesses keep it.
* `IntraInv.blocked`: if every core is blocked or done, the dm core is not at a synchronisation
  point.
-/

namespace SoftHier.Barrier

/-- The core waits for the acknowledge of the intra-cluster barrier. -/
def WakeupPc.isWaiting : WakeupPc → Bool
  | .syncWait _ => true
  | _ => false

/-- The core only synchronises. -/
def WakeupPc.synchronises : WakeupPc → Bool
  | .sync _ | .syncWait _ | .out => true
  | _ => false

/-- The core is in the part of `flex_barrier_xy_init` that only cluster 0 executes. -/
def WakeupPc.starts : WakeupPc → Bool
  | .initY | .initX _ | .wakeup .init => true
  | _ => false

/-- The synchronisation points a core has passed: one in `flex_barrier_xy_init`, two in a call. -/
def WakeupCore.level (me : WakeupCore) : Nat :=
  match me.pc with
  | .initY | .initX _ | .wakeup .init | .reg .init | .regWait .init | .sync .init
  | .syncWait .init => 0
  | .out | .sync .entry | .syncWait .entry => 2 * me.calls + 1
  | .amoX | .resetX | .amoY | .resetY | .wakeup .call | .reg .call | .regWait .call
  | .sync .exit | .syncWait .exit => 2 * me.calls + 2

/-- What holds for one core. -/
structure CoreOk (rounds : Nat) (isFirst isDm : Prop) (me : WakeupCore) : Prop where
  calls_le : me.calls ≤ rounds
  running : me.pc.inCall = true → me.calls < rounds
  starting : me.level = 0 → me.calls = 0
  serves : ¬ isDm → me.pc.synchronises = true
  first : me.pc.starts = true → isFirst

/-- What holds for the cores of a cluster and its status register. -/
structure IntraInv {M : Machine} (rounds : Nat) (isFirst : Prop) (core : Fin M.nbCores → WakeupCore)
    (status : BitVec 32) : Prop where
  ok : ∀ j, CoreOk rounds isFirst (j = M.dmCore) (core j)
  level : ∀ j k, (core j).level = (core k).level
  bits : ∀ j : Fin M.nbCores, status.getLsbD j = true ↔ (core j).pc.isWaiting = true
  high : ∀ i, M.nbCores ≤ i → status.getLsbD i = false
  awake : ∃ j, (core j).pc.isWaiting = false

section

variable {M : Machine} {rounds : Nat} {isFirst : Prop} {core : Fin M.nbCores → WakeupCore}
  {status : BitVec 32} {j : Fin M.nbCores} {me : WakeupCore}

/-! ## The status register -/

/-- The comparison of `barrier_sync` holds when every core has its bit set. -/
theorem full_iff (high : ∀ i, M.nbCores ≤ i → status.getLsbD i = false) :
    status.toNat = 2 ^ M.nbCores - 1 ↔ ∀ k : Fin M.nbCores, status.getLsbD k = true := by
  constructor
  · intro eq k
    show status.toNat.testBit k = true
    rw [eq, Nat.testBit_two_pow_sub_one]
    exact decide_eq_true k.isLt
  · intro all
    refine Nat.eq_of_testBit_eq fun i => ?_
    rw [Nat.testBit_two_pow_sub_one]
    by_cases low : i < M.nbCores
    · rw [decide_eq_true low]
      exact all ⟨i, low⟩
    · rw [decide_eq_false low]
      exact high i (Nat.le_of_not_lt low)

/-- A core sets its bit and no other. -/
theorem getLsbD_set (j : Fin M.nbCores) (i : Nat) :
    (status ||| (1#32 <<< j.val)).getLsbD i = (status.getLsbD i || decide (i = j.val)) := by
  have bound : j.val < 32 := by
    have := j.isLt
    have := M.nbCores_le
    omega
  have bit : (1#32 <<< j.val).getLsbD i = decide (i = j.val) := by
    rw [BitVec.getLsbD_shiftLeft]
    have one : (1#32).getLsbD (i - j.val) = decide (i - j.val = 0) := by
      exact BitVec.getLsbD_one.trans (Bool.true_and _)
    rw [one]
    by_cases same : i = j.val
    · subst same
      simp [bound]
    · by_cases below : i < j.val
      · simp [same, below]
      · have apart : i - j.val ≠ 0 := by omega
        simp [same, apart]
  rw [BitVec.getLsbD_or, bit]

/-! ## Accesses -/

/-- A core moves on between two synchronisation points. -/
theorem intra_move (inv : IntraInv rounds isFirst core status)
    (ok : CoreOk rounds isFirst (j = M.dmCore) me) (level : me.level = (core j).level)
    (runs : (core j).pc.isWaiting = false) (runs' : me.pc.isWaiting = false) :
    IntraInv rounds isFirst (Function.update core j me) status := by
  have same : ∀ k, (Function.update core j me k).level = (core k).level := by
    intro k
    by_cases here : k = j
    · subst here
      rw [Function.update_self, level]
    · rw [Function.update_of_ne here]
  have waits : ∀ k, (Function.update core j me k).pc.isWaiting = (core k).pc.isWaiting := by
    intro k
    by_cases here : k = j
    · subst here
      rw [Function.update_self, runs, runs']
    · rw [Function.update_of_ne here]
  refine ⟨?_, fun i k => ?_, fun k => ?_, inv.high, ?_⟩
  · exact (Function.forall_update_iff _ fun k me => CoreOk rounds isFirst (k = M.dmCore) me).mpr
      ⟨ok, fun k _ => inv.ok k⟩
  · rw [same, same]
    exact inv.level i k
  · rw [waits]
    exact inv.bits k
  · obtain ⟨k, awake⟩ := inv.awake
    exact ⟨k, by rw [waits]; exact awake⟩

/-- The acknowledge leads a waiting core to the next level. -/
theorem level_acknowledge {isDm : Prop} [Decidable isDm] (ok : CoreOk rounds isFirst isDm me)
    (waits : me.pc.isWaiting = true) :
    (me.acknowledge (decide isDm)).level = me.level + 1 ∧
      CoreOk rounds isFirst isDm (me.acknowledge (decide isDm)) ∧
      (me.acknowledge (decide isDm)).pc.isWaiting = false := by
  obtain ⟨pc, calls⟩ := me
  cases pc with
  | syncWait point =>
    cases point with
    | init =>
      have zero : calls = 0 := ok.starting rfl
      subst zero
      exact ⟨rfl, ⟨Nat.zero_le _, nofun, fun _ => rfl, fun _ => rfl, nofun⟩, rfl⟩
    | entry =>
      have more : calls < rounds := ok.running rfl
      by_cases dm : isDm
      · have result : WakeupCore.acknowledge ⟨.syncWait .entry, calls⟩ (decide isDm) =
            ⟨.amoX, calls⟩ := by simp [WakeupCore.acknowledge, WakeupCore.resume, dm]
        rw [result]
        exact ⟨rfl, ⟨more.le, fun _ => more, nofun, fun other => absurd dm other, nofun⟩, rfl⟩
      · have result : WakeupCore.acknowledge ⟨.syncWait .entry, calls⟩ (decide isDm) =
            ⟨.sync .exit, calls⟩ := by simp [WakeupCore.acknowledge, WakeupCore.resume, dm]
        rw [result]
        exact ⟨rfl, ⟨more.le, fun _ => more, nofun, fun _ => rfl, nofun⟩, rfl⟩
    | exit =>
      have more : calls < rounds := ok.running rfl
      exact ⟨rfl, ⟨more, nofun, nofun, fun _ => rfl, nofun⟩, rfl⟩
  | _ => cases waits

/-- The cores after `j` has arrived at a synchronisation point, before any acknowledge. -/
def arrivedAt (core : Fin M.nbCores → WakeupCore) (j : Fin M.nbCores) (point : SyncPoint) :
    Fin M.nbCores → WakeupCore :=
  Function.update core j { core j with pc := .syncWait point }

section

variable {point : SyncPoint}

theorem level_arrivedAt (pc : (core j).pc = .sync point) (k : Fin M.nbCores) :
    (arrivedAt core j point k).level = (core k).level := by
  unfold arrivedAt
  by_cases same : k = j
  · subst same
    rw [Function.update_self]
    cases point <;> simp only [WakeupCore.level, pc]
  · rw [Function.update_of_ne same]

theorem ok_arrivedAt (inv : IntraInv rounds isFirst core status) (pc : (core j).pc = .sync point)
    (k : Fin M.nbCores) : CoreOk rounds isFirst (k = M.dmCore) (arrivedAt core j point k) := by
  have level := level_arrivedAt pc k
  unfold arrivedAt at level ⊢
  by_cases same : k = j
  · subst same
    have old := inv.ok k
    rw [Function.update_self] at level ⊢
    refine ⟨old.calls_le, fun inCall => old.running ?_, fun zero => old.starting (level ▸ zero),
      fun _ => rfl, nofun⟩
    rw [pc]
    cases point <;> exact inCall
  · rw [Function.update_of_ne same]
    exact inv.ok k

/-- The status register has the bits of the waiting cores. -/
theorem bits_arrivedAt (inv : IntraInv rounds isFirst core status) (k : Fin M.nbCores) :
    (status ||| (1#32 <<< j.val)).getLsbD k = true ↔
      (arrivedAt core j point k).pc.isWaiting = true := by
  unfold arrivedAt
  rw [getLsbD_set]
  by_cases same : k = j
  · subst same
    simp [WakeupPc.isWaiting]
  · have apart : k.val ≠ j.val := fun eq => same (Fin.ext eq)
    rw [Function.update_of_ne same, decide_eq_false apart, Bool.or_false]
    exact inv.bits k

theorem high_set (inv : IntraInv rounds isFirst core status) (i : Nat) (hi : M.nbCores ≤ i) :
    (status ||| (1#32 <<< j.val)).getLsbD i = false := by
  have apart : i ≠ j.val := by
    have := j.isLt
    omega
  rw [getLsbD_set, inv.high i hi, decide_eq_false apart, Bool.or_false]

/-- The acknowledge comes when all cores wait. -/
theorem ack_iff (point : SyncPoint) (inv : IntraInv rounds isFirst core status)
    {regs : ClusterRegisters M} (hstatus : regs.barrierStatus = status) :
    (regs.barrierSync j).2 = true ↔ ∀ k, (arrivedAt core j point k).pc.isWaiting = true := by
  have full := full_iff (high_set (j := j) inv)
  have ack : (regs.barrierSync j).2 = true ↔
      (status ||| (1#32 <<< j.val)).toNat = 2 ^ M.nbCores - 1 := by
    unfold ClusterRegisters.barrierSync
    rw [hstatus]
    dsimp only
    split
    · exact iff_of_true rfl ‹_›
    · exact iff_of_false nofun ‹_›
  rw [ack, full]
  exact forall_congr' fun k => bits_arrivedAt inv k

theorem status_barrierSync (regs : ClusterRegisters M) (j : Fin M.nbCores) :
    (regs.barrierSync j).1.barrierStatus =
      if (regs.barrierSync j).2 = true then 0 else regs.barrierStatus ||| (1#32 <<< j.val) := by
  unfold ClusterRegisters.barrierSync
  dsimp only
  split <;> rfl

/-- A core arrives at a synchronisation point; the last one is acknowledged with all the others. -/
theorem intra_sync (inv : IntraInv rounds isFirst core status) (pc : (core j).pc = .sync point)
    {regs : ClusterRegisters M} (hstatus : regs.barrierStatus = status) :
    IntraInv rounds isFirst
      (if (regs.barrierSync j).2 = true then fun k =>
        (arrivedAt core j point k).acknowledge (decide (k = M.dmCore))
      else arrivedAt core j point) (regs.barrierSync j).1.barrierStatus := by
  have ok := ok_arrivedAt inv pc
  have level := level_arrivedAt pc
  rw [status_barrierSync, hstatus]
  by_cases ack : (regs.barrierSync j).2 = true
  · -- everybody waits and is acknowledged
    have waits := (ack_iff point inv hstatus).mp ack
    rw [if_pos ack, if_pos ack]
    refine ⟨fun k => (level_acknowledge (ok k) (waits k)).2.1, fun i k => ?_, fun k => ?_,
      fun i _ => BitVec.getLsbD_zero, ⟨j, (level_acknowledge (ok j) (waits j)).2.2⟩⟩
    · rw [(level_acknowledge (ok i) (waits i)).1, (level_acknowledge (ok k) (waits k)).1, level,
        level, inv.level i k]
    · rw [(level_acknowledge (ok k) (waits k)).2.2]
      exact iff_of_false (by simp) (by simp)
  · rw [if_neg ack, if_neg ack]
    refine ⟨ok, fun i k => ?_, bits_arrivedAt inv, high_set inv, ?_⟩
    · rw [level, level, inv.level i k]
    · by_contra none
      refine ack ((ack_iff point inv hstatus).mpr fun k => ?_)
      exact Bool.eq_true_of_not_eq_false fun awake => none ⟨k, awake⟩

end

/-! ## Blocked cores -/

/-- The core cannot make an access: it waits for an acknowledge or a response, or it is done. -/
def WakeupCore.Blocked (rounds : Nat) (me : WakeupCore) : Prop :=
  me.pc.isWaiting = true ∨ (∃ stage, me.pc = .regWait stage) ∨ me = ⟨.out, rounds⟩

/-- A core that waits has not the level of a core that is done. -/
theorem level_ne_of_waiting {isDm : Prop} (ok : CoreOk rounds isFirst isDm me)
    (waits : me.pc.isWaiting = true) : me.level ≠ 2 * rounds + 1 := by
  obtain ⟨pc, calls⟩ := me
  cases pc with
  | syncWait point =>
    cases point with
    | init => exact nofun
    | entry =>
      have more : calls < rounds := ok.running rfl
      show 2 * calls + 1 ≠ 2 * rounds + 1
      omega
    | exit =>
      show 2 * calls + 2 ≠ 2 * rounds + 1
      omega
  | _ => cases waits

/-- If every core is blocked, the dm core waits for a response, or all cores are done. -/
theorem IntraInv.blocked (inv : IntraInv rounds isFirst core status)
    (all : ∀ k, (core k).Blocked rounds) :
    (∃ stage, (core M.dmCore).pc = .regWait stage) ∨ ∀ k, core k = ⟨.out, rounds⟩ := by
  -- only the dm core writes to the cluster register
  have writer : ∀ k, (∃ stage, (core k).pc = .regWait stage) → k = M.dmCore := by
    rintro k ⟨stage, pc⟩
    by_contra other
    have serves := (inv.ok k).serves other
    rw [pc] at serves
    cases serves
  by_contra none
  obtain ⟨noWrite, notDone⟩ := not_or.mp none
  have sleeps : ∀ k, (core k).pc.isWaiting = true ∨ core k = ⟨.out, rounds⟩ := fun k =>
    (all k).imp id fun rest => rest.resolve_left fun write => noWrite (writer k write ▸ write)
  by_cases done : ∃ k, core k = ⟨.out, rounds⟩
  · obtain ⟨k, done⟩ := done
    refine notDone fun i => (sleeps i).resolve_left fun waits => ?_
    refine level_ne_of_waiting (inv.ok i) waits ?_
    rw [inv.level i k, done]
    rfl
  · obtain ⟨k, awake⟩ := inv.awake
    rcases sleeps k with waits | last
    · rw [awake] at waits
      cases waits
    · exact done ⟨k, last⟩

end

end SoftHier.Barrier
