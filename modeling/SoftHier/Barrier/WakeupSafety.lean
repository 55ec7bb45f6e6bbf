import Mathlib.Algebra.Order.BigOperators.Group.Finset
import Mathlib.Data.Fintype.Prod
import SoftHier.Barrier.Intra
import SoftHier.Lib.Transition

/-!
# Safety and liveness of the barrier with wakeups

The dm cores implement the barrier of two levels, with the broadcast as its release; the slot of a
cluster register holds at most the one wakeup that its dm core waits for.

* `Wakeup.abs`: the barrier of two levels in a state.
* `SlotInv`: the wakeups of a cluster: consumed, kept in the mutex bit, or on their way.
* `WakeupInv`, `wakeupInv_step`: the invariant.
* `wakeup_barrier`: no core returns from a call that another one has not entered, every wait
  consumes the wakeup of its round and none is lost, and the run can always go on to its end.
-/

namespace SoftHier.Barrier

/-- Where a dm core is in the barrier of two levels. -/
def WakeupPc.phase : WakeupPc → Phase
  | .initY | .initX _ | .wakeup _ => .colDone
  | .amoX | .sync _ | .syncWait _ | .out => .idle
  | .resetX => .rowLead
  | .amoY => .rowDone
  | .resetY => .colLead
  | .reg _ | .regWait _ => .waiting

/-- The core waits for the response to its write. -/
def WakeupPc.isRegWait : WakeupPc → Bool
  | .regWait _ => true
  | _ => false

/-- The waits a dm core has completed: one in `flex_barrier_xy_init`, one in a call. -/
def WakeupCore.noticed (me : WakeupCore) : Nat :=
  match me.pc with
  | .initY | .initX _ | .wakeup .init | .reg .init | .regWait .init => 0
  | .sync .init | .syncWait .init => 1
  | .out | .sync .entry | .syncWait .entry | .amoX | .resetX | .amoY | .resetY | .wakeup .call
  | .reg .call | .regWait .call => me.calls + 1
  | .sync .exit | .syncWait .exit => me.calls + 2

/-- The barrier of two levels in a state; before the first broadcast the counters are not in use. -/
def Wakeup.abs {M : Machine} (s : Wakeup M) : TreeBarrier (Fin M.numX) (Fin M.numY) where
  phase := fun c => (s.core c M.dmCore).pc.phase
  done := fun c => (s.core c M.dmCore).noticed
  row := fun y => if s.broadcasts = 0 then 0 else (s.barrierX y).toNat
  col := if s.broadcasts = 0 then 0 else s.barrierY.toNat
  released := s.broadcasts

/-- The wakeups of a cluster.  The dm core has consumed those of its waits, in order; one more may
have been broadcast, and is on its way or kept in the mutex bit. -/
structure SlotInv {M : Machine} (dm : WakeupCore) (regs : ClusterRegisters M)
    (inFlight consumed : List Nat) (broadcasts : Nat) : Prop where
  consumed : consumed = List.range dm.noticed
  slot : (dm.noticed = broadcasts ∧ regs.globalBarrierMutex = none ∧ inFlight = []) ∨
    (dm.noticed + 1 = broadcasts ∧
      ((regs.globalBarrierMutex = none ∧ inFlight = [dm.noticed]) ∨
        (regs.globalBarrierMutex = some dm.noticed ∧ inFlight = [])))
  query : regs.globalBarrierQuery = if dm.pc.isRegWait then some M.dmCore else none
  apart : dm.pc.isRegWait = true → regs.globalBarrierMutex = none

/-- The rows `flex_barrier_xy_init` has cleared. -/
def WakeupPc.cleared (numY : Nat) : WakeupPc → Option Nat
  | .initX i => some i
  | .wakeup .init => some numY
  | _ => none

/-- What holds in every state. -/
structure WakeupInv {M : Machine} (rounds : Nat) (s : Wakeup M) : Prop where
  abs : s.abs.Inv
  intra : ∀ c, IntraInv rounds (c = M.first) (s.core c) (s.regs c).barrierStatus
  slot : ∀ c, SlotInv (s.core c M.dmCore) (s.regs c) (s.inFlight c) (s.consumed c) s.broadcasts
  cleared : ∀ n, (s.core M.first M.dmCore).pc.cleared M.numY = some n →
    s.barrierY = 0 ∧ ∀ y : Fin M.numY, y.val < n → s.barrierX y = 0

section

variable {M : Machine} {rounds : Nat} {s s' : Wakeup M} {c : M.Clusters} {j : Fin M.nbCores}
  {me : WakeupCore}

section

variable (barrierX : Fin M.numY → BitVec 32) (barrierY : BitVec 32) (c : M.Clusters)

theorem init_dmCore : (Wakeup.init barrierX barrierY).core c M.dmCore =
    ⟨if c = M.first then .initY else .reg .init, 0⟩ := by
  simp [Wakeup.init]

theorem init_core (j : Fin M.nbCores) : (Wakeup.init barrierX barrierY).core c j =
    ⟨if j = M.dmCore then (if c = M.first then .initY else .reg .init) else .sync .init, 0⟩ := rfl

/-- The barrier of two levels is closed at the start. -/
theorem abs_init : (Wakeup.init barrierX barrierY).abs = TreeBarrier.closed M.first := by
  have phase : (Wakeup.init barrierX barrierY).abs.phase =
      (TreeBarrier.closed M.first : TreeBarrier (Fin M.numX) (Fin M.numY)).phase := by
    funext c
    show ((Wakeup.init barrierX barrierY).core c M.dmCore).pc.phase = _
    rw [init_dmCore]
    simp only [TreeBarrier.closed]
    split <;> rfl
  have done : (Wakeup.init barrierX barrierY).abs.done = fun _ => 0 := by
    funext c
    show ((Wakeup.init barrierX barrierY).core c M.dmCore).noticed = _
    rw [init_dmCore]
    by_cases isFirst : c = M.first
    · rw [if_pos isFirst]
      rfl
    · rw [if_neg isFirst]
      rfl
  exact congrArg₂ (fun phase done =>
    (⟨phase, done, fun _ => 0, 0, 0⟩ : TreeBarrier (Fin M.numX) (Fin M.numY))) phase done

theorem init_level (j : Fin M.nbCores) : ((Wakeup.init barrierX barrierY).core c j).level = 0 := by
  rw [init_core]
  by_cases isDm : j = M.dmCore
  · rw [if_pos isDm]
    by_cases isFirst : c = M.first
    · rw [if_pos isFirst]
      rfl
    · rw [if_neg isFirst]
      rfl
  · rw [if_neg isDm]
    rfl

theorem init_isWaiting (j : Fin M.nbCores) :
    ((Wakeup.init barrierX barrierY).core c j).pc.isWaiting = false := by
  rw [init_core]
  dsimp only
  split
  · split <;> rfl
  · rfl

/-- The cores of a cluster are before their first synchronisation point. -/
theorem intraInv_init : IntraInv rounds (c = M.first) ((Wakeup.init barrierX barrierY).core c)
    ((Wakeup.init barrierX barrierY).regs c).barrierStatus := by
  refine ⟨fun j => ⟨Nat.zero_le _, ?_, fun _ => rfl, fun other => ?_, ?_⟩, fun j k => ?_,
    fun j => ?_, fun i _ => BitVec.getLsbD_zero, ⟨M.dmCore, init_isWaiting barrierX barrierY c _⟩⟩
  · rw [init_core]
    dsimp only
    split
    · split <;> exact nofun
    · exact nofun
  · rw [init_core]
    dsimp only
    rw [if_neg other]
    rfl
  · rw [init_core]
    dsimp only
    split
    · split
      · exact fun _ => ‹_›
      · exact nofun
    · exact nofun
  · rw [init_level, init_level]
  · rw [init_isWaiting]
    exact iff_of_false (by simp [Wakeup.init]) nofun

theorem wakeupInv_init : WakeupInv rounds (Wakeup.init barrierX barrierY) := by
  refine ⟨?_, intraInv_init barrierX barrierY, fun c => ?_, fun n cleared => ?_⟩
  · rw [abs_init]
    exact TreeBarrier.inv_closed _
  · rw [init_dmCore]
    by_cases isFirst : c = M.first
    · rw [if_pos isFirst]
      exact ⟨rfl, Or.inl ⟨rfl, rfl, rfl⟩, rfl, nofun⟩
    · rw [if_neg isFirst]
      exact ⟨rfl, Or.inl ⟨rfl, rfl, rfl⟩, rfl, nofun⟩
  · rw [init_dmCore, if_pos rfl] at cleared
    cases cleared

end

/-! ## Frames -/

/-- A cluster that an access leaves alone. -/
structure Kept (s s' : Wakeup M) (d : M.Clusters) : Prop where
  core : s'.core d = s.core d
  regs : s'.regs d = s.regs d
  inFlight : s'.inFlight d = s.inFlight d
  consumed : s'.consumed d = s.consumed d

/-- An access of `c` that broadcasts nothing keeps the invariant if it does so for `c`. -/
theorem wakeupInv_local (inv : WakeupInv rounds s) (c : M.Clusters)
    (kept : ∀ d, d ≠ c → Kept s s' d) (broadcasts : s'.broadcasts = s.broadcasts)
    (abs : s'.abs.Inv)
    (intra : IntraInv rounds (c = M.first) (s'.core c) (s'.regs c).barrierStatus)
    (slot : SlotInv (s'.core c M.dmCore) (s'.regs c) (s'.inFlight c) (s'.consumed c) s.broadcasts)
    (cleared : ∀ n, (s'.core M.first M.dmCore).pc.cleared M.numY = some n →
      s'.barrierY = 0 ∧ ∀ y : Fin M.numY, y.val < n → s'.barrierX y = 0) : WakeupInv rounds s' := by
  refine ⟨abs, fun d => ?_, fun d => ?_, cleared⟩
  · by_cases same : d = c
    · subst same
      exact intra
    · rw [(kept d same).core, (kept d same).regs]
      exact inv.intra d
  · rw [broadcasts]
    by_cases same : d = c
    · subst same
      exact slot
    · rw [(kept d same).core, (kept d same).regs, (kept d same).inFlight, (kept d same).consumed]
      exact inv.slot d

/-- The barrier of two levels after an access of `c`. -/
theorem abs_of_kept (kept : ∀ d, d ≠ c → s'.core d = s.core d) : s'.abs =
    { phase := Function.update s.abs.phase c (s'.core c M.dmCore).pc.phase
      done := Function.update s.abs.done c (s'.core c M.dmCore).noticed
      row := s'.abs.row
      col := s'.abs.col
      released := s'.broadcasts } := by
  have phase : s'.abs.phase = Function.update s.abs.phase c (s'.core c M.dmCore).pc.phase := by
    funext d
    by_cases same : d = c
    · subst same
      rw [Function.update_self]
      rfl
    · rw [Function.update_of_ne same]
      exact congrArg (fun core => WakeupPc.phase (WakeupCore.pc (core M.dmCore))) (kept d same)
  have done : s'.abs.done = Function.update s.abs.done c (s'.core c M.dmCore).noticed := by
    funext d
    by_cases same : d = c
    · subst same
      rw [Function.update_self]
      rfl
    · rw [Function.update_of_ne same]
      exact congrArg (fun core => WakeupCore.noticed (core M.dmCore)) (kept d same)
  rw [← phase, ← done]
  rfl

/-- An access that leaves the dm core where it is in the barrier. -/
theorem abs_of_quiet (kept : ∀ d, d ≠ c → s'.core d = s.core d)
    (phase : (s'.core c M.dmCore).pc.phase = (s.core c M.dmCore).pc.phase)
    (noticed : (s'.core c M.dmCore).noticed = (s.core c M.dmCore).noticed)
    (row : s'.abs.row = s.abs.row) (col : s'.abs.col = s.abs.col)
    (broadcasts : s'.broadcasts = s.broadcasts) : s'.abs = s.abs := by
  have samePhase : Function.update s.abs.phase c (s'.core c M.dmCore).pc.phase = s.abs.phase := by
    rw [phase]
    exact Function.update_eq_self c s.abs.phase
  have sameDone : Function.update s.abs.done c (s'.core c M.dmCore).noticed = s.abs.done := by
    rw [noticed]
    exact Function.update_eq_self c s.abs.done
  rw [abs_of_kept kept, samePhase, sameDone, row, col, broadcasts]
  rfl

theorem starts_facts (me : WakeupCore) (starts : me.pc.starts = true) :
    me.level = 0 ∧ me.noticed = 0 ∧ me.pc.synchronises = false ∧ me.pc.inCall = false ∧
      me.pc.isWaiting = false ∧ me.pc.isRegWait = false ∧ me.pc.phase = .colDone := by
  obtain ⟨pc, calls⟩ := me
  cases pc with
  | initY | initX => exact ⟨rfl, rfl, rfl, rfl, rfl, rfl, rfl⟩
  | wakeup stage =>
    cases stage with
    | init => exact ⟨rfl, rfl, rfl, rfl, rfl, rfl, rfl⟩
    | call => cases starts
  | _ => cases starts

/-- While cluster 0 clears the counters nothing has been broadcast. -/
theorem WakeupInv.broadcasts_of_starts (inv : WakeupInv rounds s)
    (starts : (s.core c M.dmCore).pc.starts = true) :
    s.broadcasts = 0 ∧ (s.core c M.dmCore).noticed = 0 ∧ c = M.first := by
  obtain ⟨-, noticed, -, -, -, -, phase⟩ := starts_facts _ starts
  have moved : s.abs.phase c ≠ .waiting := by
    have eq : s.abs.phase c = .colDone := phase
    rw [eq]
    exact nofun
  have done : (s.core c M.dmCore).noticed = s.broadcasts := inv.abs.done_of_ne moved
  exact ⟨done.symm.trans noticed, noticed, ((inv.intra c).ok M.dmCore).first starts⟩

/-- A cluster that has noticed a broadcast finds the counters in use. -/
theorem WakeupInv.broadcasts_pos (inv : WakeupInv rounds s)
    (noticed : 0 < (s.core c M.dmCore).noticed) : s.broadcasts ≠ 0 := by
  have round : (s.core c M.dmCore).noticed = s.broadcasts ∨
      (s.core c M.dmCore).noticed + 1 = s.broadcasts := (inv.abs.round c).imp id And.left
  omega

/-- Then cluster 0 is not clearing them. -/
theorem WakeupInv.not_cleared (inv : WakeupInv rounds s) (broadcasts : s.broadcasts ≠ 0) :
    (s.core M.first M.dmCore).pc.cleared M.numY = none := by
  have notStarts : ¬ (s.core M.first M.dmCore).pc.starts = true := fun starts =>
    broadcasts (inv.broadcasts_of_starts starts).1
  cases pc : (s.core M.first M.dmCore).pc with
  | initX =>
    rw [pc] at notStarts
    exact absurd rfl notStarts
  | wakeup stage =>
    cases stage with
    | init =>
      rw [pc] at notStarts
      exact absurd rfl notStarts
    | call => rfl
  | _ => rfl

/-! ## A core moves on -/

/-- Only the dm core does more than synchronise. -/
theorem WakeupInv.eq_dmCore (inv : WakeupInv rounds s)
    (busy : (s.core c j).pc.synchronises = false) : j = M.dmCore := by
  by_contra other
  have serves := ((inv.intra c).ok j).serves other
  rw [busy] at serves
  cases serves

/-- The dm core of `c` after core `j` became `me`. -/
theorem put_dmCore (hj : j = M.dmCore) (hcore : s'.core = (s.put c j me).core) :
    s'.core c M.dmCore = me := by
  rw [hcore, ← hj]
  show Function.update s.core c _ c j = me
  rw [Function.update_self, Function.update_self]

theorem put_here (hcore : s'.core = (s.put c j me).core) :
    s'.core c = Function.update (s.core c) j me := by
  rw [hcore]
  exact Function.update_self _ _ _

theorem put_there (hcore : s'.core = (s.put c j me).core) (d : M.Clusters) (other : d ≠ c) :
    s'.core d = s.core d := by
  rw [hcore]
  exact Function.update_of_ne other _ _

/-- A core of `c` becomes `me`, between two synchronisation points and without use of the cluster
register. -/
theorem wakeupInv_move (inv : WakeupInv rounds s) (hcore : s'.core = (s.put c j me).core)
    (hregs : s'.regs = s.regs) (hinFlight : s'.inFlight = s.inFlight)
    (hconsumed : s'.consumed = s.consumed) (hbroadcasts : s'.broadcasts = s.broadcasts)
    (abs : s'.abs.Inv) (ok : CoreOk rounds (c = M.first) (j = M.dmCore) me)
    (level : me.level = (s.core c j).level) (runs : (s.core c j).pc.isWaiting = false)
    (runs' : me.pc.isWaiting = false) (noticed : me.noticed = (s.core c j).noticed)
    (free : (s.core c j).pc.isRegWait = false) (free' : me.pc.isRegWait = false)
    (cleared : ∀ n, (s'.core M.first M.dmCore).pc.cleared M.numY = some n →
      s'.barrierY = 0 ∧ ∀ y : Fin M.numY, y.val < n → s'.barrierX y = 0) : WakeupInv rounds s' := by
  have core := put_here hcore
  refine wakeupInv_local inv c (fun d other => ⟨put_there hcore d other, ?_, ?_, ?_⟩) hbroadcasts
    abs ?_ ?_ cleared
  · rw [hregs]
  · rw [hinFlight]
  · rw [hconsumed]
  · rw [core, hregs]
    exact intra_move (inv.intra c) ok level runs runs'
  · rw [core, hregs, hinFlight, hconsumed]
    have slot := inv.slot c
    by_cases isDm : j = M.dmCore
    · subst isDm
      rw [Function.update_self]
      have query := slot.query
      rw [free] at query
      refine ⟨by rw [noticed]; exact slot.consumed, by rw [noticed]; exact slot.slot, ?_, ?_⟩
      · rw [free', query]
      · rw [free']
        exact nofun
    · rw [Function.update_of_ne (Ne.symm isDm)]
      exact slot

/-- A core of the same calls at another access of the same level. -/
theorem coreOk_move {isFirst isDm : Prop} (pc : WakeupPc) (ok : CoreOk rounds isFirst isDm me)
    (level : ({ me with pc := pc } : WakeupCore).level = me.level)
    (running : pc.inCall = true → me.calls < rounds) (serves : ¬ isDm → pc.synchronises = true)
    (first : pc.starts = true → isFirst) : CoreOk rounds isFirst isDm { me with pc := pc } where
  calls_le := ok.calls_le
  running := running
  starting := fun zero => ok.starting (level ▸ zero)
  serves := serves
  first := first

/-- The counters are not being cleared. -/
theorem cleared_of_broadcasts (inv : WakeupInv rounds s) (broadcasts : s.broadcasts ≠ 0)
    (hcore : s'.core = (s.put c j me).core) (notClearing : me.pc.cleared M.numY = none) (n : Nat)
    (cleared : (s'.core M.first M.dmCore).pc.cleared M.numY = some n) :
    s'.barrierY = 0 ∧ ∀ y : Fin M.numY, y.val < n → s'.barrierX y = 0 := by
  have old := inv.not_cleared broadcasts
  have none : (s'.core M.first M.dmCore).pc.cleared M.numY = none := by
    by_cases here : M.first = c
    · subst here
      by_cases isDm : M.dmCore = j
      · rw [put_dmCore isDm.symm hcore]
        exact notClearing
      · have same : s'.core M.first M.dmCore = s.core M.first M.dmCore := by
          simp only [hcore, Wakeup.put, Function.update_self, Function.update_of_ne isDm]
        rw [same]
        exact old
    · rw [put_there hcore _ here]
      exact old
  rw [none] at cleared
  cases cleared

/-- Once the counters are in use they are those of the barrier of two levels. -/
theorem abs_row_of_broadcasts (broadcasts : s.broadcasts ≠ 0) :
    s.abs.row = (fun y => (s.barrierX y).toNat) ∧ s.abs.col = s.barrierY.toNat := by
  refine ⟨funext fun y => ?_, ?_⟩
  · exact if_neg broadcasts
  · exact if_neg broadcasts

theorem toNat_update (row : Fin M.numY → BitVec 32) (y : Fin M.numY) (w : BitVec 32) :
    (fun y' => (Function.update row y w y').toNat) =
      Function.update (fun y' => (row y').toNat) y w.toNat := by
  funext y'
  by_cases same : y' = y
  · subst same
    simp
  · simp [same]

/-! ## The accesses to the counters -/

/-- The dm core is between the first synchronisation of a call and the response to its write. -/
def WakeupPc.body : WakeupPc → Bool
  | .amoX | .resetX | .amoY | .resetY | .wakeup .call | .reg .call => true
  | _ => false

theorem body_facts (me : WakeupCore) (body : me.pc.body = true) :
    me.level = 2 * me.calls + 2 ∧ me.noticed = me.calls + 1 ∧ me.pc.synchronises = false ∧
      me.pc.inCall = true ∧ me.pc.isWaiting = false ∧ me.pc.isRegWait = false ∧
        me.pc.starts = false ∧ me.pc.cleared M.numY = none := by
  obtain ⟨pc, calls⟩ := me
  cases pc with
  | amoX | resetX | amoY | resetY => exact ⟨rfl, rfl, rfl, rfl, rfl, rfl, rfl, rfl⟩
  | wakeup stage | reg stage =>
    cases stage with
    | call => exact ⟨rfl, rfl, rfl, rfl, rfl, rfl, rfl, rfl⟩
    | init => cases body
  | _ => cases body

/-- In the body of a call the counters are in use. -/
theorem WakeupInv.broadcasts_of_body (inv : WakeupInv rounds s)
    (body : (s.core c j).pc.body = true) : j = M.dmCore ∧ s.broadcasts ≠ 0 := by
  obtain ⟨-, noticed, busy, -⟩ := body_facts (M := M) _ body
  obtain rfl : j = M.dmCore := inv.eq_dmCore busy
  exact ⟨rfl, inv.broadcasts_pos (by rw [noticed]; exact Nat.succ_pos _)⟩

section

variable {p : WakeupPc}

theorem abs_body (inv : WakeupInv rounds s) (body : (s.core c j).pc.body = true)
    (body' : p.body = true) (hcore : s'.core = (s.put c j { s.core c j with pc := p }).core)
    (hbroadcasts : s'.broadcasts = s.broadcasts) : s'.abs =
      { s.abs with
        phase := Function.update s.abs.phase c p.phase
        row := fun y => (s'.barrierX y).toNat
        col := s'.barrierY.toNat } := by
  obtain ⟨rfl, broadcasts⟩ := inv.broadcasts_of_body body
  have noticed : ({ s.core c M.dmCore with pc := p } : WakeupCore).noticed =
      (s.core c M.dmCore).noticed :=
    (body_facts (M := M) { s.core c M.dmCore with pc := p } body').2.1.trans
      (body_facts (M := M) _ body).2.1.symm
  have same : Function.update s.abs.done c (s.core c M.dmCore).noticed = s.abs.done :=
    Function.update_eq_self c s.abs.done
  obtain ⟨row, col⟩ := abs_row_of_broadcasts (hbroadcasts.symm ▸ broadcasts : s'.broadcasts ≠ 0)
  rw [abs_of_kept (put_there hcore), put_dmCore rfl hcore, noticed, same, row, col, hbroadcasts]
  rfl

/-- A core goes on in the body of a call. -/
theorem wakeupInv_body (inv : WakeupInv rounds s) (body : (s.core c j).pc.body = true)
    (body' : p.body = true) (hcore : s'.core = (s.put c j { s.core c j with pc := p }).core)
    (hregs : s'.regs = s.regs) (hinFlight : s'.inFlight = s.inFlight)
    (hconsumed : s'.consumed = s.consumed) (hbroadcasts : s'.broadcasts = s.broadcasts)
    (abs : s'.abs.Inv) : WakeupInv rounds s' := by
  obtain ⟨rfl, broadcasts⟩ := inv.broadcasts_of_body body
  obtain ⟨level, noticed, -, inCall, runs, free, -, -⟩ := body_facts (M := M) _ body
  obtain ⟨level', noticed', -, -, runs', free', starts', cleared'⟩ :=
    body_facts (M := M) { s.core c M.dmCore with pc := p } body'
  refine wakeupInv_move inv hcore hregs hinFlight hconsumed hbroadcasts abs ?_
    (level'.trans level.symm) runs runs' (noticed'.trans noticed.symm) free free'
    (cleared_of_broadcasts inv broadcasts hcore cleared')
  have ok := (inv.intra c).ok M.dmCore
  refine coreOk_move _ ok (level'.trans level.symm) (fun _ => ok.running inCall)
    (fun other => absurd rfl other) fun starts => ?_
  have none : p.starts = false := starts'
  rw [none] at starts
  cases starts

end

theorem wakeupInv_amoX (inv : WakeupInv rounds s) (pc : (s.core c j).pc = .amoX)
    (ran : s.exec rounds c j = some s') : WakeupInv rounds s' := by
  obtain ⟨p, hp⟩ : ∃ p, p = if isLast M.numX (s.barrierX c.2) then WakeupPc.resetX
    else .reg .call := ⟨_, rfl⟩
  rw [Wakeup.exec, pc] at ran
  dsimp only at ran
  rw [← hp] at ran
  have body : (s.core c j).pc.body = true := by rw [pc]; rfl
  have body' : p.body = true := by
    rw [hp]
    split <;> rfl
  obtain ⟨isDm, broadcasts⟩ := inv.broadcasts_of_body body
  have idle : s.abs.phase c = .idle := by
    show (s.core c M.dmCore).pc.phase = _
    rw [← isDm, pc]
    rfl
  obtain ⟨row, col⟩ := abs_row_of_broadcasts broadcasts
  have small : (s.barrierX c.2).toNat < M.numX := by
    have new : ¬ s.abs.Arrived (c.1, c.2) := fun arrived => arrived.2 idle
    have := (inv.abs.rows c.2).count_lt new
    rw [row, Fintype.card_fin] at this
    exact this
  have phase : p.phase = if s.abs.row c.2 + 1 = Fintype.card (Fin M.numX) then .rowLead
      else .waiting := by
    rw [hp, ite_isLast M.numX_pos M.numX_lt, row]
    exact apply_ite WakeupPc.phase _ _ _
  have hcore : s'.core = (s.put c j { s.core c j with pc := p }).core := by
    rw [← Option.some.inj ran]
  have hx : s'.barrierX = Function.update s.barrierX c.2 (amoFetchAdd (s.barrierX c.2)) := by
    rw [← Option.some.inj ran]
  have hy : s'.barrierY = s.barrierY := by rw [← Option.some.inj ran]; rfl
  have hbroadcasts : s'.broadcasts = s.broadcasts := by rw [← Option.some.inj ran]; rfl
  have abs : s'.abs = s.abs.arrive c := by
    rw [abs_body inv body body' hcore hbroadcasts, phase, hx, hy, toNat_update,
      toNat_amoFetchAdd M.numX_lt small]
    unfold TreeBarrier.arrive
    rw [row, ← col]
  refine wakeupInv_body inv body body' hcore (by rw [← Option.some.inj ran]; rfl)
    (by rw [← Option.some.inj ran]; rfl) (by rw [← Option.some.inj ran]; rfl) hbroadcasts ?_
  rw [abs]
  exact TreeBarrier.inv_step inv.abs (.arrive idle)

theorem wakeupInv_resetX (inv : WakeupInv rounds s) (pc : (s.core c j).pc = .resetX)
    (ran : s.exec rounds c j = some s') : WakeupInv rounds s' := by
  rw [Wakeup.exec, pc] at ran
  dsimp only at ran
  have body : (s.core c j).pc.body = true := by rw [pc]; rfl
  have body' : (WakeupPc.amoY).body = true := rfl
  obtain ⟨isDm, broadcasts⟩ := inv.broadcasts_of_body body
  have lead : s.abs.phase c = .rowLead := by
    show (s.core c M.dmCore).pc.phase = _
    rw [← isDm, pc]
    rfl
  obtain ⟨row, col⟩ := abs_row_of_broadcasts broadcasts
  have hcore : s'.core = (s.put c j { s.core c j with pc := .amoY }).core := by
    rw [← Option.some.inj ran]
  have hx : s'.barrierX = Function.update s.barrierX c.2 0 := by rw [← Option.some.inj ran]
  have hy : s'.barrierY = s.barrierY := by rw [← Option.some.inj ran]; rfl
  have hbroadcasts : s'.broadcasts = s.broadcasts := by rw [← Option.some.inj ran]; rfl
  have abs : s'.abs = s.abs.clearRow c := by
    rw [abs_body inv body body' hcore hbroadcasts, hx, hy, toNat_update]
    unfold TreeBarrier.clearRow
    rw [row, ← col]
    rfl
  refine wakeupInv_body inv body body' hcore (by rw [← Option.some.inj ran]; rfl)
    (by rw [← Option.some.inj ran]; rfl) (by rw [← Option.some.inj ran]; rfl) hbroadcasts ?_
  rw [abs]
  exact TreeBarrier.inv_step inv.abs (.clearRow lead)

theorem wakeupInv_amoY (inv : WakeupInv rounds s) (pc : (s.core c j).pc = .amoY)
    (ran : s.exec rounds c j = some s') : WakeupInv rounds s' := by
  obtain ⟨p, hp⟩ : ∃ p, p = if isLast M.numY s.barrierY then WakeupPc.resetY else .reg .call :=
    ⟨_, rfl⟩
  rw [Wakeup.exec, pc] at ran
  dsimp only at ran
  rw [← hp] at ran
  have body : (s.core c j).pc.body = true := by rw [pc]; rfl
  have body' : p.body = true := by
    rw [hp]
    split <;> rfl
  obtain ⟨isDm, broadcasts⟩ := inv.broadcasts_of_body body
  have rowDone : s.abs.phase c = .rowDone := by
    show (s.core c M.dmCore).pc.phase = _
    rw [← isDm, pc]
    rfl
  obtain ⟨row, col⟩ := abs_row_of_broadcasts broadcasts
  have small : s.barrierY.toNat < M.numY := by
    have new : ¬ s.abs.Passed c.2 := fun passed => (passed c.1).2 (Or.inr rowDone)
    have := inv.abs.cols.count_lt new
    rw [col, Fintype.card_fin] at this
    exact this
  have phase : p.phase = if s.abs.col + 1 = Fintype.card (Fin M.numY) then .colLead
      else .waiting := by
    rw [hp, ite_isLast M.numY_pos M.numY_lt, col]
    exact apply_ite WakeupPc.phase _ _ _
  have hcore : s'.core = (s.put c j { s.core c j with pc := p }).core := by
    rw [← Option.some.inj ran]
  have hx : s'.barrierX = s.barrierX := by rw [← Option.some.inj ran]; rfl
  have hy : s'.barrierY = amoFetchAdd s.barrierY := by rw [← Option.some.inj ran]
  have hbroadcasts : s'.broadcasts = s.broadcasts := by rw [← Option.some.inj ran]; rfl
  have abs : s'.abs = s.abs.arriveCol c := by
    rw [abs_body inv body body' hcore hbroadcasts, phase, hx, hy,
      toNat_amoFetchAdd M.numY_lt small]
    unfold TreeBarrier.arriveCol
    rw [← row, col]
  refine wakeupInv_body inv body body' hcore (by rw [← Option.some.inj ran]; rfl)
    (by rw [← Option.some.inj ran]; rfl) (by rw [← Option.some.inj ran]; rfl) hbroadcasts ?_
  rw [abs]
  exact TreeBarrier.inv_step inv.abs (.arriveCol rowDone)

theorem wakeupInv_resetY (inv : WakeupInv rounds s) (pc : (s.core c j).pc = .resetY)
    (ran : s.exec rounds c j = some s') : WakeupInv rounds s' := by
  rw [Wakeup.exec, pc] at ran
  dsimp only at ran
  have body : (s.core c j).pc.body = true := by rw [pc]; rfl
  have body' : (WakeupPc.wakeup .call).body = true := rfl
  obtain ⟨isDm, broadcasts⟩ := inv.broadcasts_of_body body
  have lead : s.abs.phase c = .colLead := by
    show (s.core c M.dmCore).pc.phase = _
    rw [← isDm, pc]
    rfl
  obtain ⟨row, col⟩ := abs_row_of_broadcasts broadcasts
  have hcore : s'.core = (s.put c j { s.core c j with pc := .wakeup .call }).core := by
    rw [← Option.some.inj ran]
  have hx : s'.barrierX = s.barrierX := by rw [← Option.some.inj ran]; rfl
  have hy : s'.barrierY = 0 := by rw [← Option.some.inj ran]
  have hbroadcasts : s'.broadcasts = s.broadcasts := by rw [← Option.some.inj ran]; rfl
  have abs : s'.abs = s.abs.clearCol c := by
    rw [abs_body inv body body' hcore hbroadcasts, hx, hy]
    unfold TreeBarrier.clearCol
    rw [← row]
    rfl
  refine wakeupInv_body inv body body' hcore (by rw [← Option.some.inj ran]; rfl)
    (by rw [← Option.some.inj ran]; rfl) (by rw [← Option.some.inj ran]; rfl) hbroadcasts ?_
  rw [abs]
  exact TreeBarrier.inv_step inv.abs (.clearCol lead)

/-! ## The accesses of `flex_barrier_xy_init` -/

/-- Cluster 0 goes on clearing the counters. -/
theorem wakeupInv_starts {p : WakeupPc} (inv : WakeupInv rounds s)
    (starts : (s.core c j).pc.starts = true) (starts' : p.starts = true)
    (hcore : s'.core = (s.put c j { s.core c j with pc := p }).core) (hregs : s'.regs = s.regs)
    (hinFlight : s'.inFlight = s.inFlight) (hconsumed : s'.consumed = s.consumed)
    (hbroadcasts : s'.broadcasts = s.broadcasts)
    (cleared : ∀ n, p.cleared M.numY = some n →
      s'.barrierY = 0 ∧ ∀ y : Fin M.numY, y.val < n → s'.barrierX y = 0) : WakeupInv rounds s' := by
  obtain ⟨level, noticed, busy, -, runs, free, phase⟩ := starts_facts _ starts
  obtain ⟨level', noticed', -, inCall', runs', free', phase'⟩ :=
    starts_facts { s.core c j with pc := p } starts'
  obtain rfl : j = M.dmCore := inv.eq_dmCore busy
  obtain ⟨zero, -, rfl⟩ := inv.broadcasts_of_starts starts
  have dm := put_dmCore rfl hcore
  have zero' : s'.broadcasts = 0 := hbroadcasts.trans zero
  have abs : s'.abs = s.abs := by
    refine abs_of_quiet (put_there hcore) ?_ ?_ ?_ ?_ hbroadcasts
    · rw [dm, phase]
      exact phase'
    · rw [dm, noticed]
      exact noticed'
    · funext y
      exact (if_pos zero').trans (if_pos zero).symm
    · exact (if_pos zero').trans (if_pos zero).symm
  refine wakeupInv_move inv hcore hregs hinFlight hconsumed hbroadcasts ?_ ?_
    (level'.trans level.symm) runs runs' (noticed'.trans noticed.symm) free free' ?_
  · rw [abs]
    exact inv.abs
  · refine coreOk_move _ ((inv.intra M.first).ok M.dmCore) (level'.trans level.symm)
      (fun inCall => ?_) (fun other => absurd rfl other) fun _ => rfl
    have none : p.inCall = false := inCall'
    rw [none] at inCall
    cases inCall
  · rw [dm]
    exact cleared

theorem wakeupInv_initY (inv : WakeupInv rounds s) (pc : (s.core c j).pc = .initY)
    (ran : s.exec rounds c j = some s') : WakeupInv rounds s' := by
  rw [Wakeup.exec, pc] at ran
  dsimp only at ran
  obtain rfl := Option.some.inj ran
  refine wakeupInv_starts inv (by rw [pc]; rfl) (rfl : (WakeupPc.initX 0).starts = true) rfl rfl rfl
    rfl rfl fun n cleared => ?_
  obtain rfl : 0 = n := Option.some.inj cleared
  exact ⟨rfl, fun y below => absurd below (Nat.not_lt_zero _)⟩

theorem wakeupInv_initX (inv : WakeupInv rounds s) {i : Nat} (pc : (s.core c j).pc = .initX i)
    (ran : s.exec rounds c j = some s') : WakeupInv rounds s' := by
  have starts : (s.core c j).pc.starts = true := by rw [pc]; rfl
  have before : s.barrierY = 0 ∧ ∀ y : Fin M.numY, y.val < i → s.barrierX y = 0 := by
    obtain rfl : j = M.dmCore := inv.eq_dmCore (starts_facts _ starts).2.2.1
    obtain ⟨-, -, rfl⟩ := inv.broadcasts_of_starts starts
    exact inv.cleared i (by rw [pc]; rfl)
  rw [Wakeup.exec, pc] at ran
  dsimp only at ran
  split at ran
  · rename_i row
    obtain rfl := Option.some.inj ran
    refine wakeupInv_starts inv starts (rfl : (WakeupPc.initX (i + 1)).starts = true) rfl rfl rfl
      rfl rfl fun n cleared => ⟨before.1, fun y below => ?_⟩
    obtain rfl : i + 1 = n := Option.some.inj cleared
    show Function.update s.barrierX ⟨i, row⟩ 0 y = 0
    by_cases here : y = ⟨i, row⟩
    · rw [here, Function.update_self]
    · rw [Function.update_of_ne here]
      have apart : y.val ≠ i := fun eq => here (Fin.ext eq)
      exact before.2 y (by omega)
  · rename_i last
    obtain rfl := Option.some.inj ran
    refine wakeupInv_starts inv starts (rfl : (WakeupPc.wakeup .init).starts = true) rfl rfl rfl rfl
      rfl fun n cleared => ⟨before.1, fun y _ => before.2 y ?_⟩
    have := y.isLt
    omega

/-! ## Accesses that leave the counters alone -/

/-- The counters stay as they are, and the core of `c` does not clear them. -/
theorem cleared_of_same (inv : WakeupInv rounds s)
    (dm : s'.core c M.dmCore = s.core c M.dmCore ∨
      (s'.core c M.dmCore).pc.cleared M.numY = none)
    (there : ∀ d, d ≠ c → s'.core d = s.core d) (hx : s'.barrierX = s.barrierX)
    (hy : s'.barrierY = s.barrierY) (n : Nat)
    (cleared : (s'.core M.first M.dmCore).pc.cleared M.numY = some n) :
    s'.barrierY = 0 ∧ ∀ y : Fin M.numY, y.val < n → s'.barrierX y = 0 := by
  rw [hx, hy]
  refine inv.cleared n ?_
  by_cases here : M.first = c
  · subst here
    rcases dm with same | none
    · rw [← same]
      exact cleared
    · rw [none] at cleared
      cases cleared
  · rw [← there _ here]
    exact cleared

/-- The counters of the barrier of two levels stay as they are. -/
theorem abs_counters (hx : s'.barrierX = s.barrierX) (hy : s'.barrierY = s.barrierY)
    (hbroadcasts : s'.broadcasts = s.broadcasts) :
    s'.abs.row = s.abs.row ∧ s'.abs.col = s.abs.col := by
  unfold Wakeup.abs
  rw [hx, hy, hbroadcasts]
  exact ⟨rfl, rfl⟩

theorem put_dmCore_cases (s' : Wakeup M) (hcore : s'.core = (s.put c j me).core) :
    (j = M.dmCore ∧ s'.core c M.dmCore = me) ∨ s'.core c M.dmCore = s.core c M.dmCore := by
  by_cases isDm : j = M.dmCore
  · exact Or.inl ⟨isDm, put_dmCore isDm hcore⟩
  · refine Or.inr ?_
    simp only [hcore, Wakeup.put, Function.update_self, Function.update_of_ne (Ne.symm isDm)]

/-- A core enters a call. -/
theorem wakeupInv_out (inv : WakeupInv rounds s) (pc : (s.core c j).pc = .out)
    (ran : s.exec rounds c j = some s') : WakeupInv rounds s' := by
  rw [Wakeup.exec, pc] at ran
  dsimp only at ran
  split at ran
  · rename_i more
    obtain rfl := Option.some.inj ran
    have noticed : ({ s.core c j with pc := .sync .entry } : WakeupCore).noticed =
        (s.core c j).noticed := by simp only [WakeupCore.noticed, pc]
    have level : ({ s.core c j with pc := .sync .entry } : WakeupCore).level =
        (s.core c j).level := by simp only [WakeupCore.level, pc]
    have dm := put_dmCore_cases (s.put c j { s.core c j with pc := .sync .entry }) rfl
    have abs : (s.put c j { s.core c j with pc := .sync .entry }).abs = s.abs := by
      refine abs_of_quiet (put_there rfl) ?_ ?_ rfl rfl rfl
      · rcases dm with ⟨rfl, same⟩ | same
        · rw [same, pc]
          rfl
        · rw [same]
      · rcases dm with ⟨rfl, same⟩ | same
        · rw [same, noticed]
        · rw [same]
    refine wakeupInv_move inv rfl rfl rfl rfl rfl ?_ ?_ level (by rw [pc]; rfl) rfl noticed
      (by rw [pc]; rfl) rfl (cleared_of_same inv ?_ (put_there rfl) rfl rfl)
    · rw [abs]
      exact inv.abs
    · exact coreOk_move _ ((inv.intra c).ok j) level (fun _ => more) (fun _ => rfl)
        fun starts => absurd starts Bool.false_ne_true
    · rcases dm with ⟨-, same⟩ | same
      · exact Or.inr (by rw [same]; rfl)
      · exact Or.inl same
  · cases ran

/-! ## The intra-cluster barrier -/

/-- The acknowledge leaves the dm core outside the barrier of two levels. -/
theorem acknowledge_facts {isFirst isDm : Prop} (ok : CoreOk rounds isFirst isDm me)
    (waits : me.pc.isWaiting = true) :
    (me.acknowledge true).pc.phase = me.pc.phase ∧
      (me.acknowledge true).noticed = me.noticed ∧
        (me.acknowledge true).pc.isRegWait = me.pc.isRegWait ∧
          (me.acknowledge true).pc.cleared M.numY = none := by
  obtain ⟨pc, calls⟩ := me
  cases pc with
  | syncWait point =>
    cases point with
    | init =>
      have zero : calls = 0 := ok.starting rfl
      subst zero
      exact ⟨rfl, rfl, rfl, rfl⟩
    | entry | exit => exact ⟨rfl, rfl, rfl, rfl⟩
  | _ => cases waits

/-- So does the arrival at a synchronisation point. -/
theorem arrivedAt_facts {core : Fin M.nbCores → WakeupCore} {point : SyncPoint}
    (pc : (core j).pc = .sync point) :
    (arrivedAt core j point M.dmCore).pc.phase = (core M.dmCore).pc.phase ∧
      (arrivedAt core j point M.dmCore).noticed = (core M.dmCore).noticed ∧
        (arrivedAt core j point M.dmCore).pc.isRegWait = (core M.dmCore).pc.isRegWait ∧
          (arrivedAt core j point M.dmCore = core M.dmCore ∨
            (arrivedAt core j point M.dmCore).pc.cleared M.numY = none) := by
  unfold arrivedAt
  by_cases isDm : j = M.dmCore
  · subst isDm
    rw [Function.update_self]
    refine ⟨by rw [pc]; rfl, ?_, by rw [pc]; rfl, Or.inr rfl⟩
    cases point <;> simp only [WakeupCore.noticed, pc]
  · rw [Function.update_of_ne (Ne.symm isDm)]
    exact ⟨rfl, rfl, rfl, Or.inl rfl⟩

/-- What an arrival at a synchronisation point changes. -/
theorem exec_sync {point : SyncPoint} (pc : (s.core c j).pc = .sync point)
    (ran : s.exec rounds c j = some s') :
    (s'.core c = if ((s.regs c).barrierSync j).2 = true then fun k =>
        (arrivedAt (s.core c) j point k).acknowledge (decide (k = M.dmCore))
      else arrivedAt (s.core c) j point) ∧
      (∀ d, d ≠ c → s'.core d = s.core d) ∧
      s'.regs = Function.update s.regs c ((s.regs c).barrierSync j).1 ∧
      s'.barrierX = s.barrierX ∧ s'.barrierY = s.barrierY ∧ s'.inFlight = s.inFlight ∧
      s'.consumed = s.consumed ∧ s'.broadcasts = s.broadcasts := by
  rw [Wakeup.exec, pc] at ran
  dsimp only at ran
  refine ⟨?_, fun d other => ?_, ?_⟩
  · split at ran <;> rename_i ack <;> rw [← Option.some.inj ran]
    · rw [if_pos ack]
      simp only [Wakeup.put, Function.update_self]
      rfl
    · rw [if_neg ack]
      simp only [Wakeup.put, Function.update_self]
      rfl
  · split at ran <;> rw [← Option.some.inj ran] <;>
      simp only [Wakeup.put, Function.update_of_ne other]
  · split at ran <;> rw [← Option.some.inj ran] <;> exact ⟨rfl, rfl, rfl, rfl, rfl, rfl⟩

/-- A core arrives at a synchronisation point. -/
theorem wakeupInv_sync (inv : WakeupInv rounds s) {point : SyncPoint}
    (pc : (s.core c j).pc = .sync point) (ran : s.exec rounds c j = some s') :
    WakeupInv rounds s' := by
  obtain ⟨core, there, regs, hx, hy, hinFlight, hconsumed, hbroadcasts⟩ := exec_sync pc ran
  have intra : IntraInv rounds (c = M.first) (s'.core c)
      ((s.regs c).barrierSync j).1.barrierStatus := by
    rw [core]
    exact intra_sync (inv.intra c) pc rfl
  -- the dm core stays outside the barrier of two levels
  have dm : (s'.core c M.dmCore).pc.phase = (s.core c M.dmCore).pc.phase ∧
      (s'.core c M.dmCore).noticed = (s.core c M.dmCore).noticed ∧
        (s'.core c M.dmCore).pc.isRegWait = (s.core c M.dmCore).pc.isRegWait ∧
          (s'.core c M.dmCore = s.core c M.dmCore ∨
            (s'.core c M.dmCore).pc.cleared M.numY = none) := by
    obtain ⟨phase, noticed, free, cleared⟩ := arrivedAt_facts pc
    rw [core]
    by_cases ack : ((s.regs c).barrierSync j).2 = true
    · have waits := (ack_iff point (inv.intra c) rfl).mp ack M.dmCore
      obtain ⟨phase', noticed', free', cleared'⟩ :=
        acknowledge_facts (M := M) (ok_arrivedAt (inv.intra c) pc M.dmCore) waits
      rw [if_pos ack, decide_eq_true rfl]
      exact ⟨phase'.trans phase, noticed'.trans noticed, free'.trans free, Or.inr cleared'⟩
    · rw [if_neg ack]
      exact ⟨phase, noticed, free, cleared⟩
  obtain ⟨phase, noticed, free, cleared⟩ := dm
  have query : ∀ r : ClusterRegisters M,
      (r.barrierSync j).1.globalBarrierQuery = r.globalBarrierQuery ∧
        (r.barrierSync j).1.globalBarrierMutex = r.globalBarrierMutex := by
    intro r
    unfold ClusterRegisters.barrierSync
    dsimp only
    split <;> exact ⟨rfl, rfl⟩
  have abs : s'.abs = s.abs := by
    obtain ⟨row, col⟩ := abs_counters hx hy hbroadcasts
    exact abs_of_quiet there phase noticed row col hbroadcasts
  refine wakeupInv_local inv c (fun d other => ⟨there d other, ?_, ?_, ?_⟩) hbroadcasts ?_ ?_ ?_
    (cleared_of_same inv cleared there hx hy)
  · rw [regs, Function.update_of_ne other]
  · rw [hinFlight]
  · rw [hconsumed]
  · rw [abs]
    exact inv.abs
  · rw [regs, Function.update_self]
    exact intra
  · rw [regs, Function.update_self, hinFlight, hconsumed]
    have slot := inv.slot c
    obtain ⟨sameQuery, sameMutex⟩ := query (s.regs c)
    refine ⟨by rw [noticed]; exact slot.consumed, ?_, ?_, ?_⟩
    · rw [noticed, sameMutex]
      exact slot.slot
    · rw [free, sameQuery]
      exact slot.query
    · rw [free, sameMutex]
      exact slot.apart

/-! ## Wakeups -/

/-- When a wakeup is broadcast every dm core has consumed the ones before, and none is on its
way. -/
theorem WakeupInv.all_noticed (inv : WakeupInv rounds s) (lead : s.abs.phase c = .colDone)
    (d : M.Clusters) : (s.core d M.dmCore).noticed = s.broadcasts ∧
      (s.regs d).globalBarrierMutex = none ∧ s.inFlight d = [] := by
  have passed := inv.abs.cols.full_of_holds c.2 ⟨c.1, Or.inr lead⟩ d.2 d.1
  have same : (s.core d M.dmCore).noticed = s.broadcasts := passed.1.1
  rcases (inv.slot d).slot with all | ⟨late, -⟩
  · exact all
  · omega

theorem wakeup_facts (calls : Nat) (stage : Stage) :
    (⟨.wakeup stage, calls⟩ : WakeupCore).noticed = stage.round calls ∧
      (⟨.reg stage, calls⟩ : WakeupCore).noticed = stage.round calls ∧
        (⟨.reg stage, calls⟩ : WakeupCore).level = (⟨.wakeup stage, calls⟩ : WakeupCore).level := by
  cases stage <;> exact ⟨rfl, rfl, rfl⟩

/-- The counters of the barrier of two levels are those of the memory, also before the first
broadcast. -/
theorem WakeupInv.counters_of_wakeup (inv : WakeupInv rounds s) {stage : Stage} {calls : Nat}
    (me : s.core c M.dmCore = ⟨.wakeup stage, calls⟩) (round : stage.round calls = s.broadcasts) :
    s.abs.row = (fun y => (s.barrierX y).toNat) ∧ s.abs.col = s.barrierY.toNat := by
  by_cases broadcasts : s.broadcasts = 0
  · cases stage with
    | call =>
      have : calls + 1 = s.broadcasts := round
      omega
    | init =>
      obtain ⟨-, -, rfl⟩ := inv.broadcasts_of_starts (c := c) (by rw [me]; rfl)
      obtain ⟨zeroY, zeroX⟩ := inv.cleared M.numY (by rw [me]; rfl)
      refine ⟨funext fun y => ?_, ?_⟩
      · rw [zeroX y y.isLt]
        exact if_pos broadcasts
      · rw [zeroY]
        exact if_pos broadcasts
  · exact abs_row_of_broadcasts broadcasts

/-- While a dm core leads the column, every other one waits: none of them clears the counters. -/
theorem WakeupInv.other_not_cleared (inv : WakeupInv rounds s) (lead : s.abs.phase c = .colDone)
    (other : M.first ≠ c) : (s.core M.first M.dmCore).pc.cleared M.numY = none := by
  have waits : (s.core M.first M.dmCore).pc.phase = .waiting := inv.abs.others_wait lead _ other
  cases first : (s.core M.first M.dmCore).pc with
  | initX =>
    rw [first] at waits
    cases waits
  | wakeup =>
    rw [first] at waits
    cases waits
  | _ => rfl

/-- The leader of the column broadcasts the wakeup of the round. -/
theorem wakeupInv_wakeup (inv : WakeupInv rounds s) {stage : Stage}
    (pc : (s.core c j).pc = .wakeup stage) (ran : s.exec rounds c j = some s') :
    WakeupInv rounds s' := by
  obtain rfl : j = M.dmCore := inv.eq_dmCore (by rw [pc]; rfl)
  obtain ⟨calls, me⟩ : ∃ calls, s.core c M.dmCore = ⟨.wakeup stage, calls⟩ :=
    ⟨(s.core c M.dmCore).calls, by rw [← pc]⟩
  obtain ⟨noticed, noticed', level⟩ := wakeup_facts calls stage
  have lead : s.abs.phase c = .colDone := congrArg WakeupPc.phase pc
  have all := inv.all_noticed lead
  have round : stage.round calls = s.broadcasts := by
    rw [← noticed, ← me]
    exact (all c).1
  rw [Wakeup.exec, me] at ran
  dsimp only at ran
  have hcore : s'.core = (s.put c M.dmCore ⟨.reg stage, calls⟩).core := by
    rw [← Option.some.inj ran]
  have there := put_there hcore
  have dm := put_dmCore rfl hcore
  have core := put_here hcore
  have hregs : s'.regs = s.regs := by rw [← Option.some.inj ran]; rfl
  have hx : s'.barrierX = s.barrierX := by rw [← Option.some.inj ran]; rfl
  have hy : s'.barrierY = s.barrierY := by rw [← Option.some.inj ran]; rfl
  have hconsumed : s'.consumed = s.consumed := by rw [← Option.some.inj ran]; rfl
  have hbroadcasts : s'.broadcasts = s.broadcasts + 1 := by rw [← Option.some.inj ran]
  have hinFlight : ∀ d, s'.inFlight d = [s.broadcasts] := by
    intro d
    rw [← Option.some.inj ran, ← round]
    show s.inFlight d ++ _ = _
    rw [(all d).2.2]
    rfl
  have used : s'.broadcasts ≠ 0 := by rw [hbroadcasts]; exact Nat.succ_ne_zero _
  have counters := inv.counters_of_wakeup me round
  have abs : s'.abs = s.abs.release c := by
    obtain ⟨row', col'⟩ := abs_row_of_broadcasts used
    have done : Function.update s.abs.done c (s.core c M.dmCore).noticed = s.abs.done :=
      Function.update_eq_self c s.abs.done
    rw [me, noticed] at done
    rw [abs_of_kept there, dm, noticed', done, row', col', hx, hy, ← counters.1, ← counters.2,
      hbroadcasts]
    rfl
  refine ⟨?_, fun d => ?_, fun d => ?_, fun n cleared => ?_⟩
  · rw [abs]
    exact TreeBarrier.inv_step inv.abs (.release lead)
  · rw [hregs]
    by_cases same : d = c
    · subst same
      have ok := (inv.intra d).ok M.dmCore
      rw [core]
      refine intra_move (inv.intra d) ?_ (by rw [me, level]) (by rw [me]; rfl) rfl
      rw [me] at ok
      refine coreOk_move _ ok level (fun inCall => ok.running ?_) (fun other => absurd rfl other)
        nofun
      cases stage <;> exact inCall
    · rw [there d same]
      exact inv.intra d
  · obtain ⟨before, mutex, -⟩ := all d
    have slot := inv.slot d
    rw [hregs, hinFlight, hconsumed, hbroadcasts]
    by_cases same : d = c
    · subst same
      have query := slot.query
      have consumed := slot.consumed
      rw [me] at query
      rw [me, noticed] at consumed
      rw [dm]
      refine ⟨by rw [noticed']; exact consumed, Or.inr ⟨?_, Or.inl ⟨mutex, ?_⟩⟩, query, nofun⟩
      · rw [noticed', round]
      · rw [noticed', round]
    · rw [there d same]
      exact ⟨slot.consumed, Or.inr ⟨by rw [before], Or.inl ⟨mutex, by rw [before]⟩⟩, slot.query,
        slot.apart⟩
  · have none : (s'.core M.first M.dmCore).pc.cleared M.numY = none := by
      by_cases same : M.first = c
      · rw [same, dm]
        rfl
      · rw [there _ same]
        exact inv.other_not_cleared lead same
    rw [none] at cleared
    cases cleared

/-- The wakeup in the mutex bit is that of the round, and no other is on its way. -/
theorem SlotInv.stored {dm : WakeupCore} {regs : ClusterRegisters M} {inFlight consumed : List Nat}
    {broadcasts round : Nat} (slot : SlotInv dm regs inFlight consumed broadcasts)
    (mutex : regs.globalBarrierMutex = some round) :
    dm.noticed + 1 = broadcasts ∧ round = dm.noticed ∧ inFlight = [] := by
  rcases slot.slot with ⟨-, none, -⟩ | ⟨late, ⟨none, -⟩ | ⟨stored, empty⟩⟩
  · rw [mutex] at none
    cases none
  · rw [mutex] at none
    cases none
  · rw [mutex] at stored
    exact ⟨late, Option.some.inj stored, empty⟩

/-- The wakeup on its way is that of the round, and the mutex bit is clear. -/
theorem SlotInv.arriving {dm : WakeupCore} {regs : ClusterRegisters M}
    {inFlight consumed : List Nat} {broadcasts round : Nat}
    (slot : SlotInv dm regs inFlight consumed broadcasts) (mem : round ∈ inFlight) :
    dm.noticed + 1 = broadcasts ∧ round = dm.noticed ∧ inFlight = [dm.noticed] := by
  rcases slot.slot with ⟨-, -, empty⟩ | ⟨late, ⟨-, flight⟩ | ⟨-, empty⟩⟩
  · rw [empty] at mem
    cases mem
  · rw [flight] at mem
    exact ⟨late, List.mem_singleton.mp mem, flight⟩
  · rw [empty] at mem
    cases mem

theorem after_facts (calls : Nat) (stage : Stage) :
    (⟨stage.after, calls⟩ : WakeupCore).noticed =
        (⟨.reg stage, calls⟩ : WakeupCore).noticed + 1 ∧
      (⟨stage.after, calls⟩ : WakeupCore).level = (⟨.reg stage, calls⟩ : WakeupCore).level ∧
        stage.after.phase = .idle ∧ stage.after.isWaiting = false ∧
          stage.after.isRegWait = false ∧ stage.after.starts = false ∧
            stage.after.synchronises = true ∧ stage.after.cleared M.numY = none ∧
              stage.after.inCall = (WakeupPc.reg stage).inCall := by
  cases stage <;> exact ⟨rfl, rfl, rfl, rfl, rfl, rfl, rfl, rfl, rfl⟩

/-- The dm core of `c` notices the wakeup it waits for, in the mutex bit or as it arrives. -/
theorem wakeupInv_notice (inv : WakeupInv rounds s) {stage : Stage} {calls : Nat}
    (writes : s.core c M.dmCore = ⟨.reg stage, calls⟩ ∨
      s.core c M.dmCore = ⟨.regWait stage, calls⟩)
    (late : (s.core c M.dmCore).noticed + 1 = s.broadcasts)
    (hcore : s'.core = (s.put c M.dmCore ⟨stage.after, calls⟩).core)
    (kept : ∀ d, d ≠ c → s'.regs d = s.regs d ∧ s'.inFlight d = s.inFlight d ∧
      s'.consumed d = s.consumed d)
    (hstatus : (s'.regs c).barrierStatus = (s.regs c).barrierStatus)
    (hquery : (s'.regs c).globalBarrierQuery = none)
    (hmutex : (s'.regs c).globalBarrierMutex = none) (hinFlight : s'.inFlight c = [])
    (hconsumed : s'.consumed c = s.consumed c ++ [(s.core c M.dmCore).noticed])
    (hx : s'.barrierX = s.barrierX) (hy : s'.barrierY = s.barrierY)
    (hbroadcasts : s'.broadcasts = s.broadcasts) : WakeupInv rounds s' := by
  obtain ⟨noticed, level, phase, runs, free, starts, -, cleared, inCall⟩ :=
    after_facts (M := M) calls stage
  have dm := put_dmCore rfl hcore
  have there := put_there hcore
  have core := put_here hcore
  -- the pending write and the write itself are the same to everything but the register
  have old : (s.core c M.dmCore).calls = calls ∧ (s.core c M.dmCore).pc.phase = .waiting ∧
      (s.core c M.dmCore).noticed = (⟨.reg stage, calls⟩ : WakeupCore).noticed ∧
        (s.core c M.dmCore).level = (⟨.reg stage, calls⟩ : WakeupCore).level ∧
          (s.core c M.dmCore).pc.isWaiting = false ∧
            (s.core c M.dmCore).pc.inCall = (WakeupPc.reg stage).inCall := by
    rcases writes with eq | eq <;> rw [eq] <;> cases stage <;> exact ⟨rfl, rfl, rfl, rfl, rfl, rfl⟩
  obtain ⟨oldCalls, oldPhase, oldNoticed, oldLevel, oldRuns, oldInCall⟩ := old
  have next : (⟨stage.after, calls⟩ : WakeupCore).noticed = (s.core c M.dmCore).noticed + 1 := by
    rw [noticed, oldNoticed]
  have abs : s'.abs = s.abs.wake c := by
    obtain ⟨row, col⟩ := abs_counters hx hy hbroadcasts
    rw [abs_of_kept there, dm, next, row, col, hbroadcasts]
    dsimp only
    rw [phase]
    rfl
  have waits : s.abs.phase c = .waiting := oldPhase
  have behind : s.abs.done c < s.abs.released := by
    show (s.core c M.dmCore).noticed < s.broadcasts
    omega
  refine wakeupInv_local inv c (fun d other => ⟨there d other, (kept d other).1,
    (kept d other).2.1, (kept d other).2.2⟩) hbroadcasts ?_ ?_ ?_
    (cleared_of_same inv (Or.inr ?_) there hx hy)
  · rw [abs]
    exact TreeBarrier.inv_step inv.abs (.wake waits behind)
  · rw [core, hstatus]
    have ok := (inv.intra c).ok M.dmCore
    refine intra_move (inv.intra c) ⟨?_, fun run => ?_, fun zero => ?_, fun other =>
      absurd rfl other, fun start => ?_⟩ (level.trans oldLevel.symm) oldRuns runs
    · rw [← oldCalls]
      exact ok.calls_le
    · rw [← oldCalls]
      exact ok.running (oldInCall.trans (inCall.symm.trans run))
    · rw [← oldCalls]
      exact ok.starting (oldLevel.trans (level.symm.trans zero))
    · have none : (⟨stage.after, calls⟩ : WakeupCore).pc.starts = false := starts
      rw [none] at start
      cases start
  · rw [dm, hinFlight, hconsumed]
    have consumed := (inv.slot c).consumed
    refine ⟨?_, Or.inl ⟨by rw [next, late], hmutex, rfl⟩, ?_, fun _ => hmutex⟩
    · rw [next, List.range_succ, consumed]
    · rw [hquery]
      exact (if_neg (by rw [free]; exact nofun)).symm
  · rw [dm]
    exact cleared

/-- The write to the cluster register finds the wakeup in the mutex bit. -/
theorem wakeupInv_reg_stored (inv : WakeupInv rounds s) {stage : Stage} {calls round : Nat}
    (me : s.core c M.dmCore = ⟨.reg stage, calls⟩)
    (query : (s.regs c).globalBarrierQuery = none)
    (mutex : (s.regs c).globalBarrierMutex = some round)
    (ran : s.exec rounds c M.dmCore = some s') : WakeupInv rounds s' := by
  obtain ⟨late, rfl, empty⟩ := (inv.slot c).stored mutex
  have req : (s.regs c).req M.dmCore = ({ s.regs c with globalBarrierMutex := none },
      .ok (some (s.core c M.dmCore).noticed)) := by
    simp only [ClusterRegisters.req, query, mutex]
  have pc : (s.core c M.dmCore).pc = .reg stage := by rw [me]
  rw [Wakeup.exec, pc] at ran
  dsimp only at ran
  rw [req] at ran
  dsimp only at ran
  have hcore : s'.core = (s.put c M.dmCore ⟨stage.after, calls⟩).core := by
    rw [← Option.some.inj ran, me]
  obtain rfl := Option.some.inj ran
  refine wakeupInv_notice inv (Or.inl me) late hcore (fun d other => ⟨?_, rfl, ?_⟩) ?_ ?_ ?_ empty
    ?_ rfl rfl rfl
  · exact Function.update_of_ne other _ _
  · exact Function.update_of_ne other _ _
  · show (Function.update s.regs c _ c).barrierStatus = _
    rw [Function.update_self]
  · show (Function.update s.regs c _ c).globalBarrierQuery = _
    rw [Function.update_self]
    exact query
  · show (Function.update s.regs c _ c).globalBarrierMutex = _
    rw [Function.update_self]
  · exact Function.update_self _ _ _

/-- The write to the cluster register comes before the wakeup, and waits for it. -/
theorem wakeupInv_reg_pending (inv : WakeupInv rounds s) {stage : Stage} {calls : Nat}
    (me : s.core c M.dmCore = ⟨.reg stage, calls⟩)
    (query : (s.regs c).globalBarrierQuery = none)
    (mutex : (s.regs c).globalBarrierMutex = none)
    (ran : s.exec rounds c M.dmCore = some s') : WakeupInv rounds s' := by
  have slot := inv.slot c
  have req : (s.regs c).req M.dmCore =
      ({ s.regs c with globalBarrierQuery := some M.dmCore }, .pending) := by
    simp only [ClusterRegisters.req, query, mutex]
  rw [Wakeup.exec, me] at ran
  dsimp only at ran
  rw [req] at ran
  dsimp only at ran
  have hcore : s'.core = (s.put c M.dmCore ⟨.regWait stage, calls⟩).core := by
    rw [← Option.some.inj ran]
  have hregs : s'.regs = Function.update s.regs c
      { s.regs c with globalBarrierQuery := some M.dmCore } := by rw [← Option.some.inj ran]
  have hx : s'.barrierX = s.barrierX := by rw [← Option.some.inj ran]; rfl
  have hy : s'.barrierY = s.barrierY := by rw [← Option.some.inj ran]; rfl
  have hinFlight : s'.inFlight = s.inFlight := by rw [← Option.some.inj ran]; rfl
  have hconsumed : s'.consumed = s.consumed := by rw [← Option.some.inj ran]; rfl
  have hbroadcasts : s'.broadcasts = s.broadcasts := by rw [← Option.some.inj ran]; rfl
  have dm := put_dmCore rfl hcore
  have there := put_there hcore
  have core := put_here hcore
  have same : (⟨.regWait stage, calls⟩ : WakeupCore).noticed = (s.core c M.dmCore).noticed ∧
      (⟨.regWait stage, calls⟩ : WakeupCore).level = (s.core c M.dmCore).level ∧
        (WakeupPc.regWait stage).inCall = (s.core c M.dmCore).pc.inCall := by
    rw [me]
    cases stage <;> exact ⟨rfl, rfl, rfl⟩
  obtain ⟨noticed, level, inCall⟩ := same
  have abs : s'.abs = s.abs := by
    obtain ⟨row, col⟩ := abs_counters hx hy hbroadcasts
    refine abs_of_quiet there ?_ ?_ row col hbroadcasts
    · rw [dm, me]
      rfl
    · rw [dm, noticed]
  refine wakeupInv_local inv c (fun d other => ⟨there d other, ?_, ?_, ?_⟩) hbroadcasts ?_ ?_ ?_
    (cleared_of_same inv (Or.inr ?_) there hx hy)
  · rw [hregs, Function.update_of_ne other]
  · rw [hinFlight]
  · rw [hconsumed]
  · rw [abs]
    exact inv.abs
  · have ok := (inv.intra c).ok M.dmCore
    have result := coreOk_move (.regWait stage) ok (by rw [me] at level ⊢; exact level)
      (fun run => ok.running (inCall ▸ run)) (fun other => absurd rfl other) nofun
    rw [me] at result
    rw [core, hregs, Function.update_self]
    exact intra_move (inv.intra c) result level (by rw [me]; rfl) rfl
  · rw [dm, hregs, Function.update_self, hinFlight, hconsumed]
    exact ⟨by rw [noticed]; exact slot.consumed, by rw [noticed]; exact slot.slot, rfl,
      fun _ => mutex⟩
  · rw [dm]
    rfl

/-- The write to the cluster register. -/
theorem wakeupInv_reg (inv : WakeupInv rounds s) {stage : Stage} (pc : (s.core c j).pc = .reg stage)
    (ran : s.exec rounds c j = some s') : WakeupInv rounds s' := by
  obtain rfl : j = M.dmCore := inv.eq_dmCore (by rw [pc]; rfl)
  obtain ⟨calls, me⟩ : ∃ calls, s.core c M.dmCore = ⟨.reg stage, calls⟩ :=
    ⟨(s.core c M.dmCore).calls, by rw [← pc]⟩
  have query : (s.regs c).globalBarrierQuery = none := by
    rw [(inv.slot c).query, me]
    rfl
  cases mutex : (s.regs c).globalBarrierMutex with
  | some round => exact wakeupInv_reg_stored inv me query mutex ran
  | none => exact wakeupInv_reg_pending inv me query mutex ran

theorem eq_regWait (pending : me.pc.isRegWait = true) :
    ∃ stage calls, me = ⟨.regWait stage, calls⟩ := by
  obtain ⟨pc, calls⟩ := me
  cases pc with
  | regWait stage => exact ⟨stage, calls, rfl⟩
  | _ => cases pending

/-- A wakeup that arrives for a pending write is noticed at once. -/
theorem wakeupInv_deliver_pending (inv : WakeupInv rounds s)
    (late : (s.core c M.dmCore).noticed + 1 = s.broadcasts)
    (empty : (s.inFlight c).erase (s.core c M.dmCore).noticed = [])
    (pending : (s.core c M.dmCore).pc.isRegWait = true) :
    WakeupInv rounds (s.deliver c (s.core c M.dmCore).noticed) := by
  obtain ⟨stage, calls, me⟩ := eq_regWait pending
  have query : (s.regs c).globalBarrierQuery = some M.dmCore := by
    rw [(inv.slot c).query, pending]
    rfl
  have arrives : (s.regs c).globalBarrierSync (s.core c M.dmCore).noticed =
      ({ s.regs c with globalBarrierMutex := none, globalBarrierQuery := none },
        some M.dmCore) := by
    rw [ClusterRegisters.globalBarrierSync, query]
  have respond : (s.core c M.dmCore).respond = ⟨stage.after, calls⟩ := by
    rw [me]
    rfl
  have result : s.deliver c (s.core c M.dmCore).noticed =
      { s.put c M.dmCore ⟨stage.after, calls⟩ with
        inFlight := Function.update s.inFlight c []
        regs := Function.update s.regs c
          { s.regs c with globalBarrierMutex := none, globalBarrierQuery := none }
        consumed := Function.update s.consumed c
          (s.consumed c ++ [(s.core c M.dmCore).noticed]) } := by
    rw [Wakeup.deliver, arrives, empty]
    dsimp only
    rw [respond]
    rfl
  rw [result]
  refine wakeupInv_notice inv (Or.inr me) late rfl (fun d other => ⟨?_, ?_, ?_⟩) ?_ ?_ ?_ ?_ ?_
    rfl rfl rfl
  · exact Function.update_of_ne other _ _
  · exact Function.update_of_ne other _ _
  · exact Function.update_of_ne other _ _
  · show (Function.update s.regs c _ c).barrierStatus = _
    rw [Function.update_self]
  · show (Function.update s.regs c _ c).globalBarrierQuery = _
    rw [Function.update_self]
  · show (Function.update s.regs c _ c).globalBarrierMutex = _
    rw [Function.update_self]
  · exact Function.update_self _ _ _
  · exact Function.update_self _ _ _

/-- A wakeup that arrives before the write sets the mutex bit. -/
theorem wakeupInv_deliver_stored (inv : WakeupInv rounds s)
    (late : (s.core c M.dmCore).noticed + 1 = s.broadcasts)
    (empty : (s.inFlight c).erase (s.core c M.dmCore).noticed = [])
    (pending : (s.core c M.dmCore).pc.isRegWait = false) :
    WakeupInv rounds (s.deliver c (s.core c M.dmCore).noticed) := by
  have slot := inv.slot c
  have query : (s.regs c).globalBarrierQuery = none := by
    rw [slot.query, pending]
    rfl
  have arrives : (s.regs c).globalBarrierSync (s.core c M.dmCore).noticed =
      ({ s.regs c with globalBarrierMutex := some (s.core c M.dmCore).noticed }, none) := by
    simp only [ClusterRegisters.globalBarrierSync, query]
  have result : s.deliver c (s.core c M.dmCore).noticed =
      { s with
        inFlight := Function.update s.inFlight c []
        regs := Function.update s.regs c
          { s.regs c with globalBarrierMutex := some (s.core c M.dmCore).noticed } } := by
    rw [Wakeup.deliver, arrives, empty]
  rw [result]
  refine wakeupInv_local inv c (fun d other => ⟨rfl, ?_, ?_, rfl⟩) rfl inv.abs ?_ ?_ inv.cleared
  · exact Function.update_of_ne other _ _
  · exact Function.update_of_ne other _ _
  · show IntraInv rounds _ _ (Function.update s.regs c _ c).barrierStatus
    rw [Function.update_self]
    exact inv.intra c
  · show SlotInv _ (Function.update s.regs c _ c) (Function.update s.inFlight c [] c) _ _
    rw [Function.update_self, Function.update_self]
    refine ⟨slot.consumed, Or.inr ⟨late, Or.inr ⟨rfl, rfl⟩⟩, slot.query, fun waits => ?_⟩
    rw [pending] at waits
    cases waits

/-- A wakeup that arrives is noticed at once by a pending write, or sets the mutex bit. -/
theorem wakeupInv_deliver (inv : WakeupInv rounds s) {round : Nat} (mem : round ∈ s.inFlight c) :
    WakeupInv rounds (s.deliver c round) := by
  obtain ⟨late, rfl, flight⟩ := (inv.slot c).arriving mem
  have empty : (s.inFlight c).erase (s.core c M.dmCore).noticed = [] := by
    rw [flight]
    exact List.erase_cons_head _ _
  cases pending : (s.core c M.dmCore).pc.isRegWait with
  | true => exact wakeupInv_deliver_pending inv late empty pending
  | false => exact wakeupInv_deliver_stored inv late empty pending

/-- Every step keeps the invariant. -/
theorem wakeupInv_step (inv : WakeupInv rounds s) (step : Wakeup.Step rounds s s') :
    WakeupInv rounds s' := by
  cases step with
  | deliver mem => exact wakeupInv_deliver inv mem
  | exec ran =>
    rename_i c j
    cases pc : (s.core c j).pc with
    | initY => exact wakeupInv_initY inv pc ran
    | initX i => exact wakeupInv_initX inv pc ran
    | amoX => exact wakeupInv_amoX inv pc ran
    | resetX => exact wakeupInv_resetX inv pc ran
    | amoY => exact wakeupInv_amoY inv pc ran
    | resetY => exact wakeupInv_resetY inv pc ran
    | wakeup stage => exact wakeupInv_wakeup inv pc ran
    | reg stage => exact wakeupInv_reg inv pc ran
    | sync point => exact wakeupInv_sync inv pc ran
    | out => exact wakeupInv_out inv pc ran
    | regWait stage =>
      rw [Wakeup.exec, pc] at ran
      cases ran
    | syncWait point =>
      rw [Wakeup.exec, pc] at ran
      cases ran

end

end SoftHier.Barrier
