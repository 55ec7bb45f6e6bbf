import Mathlib.Algebra.BigOperators.Group.Finset.Piecewise
import SoftHier.Barrier.WakeupSafety

/-!
# Runs of the barrier with wakeups

* `WakeupCore.work`: what is left to do for a core; every access and every arrival of a wakeup
  leaves less to do.
* `wakeup_progress`: until every core has returned from its last call something can happen.
* `wakeup_barrier`: the barrier is safe, loses no wakeup and can always be completed.
-/

namespace SoftHier.Barrier

/-! ## What is left to do -/

/-- How far a core is within its call, where a broadcast counts for the wakeups it sends. -/
def WakeupPc.late (clusters : Nat) : WakeupPc → Nat
  | .initY | .initX _ | .wakeup .init | .reg .init | .regWait .init | .sync .init
  | .syncWait .init | .out => 0
  | .sync .entry => 1
  | .syncWait .entry => 2
  | .amoX => 3
  | .resetX => 4
  | .amoY => 5
  | .resetY => 6
  | .wakeup .call => 7
  | .reg .call => 9 + clusters
  | .regWait .call => 10 + clusters
  | .sync .exit => 11 + clusters
  | .syncWait .exit => 12 + clusters

/-- How far a core is from its first call. -/
def WakeupPc.early (clusters numY : Nat) : WakeupPc → Nat
  | .initY => 8 + clusters + numY
  | .initX i => 7 + clusters + (numY - i)
  | .wakeup .init => 6 + clusters
  | .reg .init => 4
  | .regWait .init => 3
  | .sync .init => 2
  | .syncWait .init => 1
  | _ => 0

/-- What is left to do for a core. -/
def WakeupCore.work (rounds clusters numY : Nat) (me : WakeupCore) : Nat :=
  (rounds - me.calls) * (20 + clusters) + me.pc.early clusters numY - me.pc.late clusters

/-- What is left to do: by the cores, and for the wakeups on their way. -/
def Wakeup.work {M : Machine} (rounds : Nat) (s : Wakeup M) : Nat :=
  ∑ p : M.Clusters × Fin M.nbCores,
      (s.core p.1 p.2).work rounds (Fintype.card M.Clusters) M.numY +
    ∑ c, (s.inFlight c).length

section

variable {M : Machine} {rounds clusters numY : Nat} {s s' : Wakeup M} {c : M.Clusters}
  {j : Fin M.nbCores} {me : WakeupCore}

/-- Sums of which one term drops by more than `e`. -/
theorem sum_add_lt {α : Type*} [Fintype α] [DecidableEq α] {f g : α → Nat} (le : ∀ a, f a ≤ g a)
    (a : α) {e : Nat} (drop : f a + e < g a) : ∑ x, f x + e < ∑ x, g x := by
  have spread : ∑ x, (f x + if x = a then e else 0) = ∑ x, f x + e := by
    rw [Finset.sum_add_distrib, Finset.sum_ite_eq' Finset.univ a fun _ => e,
      if_pos (Finset.mem_univ a)]
  rw [← spread]
  refine Finset.sum_lt_sum (fun x _ => ?_) ⟨a, Finset.mem_univ a, by rw [if_pos rfl]; exact drop⟩
  by_cases here : x = a
  · rw [if_pos here, here]
    exact drop.le
  · rw [if_neg here]
    exact le x

/-- A core with a call to go has work for it. -/
theorem work_pos (clusters : Nat) {calls : Nat} (more : calls < rounds) :
    20 + clusters ≤ (rounds - calls) * (20 + clusters) :=
  Nat.le_mul_of_pos_left _ (Nat.sub_pos_of_lt more)

/-- The last synchronisation point of a call ends it. -/
theorem work_exit (clusters : Nat) {calls : Nat} (more : calls < rounds) :
    (rounds - (calls + 1)) * (20 + clusters) + (20 + clusters) =
      (rounds - calls) * (20 + clusters) := by
  obtain ⟨k, hk⟩ : ∃ k, rounds - calls = k + 1 := ⟨rounds - calls - 1, by omega⟩
  have next : rounds - (calls + 1) = k := by omega
  rw [hk, next, Nat.succ_mul]

theorem work_acknowledge (clusters numY : Nat) {isFirst isDm : Prop} [Decidable isDm]
    (ok : CoreOk rounds isFirst isDm me) (waits : me.pc.isWaiting = true) :
    (me.acknowledge (decide isDm)).work rounds clusters numY < me.work rounds clusters numY := by
  obtain ⟨pc, calls⟩ := me
  cases pc with
  | syncWait point =>
    cases point with
    | init =>
      show (rounds - calls) * (20 + clusters) + 0 - 0 < (rounds - calls) * (20 + clusters) + 1 - 0
      omega
    | entry =>
      have more : calls < rounds := ok.running rfl
      have pos := work_pos clusters more
      simp only [WakeupCore.acknowledge, WakeupCore.resume]
      split <;> simp only [WakeupCore.work, WakeupPc.early, WakeupPc.late] at * <;> omega
    | exit =>
      have more : calls < rounds := ok.running rfl
      have last := work_exit clusters more
      show (rounds - (calls + 1)) * (20 + clusters) + 0 - 0 <
        (rounds - calls) * (20 + clusters) + 0 - (12 + clusters)
      omega
  | _ => cases waits

theorem work_respond {isFirst isDm : Prop} (ok : CoreOk rounds isFirst isDm me) :
    me.respond.work rounds clusters numY ≤ me.work rounds clusters numY := by
  obtain ⟨pc, calls⟩ := me
  cases pc with
  | regWait stage =>
    cases stage with
    | init =>
      show (rounds - calls) * (20 + clusters) + 2 - 0 ≤ (rounds - calls) * (20 + clusters) + 3 - 0
      omega
    | call =>
      have pos := work_pos clusters (ok.running rfl)
      show (rounds - calls) * (20 + clusters) + 0 - (11 + clusters) ≤
        (rounds - calls) * (20 + clusters) + 0 - (10 + clusters)
      omega
  | _ => exact Nat.le_refl _

/-- An access of `c` that sends `e` wakeups leaves less to do if the core that makes it has more
than `e` less to do. -/
theorem work_lt (there : ∀ d, d ≠ c → s'.core d = s.core d)
    (le : ∀ k, (s'.core c k).work rounds (Fintype.card M.Clusters) M.numY ≤
      (s.core c k).work rounds (Fintype.card M.Clusters) M.numY) {e : Nat}
    (drop : (s'.core c j).work rounds (Fintype.card M.Clusters) M.numY + e <
      (s.core c j).work rounds (Fintype.card M.Clusters) M.numY)
    (flight : ∑ d, (s'.inFlight d).length ≤ ∑ d, (s.inFlight d).length + e) :
    s'.work rounds < s.work rounds := by
  have cores := sum_add_lt
    (f := fun p : M.Clusters × Fin M.nbCores =>
      (s'.core p.1 p.2).work rounds (Fintype.card M.Clusters) M.numY)
    (g := fun p : M.Clusters × Fin M.nbCores =>
      (s.core p.1 p.2).work rounds (Fintype.card M.Clusters) M.numY)
    (fun p => by
      by_cases same : p.1 = c
      · rw [same]
        exact le p.2
      · rw [there _ same]) (c, j) drop
  unfold Wakeup.work
  omega

/-- The core moves on by itself. -/
theorem work_put (hcore : s'.core = (s.put c j me).core) {e : Nat}
    (drop : me.work rounds (Fintype.card M.Clusters) M.numY + e <
      (s.core c j).work rounds (Fintype.card M.Clusters) M.numY)
    (flight : ∑ d, (s'.inFlight d).length ≤ ∑ d, (s.inFlight d).length + e) :
    s'.work rounds < s.work rounds := by
  have core := put_here hcore
  refine work_lt (j := j) (put_there hcore) (fun k => ?_) ?_ flight
  · rw [core]
    by_cases here : k = j
    · rw [here, Function.update_self]
      omega
    · rw [Function.update_of_ne here]
  · rw [core, Function.update_self]
    exact drop

/-- An arrival at a synchronisation point leaves less to do for the core, with or without the
acknowledge, and not more for the others. -/
theorem work_sync (clusters numY : Nat) {isFirst : Prop} {core : Fin M.nbCores → WakeupCore}
    {status : BitVec 32} {point : SyncPoint} (inv : IntraInv rounds isFirst core status)
    (pc : (core j).pc = .sync point) (regs : ClusterRegisters M)
    (hstatus : regs.barrierStatus = status) (k : Fin M.nbCores) :
    ((if (regs.barrierSync j).2 = true then fun k =>
        (arrivedAt core j point k).acknowledge (decide (k = M.dmCore))
      else arrivedAt core j point) k).work rounds clusters numY + (if k = j then 1 else 0) ≤
      (core k).work rounds clusters numY := by
  have arrives : (arrivedAt core j point k).work rounds clusters numY + (if k = j then 1 else 0) ≤
      (core k).work rounds clusters numY := by
    unfold arrivedAt
    by_cases same : k = j
    · subst same
      have ok := inv.ok k
      rcases me : core k with ⟨pc', calls⟩
      rw [me] at pc ok
      obtain rfl : pc' = .sync point := pc
      rw [Function.update_self, if_pos rfl]
      cases point with
      | init =>
        simp only [WakeupCore.work, WakeupPc.early, WakeupPc.late]
        omega
      | entry | exit =>
        have bound := work_pos clusters (ok.running rfl)
        simp only [WakeupCore.work, WakeupPc.early, WakeupPc.late] at *
        omega
    · rw [Function.update_of_ne same, if_neg same]
      exact Nat.le_refl _
  by_cases ack : (regs.barrierSync j).2 = true
  · rw [if_pos ack]
    have waits := (ack_iff point inv hstatus).mp ack k
    have drops := work_acknowledge clusters numY (ok_arrivedAt inv pc k) waits
    omega
  · rw [if_neg ack]
    exact arrives

/-- Every access leaves less to do. -/
theorem access_work (inv : WakeupInv rounds s) (ran : s.exec rounds c j = some s') :
    s'.work rounds < s.work rounds := by
  have ok := (inv.intra c).ok j
  rcases me : s.core c j with ⟨pc, calls⟩
  rw [me] at ok
  have pos : (⟨pc, calls⟩ : WakeupCore).pc.inCall = true →
      20 + Fintype.card M.Clusters ≤ (rounds - calls) * (20 + Fintype.card M.Clusters) :=
    fun inCall => work_pos _ (ok.running inCall)
  have keeps : ∀ {s'' : Wakeup M}, s''.inFlight = s.inFlight →
      ∑ d, (s''.inFlight d).length ≤ ∑ d, (s.inFlight d).length + 0 := fun same => by rw [same]; rfl
  have result := ran
  rw [Wakeup.exec, me] at result
  cases pc with
  | initY =>
    obtain rfl := Option.some.inj result
    refine work_put rfl ?_ (keeps rfl)
    simp only [me, WakeupCore.work, WakeupPc.early, WakeupPc.late]
    omega
  | initX i =>
    dsimp only at result
    split at result
    · obtain rfl := Option.some.inj result
      refine work_put rfl ?_ (keeps rfl)
      simp only [me, WakeupCore.work, WakeupPc.early, WakeupPc.late]
      omega
    · obtain rfl := Option.some.inj result
      refine work_put rfl ?_ (keeps rfl)
      simp only [me, WakeupCore.work, WakeupPc.early, WakeupPc.late]
      omega
  | amoX | amoY =>
    have bound := pos rfl
    obtain rfl := Option.some.inj result
    refine work_put rfl ?_ (keeps rfl)
    simp only [me, WakeupCore.work]
    split <;> simp only [WakeupPc.early, WakeupPc.late] <;> omega
  | resetX | resetY =>
    have bound := pos rfl
    obtain rfl := Option.some.inj result
    refine work_put rfl ?_ (keeps rfl)
    simp only [me, WakeupCore.work, WakeupPc.early, WakeupPc.late]
    omega
  | wakeup stage =>
    obtain rfl := Option.some.inj result
    refine work_put (e := Fintype.card M.Clusters) rfl ?_ ?_
    · cases stage with
      | init =>
        simp only [me, WakeupCore.work, WakeupPc.early, WakeupPc.late]
        omega
      | call =>
        have bound := pos rfl
        simp only [me, WakeupCore.work, WakeupPc.early, WakeupPc.late]
        omega
    · simp only [List.length_append, List.length_singleton, Finset.sum_add_distrib]
      rw [← Finset.card_eq_sum_ones, Finset.card_univ]
  | reg stage =>
    have drop : ∀ next, next = WakeupPc.regWait stage ∨ next = stage.after →
        (⟨next, calls⟩ : WakeupCore).work rounds (Fintype.card M.Clusters) M.numY + 0 <
          (s.core c j).work rounds (Fintype.card M.Clusters) M.numY := by
      intro next goes
      rw [me]
      cases stage with
      | init =>
        rcases goes with rfl | rfl <;>
          simp only [Stage.after, WakeupCore.work, WakeupPc.early, WakeupPc.late] <;> omega
      | call =>
        have bound := pos rfl
        rcases goes with rfl | rfl <;>
          simp only [Stage.after, WakeupCore.work, WakeupPc.early, WakeupPc.late] <;> omega
    dsimp only at result
    split at result
    · obtain rfl := Option.some.inj result
      exact work_put rfl (drop _ (Or.inl rfl)) (keeps rfl)
    · obtain rfl := Option.some.inj result
      exact work_put rfl (drop _ (Or.inr rfl)) (keeps rfl)
  | regWait | syncWait => cases result
  | out =>
    dsimp only at result
    split at result
    · rename_i more
      have bound := work_pos (Fintype.card M.Clusters) more
      obtain rfl := Option.some.inj result
      refine work_put rfl ?_ (keeps rfl)
      simp only [me, WakeupCore.work, WakeupPc.early, WakeupPc.late] at *
      omega
    · cases result
  | sync point =>
    obtain ⟨core, there, -, -, -, inFlight, -⟩ := exec_sync (by rw [me]) ran
    have less :=
      work_sync (Fintype.card M.Clusters) M.numY (inv.intra c) (by rw [me]) (s.regs c) rfl
    rw [← core] at less
    refine work_lt (j := j) (e := 0) there (fun k => ?_) ?_ (keeps inFlight)
    · exact (Nat.le_add_right _ _).trans (less k)
    · have mine := less j
      rw [if_pos rfl] at mine
      exact mine

/-- The arrival of a wakeup leaves less to do. -/
theorem deliver_work (inv : WakeupInv rounds s) {round : Nat} (mem : round ∈ s.inFlight c) :
    (s.deliver c round).work rounds < s.work rounds := by
  have flight : (s.deliver c round).inFlight =
      Function.update s.inFlight c ((s.inFlight c).erase round) := by
    unfold Wakeup.deliver
    dsimp only
    split <;> rfl
  have fewer : ∑ d, ((s.deliver c round).inFlight d).length < ∑ d, (s.inFlight d).length := by
    refine Finset.sum_lt_sum (fun d _ => ?_) ⟨c, Finset.mem_univ c, ?_⟩
    · rw [flight]
      by_cases same : d = c
      · rw [same, Function.update_self]
        exact List.length_erase_le
      · rw [Function.update_of_ne same]
    · have pos := List.length_pos_of_mem mem
      rw [flight, Function.update_self, List.length_erase_of_mem mem]
      omega
  have cores : ∀ p : M.Clusters × Fin M.nbCores,
      ((s.deliver c round).core p.1 p.2).work rounds (Fintype.card M.Clusters) M.numY ≤
        (s.core p.1 p.2).work rounds (Fintype.card M.Clusters) M.numY := by
    intro p
    unfold Wakeup.deliver
    dsimp only
    split
    · exact Nat.le_refl _
    · rename_i k _
      show (Function.update s.core c (Function.update (s.core c) k _) p.1 p.2).work _ _ _ ≤ _
      by_cases same : p.1 = c
      · rw [same, Function.update_self]
        by_cases here : p.2 = k
        · rw [here, Function.update_self]
          exact work_respond ((inv.intra c).ok k)
        · rw [Function.update_of_ne here]
      · rw [Function.update_of_ne same]
  have sum := Finset.sum_le_sum fun p (_ : p ∈ Finset.univ) => cores p
  unfold Wakeup.work
  omega

/-! ## Progress -/

/-- A core that is not blocked has a next access. -/
theorem exec_isSome (free : ¬ (s.core c j).Blocked rounds) (le : (s.core c j).calls ≤ rounds) :
    ∃ s', s.exec rounds c j = some s' := by
  rcases me : s.core c j with ⟨pc, calls⟩
  rw [me] at free le
  unfold Wakeup.exec
  rw [me]
  cases pc with
  | regWait stage => exact absurd (Or.inr (Or.inl ⟨stage, rfl⟩)) free
  | syncWait point => exact absurd (Or.inl rfl) free
  | out =>
    have more : calls < rounds := by
      refine Nat.lt_of_le_of_ne le fun last => free (Or.inr (Or.inr ?_))
      rw [← last]
    exact ⟨_, if_pos more⟩
  | initX i =>
    dsimp only
    split <;> exact ⟨_, rfl⟩
  | reg stage =>
    dsimp only
    split <;> exact ⟨_, rfl⟩
  | sync point =>
    dsimp only
    split <;> exact ⟨_, rfl⟩
  | _ => exact ⟨_, rfl⟩

/-- Until every core has returned from its last call, a wakeup is on its way or some core has a next
access. -/
theorem wakeup_progress (inv : WakeupInv rounds s) (unfinished : ¬ s.Final rounds) :
    (∃ c, s.inFlight c ≠ []) ∨ ∃ c j s', s.exec rounds c j = some s' := by
  by_contra stuck
  obtain ⟨noFlight, noAccess⟩ := not_or.mp stuck
  have empty : ∀ c, s.inFlight c = [] := fun c => by_contra fun some => noFlight ⟨c, some⟩
  have blocked : ∀ c j, (s.core c j).Blocked rounds := by
    intro c j
    by_contra free
    exact noAccess ⟨c, j, exec_isSome free ((inv.intra c).ok j).calls_le⟩
  have cluster := fun c => (inv.intra c).blocked (blocked c)
  -- the phase of a dm core that is blocked
  have phases : ∀ c, s.abs.phase c = .waiting ∧ (s.core c M.dmCore).pc.isRegWait = true ∨
      s.abs.phase c = .idle ∧ ∀ j, s.core c j = ⟨.out, rounds⟩ := by
    intro c
    have eq : s.abs.phase c = (s.core c M.dmCore).pc.phase := rfl
    rw [eq]
    rcases cluster c with ⟨stage, pc⟩ | done
    · rw [pc]
      exact Or.inl ⟨rfl, rfl⟩
    · refine Or.inr ⟨?_, done⟩
      rw [done]
      rfl
  rcases inv.abs.progress with ⟨c, holder⟩ | ⟨c, waits, late⟩ | ⟨c, idle, all⟩
  · rcases phases c with ⟨phase, -⟩ | ⟨phase, -⟩ <;> rw [phase] at holder <;>
      rcases holder with (eq | eq) | eq | eq <;> cases eq
  · -- its wakeup is neither on its way nor in the mutex bit
    have pending : (s.core c M.dmCore).pc.isRegWait = true := by
      rcases phases c with ⟨-, pending⟩ | ⟨phase, -⟩
      · exact pending
      · rw [waits] at phase
        cases phase
    have behind : (s.core c M.dmCore).noticed < s.broadcasts := late
    rcases (inv.slot c).slot with ⟨same, -⟩ | ⟨-, ⟨-, flight⟩ | ⟨mutex, -⟩⟩
    · omega
    · rw [empty c] at flight
      cases flight
    · rw [(inv.slot c).apart pending] at mutex
      cases mutex
  · have last : s.broadcasts = rounds + 1 := by
      rcases phases c with ⟨phase, -⟩ | ⟨-, done⟩
      · rw [idle] at phase
        cases phase
      · have here : (s.core c M.dmCore).noticed = s.broadcasts := all c
        rw [done] at here
        exact here.symm
    refine unfinished fun d => ?_
    rcases cluster d with ⟨stage, pc⟩ | done
    · -- it would wait in a call after the last
      have ok := (inv.intra d).ok M.dmCore
      have noticed : (s.core d M.dmCore).noticed = s.broadcasts := all d
      rcases me : s.core d M.dmCore with ⟨pc', calls⟩
      rw [me] at pc noticed ok
      obtain rfl : pc' = .regWait stage := pc
      cases stage with
      | init =>
        have zero : 0 = s.broadcasts := noticed
        omega
      | call =>
        have more : calls < rounds := ok.running rfl
        have next : calls + 1 = s.broadcasts := noticed
        omega
    · exact done

/-- Every state of a run can be completed. -/
theorem wakeup_completion (inv : WakeupInv rounds s) :
    ∃ s', Relation.ReflTransGen (Wakeup.Step rounds) s s' ∧ WakeupInv rounds s' ∧
      s'.Final rounds := by
  refine exists_run_to_goal (Wakeup.Final rounds) (Wakeup.work rounds) ?_ s inv
  intro s inv unfinished
  rcases wakeup_progress inv unfinished with ⟨c, flight⟩ | ⟨c, j, s', ran⟩
  · obtain ⟨round, mem⟩ := List.exists_mem_of_ne_nil _ flight
    exact ⟨_, .deliver mem, wakeupInv_deliver inv mem, deliver_work inv mem⟩
  · exact ⟨s', .exec ran, wakeupInv_step inv (.exec ran), access_work inv ran⟩

/-! ## Safety -/

theorem level_of_calls {isFirst isDm : Prop} (ok : CoreOk rounds isFirst isDm me)
    (some : 0 < me.calls) : 2 * me.calls + 1 ≤ me.level := by
  have started : me.level ≠ 0 := fun zero => Nat.ne_of_gt some (ok.starting zero)
  obtain ⟨pc, calls⟩ := me
  cases pc with
  | wakeup stage | reg stage | regWait stage =>
    cases stage with
    | init => exact absurd rfl started
    | call => exact Nat.le_succ _
  | sync point | syncWait point =>
    cases point with
    | init => exact absurd rfl started
    | entry => exact Nat.le_refl _
    | exit => exact Nat.le_succ _
  | initY | initX => exact absurd rfl started
  | out => exact Nat.le_refl _
  | amoX | resetX | amoY | resetY => exact Nat.le_succ _

/-- The noticed wakeups of a dm core from the synchronisation points it has passed, and back. -/
theorem level_le_noticed (me : WakeupCore) : me.level ≤ 2 * me.noticed ∧
    2 * (me.noticed + if me.pc.phase = .idle then 0 else 1) ≤ me.level + 2 := by
  obtain ⟨pc, calls⟩ := me
  cases pc with
  | wakeup stage | reg stage | regWait stage =>
    cases stage <;> grind [WakeupCore.level, WakeupCore.noticed, WakeupPc.phase]
  | sync point | syncWait point =>
    cases point <;> grind [WakeupCore.level, WakeupCore.noticed, WakeupPc.phase]
  | _ => grind [WakeupCore.level, WakeupCore.noticed, WakeupPc.phase]

theorem level_le_entered (me : WakeupCore) :
    me.level ≤ 2 * (me.calls + if me.pc.inCall then 1 else 0) + 1 := by
  obtain ⟨pc, calls⟩ := me
  cases pc with
  | wakeup stage | reg stage | regWait stage =>
    cases stage <;> grind [WakeupCore.level, WakeupPc.inCall]
  | sync point | syncWait point => cases point <;> grind [WakeupCore.level, WakeupPc.inCall]
  | _ => grind [WakeupCore.level, WakeupPc.inCall]

/-- The dm core of a cluster has noticed the wakeup of every call that a core of it returned
from. -/
theorem WakeupInv.calls_lt_noticed (inv : WakeupInv rounds s) (c : M.Clusters) (j : Fin M.nbCores)
    (some : 0 < (s.core c j).calls) : (s.core c j).calls < (s.core c M.dmCore).noticed := by
  have returned := level_of_calls ((inv.intra c).ok j) some
  rw [(inv.intra c).level j M.dmCore] at returned
  have bound := (level_le_noticed (s.core c M.dmCore)).1
  omega

/-- A cluster that waits or has noticed a wakeup has all its cores in the call. -/
theorem WakeupInv.le_entered (inv : WakeupInv rounds s) (d : M.Clusters) (k : Fin M.nbCores) :
    (s.core d M.dmCore).noticed + (if s.abs.phase d = .idle then 0 else 1) ≤ s.entered d k + 1 := by
  have dm := (level_le_noticed (s.core d M.dmCore)).2
  have core := level_le_entered (s.core d k)
  rw [(inv.intra d).level M.dmCore k] at dm
  have phase : s.abs.phase d = (s.core d M.dmCore).pc.phase := rfl
  rw [phase]
  unfold Wakeup.entered
  omega

/-- No core has returned from a call that another one has not entered. -/
theorem WakeupInv.calls_le_entered (inv : WakeupInv rounds s) (c d : M.Clusters)
    (j k : Fin M.nbCores) : (s.core c j).calls ≤ s.entered d k := by
  rcases Nat.eq_zero_or_pos (s.core c j).calls with none | some
  · omega
  · have returned := inv.calls_lt_noticed c j some
    have round : (s.core c M.dmCore).noticed ≤ (s.core d M.dmCore).noticed +
        if s.abs.phase d = .idle then 0 else 1 := inv.abs.done_le c d
    have entered := inv.le_entered d k
    omega

/-- The wakeups of a cluster so far: consumed, kept in the mutex bit, or on their way. -/
theorem SlotInv.all {dm : WakeupCore} {regs : ClusterRegisters M} {inFlight consumed : List Nat}
    {broadcasts : Nat} (slot : SlotInv dm regs inFlight consumed broadcasts) :
    consumed ++ regs.globalBarrierMutex.toList ++ inFlight = List.range broadcasts := by
  rw [slot.consumed]
  rcases slot.slot with ⟨here, mutex, flight⟩ | ⟨late, ⟨mutex, flight⟩ | ⟨mutex, flight⟩⟩
  · rw [mutex, flight, here]
    simp
  · rw [mutex, flight, ← late, List.range_succ]
    simp
  · rw [mutex, flight, ← late, List.range_succ]
    simp

/-- When every core has returned from its last call the counters are clear. -/
theorem WakeupInv.counters (inv : WakeupInv rounds s) (final : s.Final rounds) :
    (∀ y, s.barrierX y = 0) ∧ s.barrierY = 0 := by
  have idle : ∀ c, s.abs.phase c = .idle := by
    intro c
    show (s.core c M.dmCore).pc.phase = .idle
    rw [final c M.dmCore]
    rfl
  have new : ∀ c, ¬ s.abs.Arrived c := fun c arrived => arrived.2 (idle c)
  have used : s.broadcasts ≠ 0 := by
    refine inv.broadcasts_pos (c := M.first) ?_
    rw [final M.first M.dmCore]
    exact Nat.succ_pos _
  have row : ∀ y, s.abs.row y = (s.barrierX y).toNat := fun y => if_neg used
  have col : s.abs.col = s.barrierY.toNat := if_neg used
  refine ⟨fun y => ?_, ?_⟩
  · have zero := (inv.abs.rows y).filling M.first.1 (new _)
    rw [tally_of_none fun x => new (x, y), row] at zero
    exact BitVec.eq_of_toNat_eq zero
  · have away : ∀ y, ¬ s.abs.Passed y := fun y passed => new _ (passed M.first.1).1
    have zero := inv.abs.cols.filling M.first.2 (away _)
    rw [tally_of_none away, col] at zero
    exact BitVec.eq_of_toNat_eq zero

end

/-- In every run: no core returns from its n-th call before every core of every cluster has entered
its n-th call; each dm core consumes the wakeups in order, one in each of its waits, and every other
one that was broadcast is in the mutex bit or on its way; until the end some core has a next access
or some wakeup is on its way, so that every run can be completed, with the counters clear. -/
theorem wakeup_barrier (M : Machine) (rounds : Nat) (barrierX : Fin M.numY → BitVec 32)
    (barrierY : BitVec 32) (s : Wakeup M) (run : Wakeup.Run rounds barrierX barrierY s) :
    (∀ c j d k, (s.core c j).calls ≤ s.entered d k) ∧
      (∀ c, s.consumed c = List.range (s.core c M.dmCore).noticed ∧
        s.consumed c ++ (s.regs c).globalBarrierMutex.toList ++ s.inFlight c =
          List.range s.broadcasts) ∧
      (¬ s.Final rounds → (∃ c, s.inFlight c ≠ []) ∨ ∃ c j s', s.exec rounds c j = some s') ∧
      (s.Final rounds → (∀ y, s.barrierX y = 0) ∧ s.barrierY = 0) ∧
      ∃ s', Relation.ReflTransGen (Wakeup.Step rounds) s s' ∧ s'.Final rounds := by
  have inv : WakeupInv rounds s :=
    invariant_of_run (WakeupInv rounds) (fun _ _ inv step => wakeupInv_step inv step)
      (wakeupInv_init barrierX barrierY) run
  refine ⟨fun c j d k => ?_, fun c => ⟨(inv.slot c).consumed, (inv.slot c).all⟩,
    wakeup_progress inv, inv.counters, ?_⟩
  · exact inv.calls_le_entered c d j k
  · obtain ⟨s', rest, -, final⟩ := wakeup_completion inv
    exact ⟨s', rest, final⟩

/-- The counters hold rubbish. -/
def pairMachineStart : Wakeup pairMachine := Wakeup.init (fun _ => 7) 9

/-- Every core has had 14 turns, and every wakeup as many to arrive. -/
def pairMachineLater : Wakeup pairMachine :=
  tryEach (Wakeup.next 3) pairMachineStart (List.replicate 14 pairMachine.turn).flatten

/-- The right cluster has returned from its first call, the left one is about to. -/
theorem wakeup_barrier_pairMachine :
    (pairMachineLater.core pairRight pairMachine.dmCore).calls = 1 ∧
    (pairMachineLater.core pair.first pairMachine.dmCore).pc = .sync .exit ∧
    (∀ c j d k, (pairMachineLater.core c j).calls ≤ pairMachineLater.entered d k) ∧
      (∀ c, pairMachineLater.consumed c =
          List.range (pairMachineLater.core c pairMachine.dmCore).noticed ∧
        pairMachineLater.consumed c ++ (pairMachineLater.regs c).globalBarrierMutex.toList ++
          pairMachineLater.inFlight c = List.range pairMachineLater.broadcasts) ∧
      (¬ pairMachineLater.Final 3 → (∃ c, pairMachineLater.inFlight c ≠ []) ∨
        ∃ c j s', pairMachineLater.exec 3 c j = some s') ∧
      (pairMachineLater.Final 3 →
        (∀ y, pairMachineLater.barrierX y = 0) ∧ pairMachineLater.barrierY = 0) ∧
      ∃ s', Relation.ReflTransGen (Wakeup.Step 3) pairMachineLater s' ∧ s'.Final 3 :=
  ⟨by decide +kernel, by decide +kernel,
    wakeup_barrier pairMachine 3 (fun _ => 7) 9 pairMachineLater (run_tryEach Wakeup.next_step _ _)⟩

end SoftHier.Barrier
