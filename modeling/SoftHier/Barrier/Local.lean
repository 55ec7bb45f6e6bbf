import SoftHier.Barrier.WakeupProgress

/-!
# What an access depends on

An access of a core depends on its cluster and the words alone, so that it does the same in two
states, also of machines with different meshes, that agree there.

* `Local`: the part of a state that belongs to a cluster.
* `exec_frame`, `deliver_frame`: what an access changes.
* `exec_agree`, `exec_agree_local`, `deliver_agree`: what it depends on.
* `wakeupInv_fresh`, `wakeupInv_join`: a machine in which every cluster still waits for its first
  wakeup.
* `entered_exec`, `entered_deliver`: how a core enters a call.
-/

namespace SoftHier.Barrier

/-! ## The state of one cluster -/

/-- The cores and registers of a cluster, and its wakeups. -/
structure Local (n : Nat) where
  core : Fin n → WakeupCore
  barrierStatus : BitVec 32
  globalBarrierQuery : Option (Fin n)
  globalBarrierMutex : Option Nat
  inFlight : List Nat
  consumed : List Nat

/-- What belongs to cluster `c`. -/
def Wakeup.at {M : Machine} (s : Wakeup M) (c : M.Clusters) : Local M.nbCores :=
  ⟨s.core c, (s.regs c).barrierStatus, (s.regs c).globalBarrierQuery, (s.regs c).globalBarrierMutex,
    s.inFlight c, s.consumed c⟩

/-- A state from its clusters. -/
def Wakeup.ofLocal {M : Machine} (clusters : M.Clusters → Local M.nbCores)
    (barrierX : Fin M.numY → BitVec 32) (barrierY : BitVec 32) (broadcasts : Nat) : Wakeup M where
  core := fun c => (clusters c).core
  regs := fun c => ⟨(clusters c).barrierStatus, (clusters c).globalBarrierQuery,
    (clusters c).globalBarrierMutex⟩
  barrierX := barrierX
  barrierY := barrierY
  inFlight := fun c => (clusters c).inFlight
  broadcasts := broadcasts
  consumed := fun c => (clusters c).consumed

section

variable {M : Machine} {rounds : Nat} {s s' t : Wakeup M} {c d : M.Clusters} {j : Fin M.nbCores}
  {me : WakeupCore}

/-- A state is determined by its clusters, the words and the number of broadcasts. -/
theorem eq_of_at (clusters : ∀ d, s.at d = t.at d) (hx : s.barrierX = t.barrierX)
    (hy : s.barrierY = t.barrierY) (hbroadcasts : s.broadcasts = t.broadcasts) : s = t := by
  have split : ∀ u : Wakeup M, u = Wakeup.ofLocal u.at u.barrierX u.barrierY u.broadcasts :=
    fun _ => rfl
  rw [split s, split t, funext clusters, hx, hy, hbroadcasts]

theorem regs_of_at {l : Local M.nbCores} (eq : s.at c = l) :
    s.regs c = ⟨l.barrierStatus, l.globalBarrierQuery, l.globalBarrierMutex⟩ := by
  subst eq
  rfl

theorem at_put : (s.put c j me).at c = { s.at c with core := Function.update (s.core c) j me } := by
  simp only [Wakeup.at, Wakeup.put, Function.update_self]

theorem at_put_of_ne (other : d ≠ c) : (s.put c j me).at d = s.at d := by
  simp only [Wakeup.at, Wakeup.put, Function.update_of_ne other]

/-- The access broadcasts a wakeup. -/
def WakeupPc.isWakeup : WakeupPc → Bool
  | .wakeup _ => true
  | _ => false

/-- An access that broadcasts nothing leaves the other clusters alone. -/
theorem exec_frame (quiet : (s.core c j).pc.isWakeup = false) (ran : s.exec rounds c j = some s') :
    (∀ d, d ≠ c → s'.at d = s.at d) ∧ s'.broadcasts = s.broadcasts := by
  rw [Wakeup.exec] at ran
  cases pc : (s.core c j).pc with
  | initY | amoX | resetX | amoY | resetY =>
    rw [pc] at ran
    obtain rfl := Option.some.inj ran
    exact ⟨fun d other => at_put_of_ne other, rfl⟩
  | initX i =>
    rw [pc] at ran
    dsimp only at ran
    split at ran <;> obtain rfl := Option.some.inj ran <;>
      exact ⟨fun d other => at_put_of_ne other, rfl⟩
  | wakeup stage =>
    rw [pc] at quiet
    cases quiet
  | reg stage =>
    rw [pc] at ran
    dsimp only at ran
    split at ran <;> obtain rfl := Option.some.inj ran <;>
      refine ⟨fun d other => ?_, rfl⟩ <;>
      simp only [Wakeup.at, Wakeup.put, Function.update_of_ne other]
  | sync point =>
    rw [pc] at ran
    dsimp only at ran
    split at ran <;> obtain rfl := Option.some.inj ran <;>
      refine ⟨fun d other => ?_, rfl⟩ <;>
      simp only [Wakeup.at, Wakeup.put, Function.update_of_ne other]
  | out =>
    rw [pc] at ran
    dsimp only at ran
    split at ran
    · obtain rfl := Option.some.inj ran
      exact ⟨fun d other => at_put_of_ne other, rfl⟩
    · cases ran
  | regWait | syncWait =>
    rw [pc] at ran
    cases ran

/-- The access uses the registers of the cluster alone. -/
def WakeupPc.isLocal : WakeupPc → Bool
  | .reg _ | .regWait _ | .sync _ | .syncWait _ | .out => true
  | _ => false

end

/-! ## Accesses in machines with the same cores -/

/-- The same cores in another mesh of clusters. -/
abbrev Machine.onGrid (M : Machine) (G : Grid) : Machine :=
  ⟨G, M.nbCores, M.nbCores_pos, M.nbCores_le⟩

section

variable {M : Machine} {G : Grid} {rounds : Nat} {s s' : Wakeup M} {t : Wakeup (M.onGrid G)}
  {c : M.Clusters} {c' : (M.onGrid G).Clusters} {j : Fin M.nbCores}

/-- Clusters of the same state have the same registers. -/
theorem regs_of_same (same : t.at c' = s.at c) :
    ∃ (b : BitVec 32) (q : Option (Fin M.nbCores)) (m : Option Nat),
      s.regs c = ⟨b, q, m⟩ ∧ t.regs c' = ⟨b, q, m⟩ :=
  ⟨_, _, _, regs_of_at same.symm, rfl⟩

/-- An access to the registers does the same in any cluster of the same state, whatever the mesh,
and leaves the words alone. -/
theorem exec_agree_local (same : t.at c' = s.at c) (here : (s.core c j).pc.isLocal = true)
    (ran : s.exec rounds c j = some s') :
    (s'.barrierX = s.barrierX ∧ s'.barrierY = s.barrierY) ∧
      ∃ t', t.exec rounds c' j = some t' ∧ t'.at c' = s'.at c ∧
        t'.barrierX = t.barrierX ∧ t'.barrierY = t.barrierY := by
  have core : t.core c' = s.core c := congrArg Local.core same
  have inFlight : t.inFlight c' = s.inFlight c := congrArg Local.inFlight same
  have consumed : t.consumed c' = s.consumed c := congrArg Local.consumed same
  obtain ⟨b, q, m, left, right⟩ := regs_of_same same
  rw [Wakeup.exec] at ran
  rw [Wakeup.exec, core]
  cases pc : (s.core c j).pc with
  | out =>
    rw [pc] at ran
    dsimp only at ran ⊢
    split at ran
    · rename_i more
      obtain rfl := Option.some.inj ran
      refine ⟨⟨rfl, rfl⟩, _, if_pos more, ?_, rfl, rfl⟩
      rw [at_put, at_put, same, core]
    · cases ran
  | reg stage =>
    rw [pc] at ran
    rw [left] at ran
    rw [right]
    dsimp only
    cases q with
    | none =>
      cases m with
      | none =>
        obtain rfl := Option.some.inj ran
        refine ⟨⟨rfl, rfl⟩, _, rfl, ?_, rfl, rfl⟩
        simp only [Wakeup.at, Wakeup.put, Function.update_self, core, inFlight, consumed]
      | some round =>
        obtain rfl := Option.some.inj ran
        refine ⟨⟨rfl, rfl⟩, _, rfl, ?_, rfl, rfl⟩
        simp only [Wakeup.at, Wakeup.put, Function.update_self, core, inFlight, consumed]
    | some k =>
      obtain rfl := Option.some.inj ran
      refine ⟨⟨rfl, rfl⟩, _, rfl, ?_, rfl, rfl⟩
      simp only [Wakeup.at, Wakeup.put, Function.update_self, core, inFlight, consumed]
  | sync point =>
    rw [pc] at ran
    rw [left] at ran
    rw [right]
    dsimp only
    by_cases full : (b ||| 1#32 <<< j.val).toNat = 2 ^ M.nbCores - 1
    · simp only [ClusterRegisters.barrierSync, if_pos full, if_true] at ran ⊢
      obtain rfl := Option.some.inj ran
      refine ⟨⟨rfl, rfl⟩, _, rfl, ?_, rfl, rfl⟩
      simp only [Wakeup.at, Wakeup.put, Function.update_self, core, inFlight, consumed]
      rfl
    · simp only [ClusterRegisters.barrierSync, if_neg full, Bool.false_eq_true, if_false] at ran ⊢
      obtain rfl := Option.some.inj ran
      refine ⟨⟨rfl, rfl⟩, _, rfl, ?_, rfl, rfl⟩
      simp only [Wakeup.at, Wakeup.put, Function.update_self, core, inFlight, consumed]
  | regWait | syncWait =>
    rw [pc] at ran
    cases ran
  | _ =>
    rw [pc] at here
    cases here

/-- The arrival of a wakeup does the same in any cluster of the same state. -/
theorem deliver_agree (same : t.at c' = s.at c) (round : Nat) :
    (t.deliver c' round).at c' = (s.deliver c round).at c := by
  have core : t.core c' = s.core c := congrArg Local.core same
  have inFlight : t.inFlight c' = s.inFlight c := congrArg Local.inFlight same
  have consumed : t.consumed c' = s.consumed c := congrArg Local.consumed same
  obtain ⟨b, q, m, left, right⟩ := regs_of_same same
  unfold Wakeup.deliver
  cases q <;>
    simp only [left, right, ClusterRegisters.globalBarrierSync, Wakeup.at, Wakeup.put,
      Function.update_self, core, inFlight, consumed]

end

section

variable {M : Machine} {rounds : Nat} {s s' t : Wakeup M} {c d : M.Clusters} {j : Fin M.nbCores}
  {round : Nat}

/-- The arrival of a wakeup leaves the other clusters, the words and the broadcasts alone. -/
theorem deliver_frame (s : Wakeup M) (c : M.Clusters) (round : Nat) :
    (∀ d, d ≠ c → (s.deliver c round).at d = s.at d) ∧
      (s.deliver c round).barrierX = s.barrierX ∧ (s.deliver c round).barrierY = s.barrierY ∧
      (s.deliver c round).broadcasts = s.broadcasts := by
  unfold Wakeup.deliver
  dsimp only
  split
  · refine ⟨fun d other => ?_, rfl, rfl, rfl⟩
    simp only [Wakeup.at, Function.update_of_ne other]
  · refine ⟨fun d other => ?_, rfl, rfl, rfl⟩
    simp only [Wakeup.at, Wakeup.put, Function.update_of_ne other]

/-- An access depends on its cluster and the words alone. -/
theorem exec_agree (same : t.at c = s.at c) (hx : t.barrierX = s.barrierX)
    (hy : t.barrierY = s.barrierY) (quiet : (s.core c j).pc.isWakeup = false)
    (ran : s.exec rounds c j = some s') :
    ∃ t', t.exec rounds c j = some t' ∧ t'.at c = s'.at c ∧
      t'.barrierX = s'.barrierX ∧ t'.barrierY = s'.barrierY := by
  by_cases here : (s.core c j).pc.isLocal = true
  · obtain ⟨⟨keepX, keepY⟩, t', ran', at', hx', hy'⟩ :=
      exec_agree_local (G := M.toGrid) (t := t) same here ran
    exact ⟨t', ran', at', by rw [hx', hx, keepX], by rw [hy', hy, keepY]⟩
  have core : t.core c = s.core c := congrArg Local.core same
  rw [Wakeup.exec] at ran
  rw [Wakeup.exec, core, hx, hy]
  cases pc : (s.core c j).pc with
  | initY | amoX | resetX | amoY | resetY =>
    rw [pc] at ran
    obtain rfl := Option.some.inj ran
    refine ⟨_, rfl, ?_, ?_, ?_⟩
    · exact at_put.trans (Eq.trans (by rw [same, core]) at_put.symm)
    · first
        | rfl
        | exact hx
    · first
        | rfl
        | exact hy
  | initX i =>
    rw [pc] at ran
    dsimp only at ran ⊢
    split at ran
    · rename_i row
      obtain rfl := Option.some.inj ran
      refine ⟨_, dif_pos row, ?_, rfl, hy⟩
      exact at_put.trans (Eq.trans (by rw [same, core]) at_put.symm)
    · rename_i row
      obtain rfl := Option.some.inj ran
      refine ⟨_, dif_neg row, ?_, hx, hy⟩
      exact at_put.trans (Eq.trans (by rw [same, core]) at_put.symm)
  | wakeup stage =>
    rw [pc] at quiet
    cases quiet
  | _ =>
    rw [pc] at here
    exact absurd rfl here

end

/-! ## The first wakeup of a group -/

/-- A cluster that waits for its first wakeup. -/
def Local.fresh (M : Machine) : Local M.nbCores :=
  ⟨fun j => ⟨if j = M.dmCore then .reg .init else .sync .init, 0⟩, 0, none, none, [0], []⟩

/-- A cluster that has noticed it. -/
def Local.joined (M : Machine) : Local M.nbCores := ⟨fun _ => ⟨.out, 0⟩, 0, none, none, [], [0]⟩

section

variable {M : Machine} {rounds : Nat} {s s' : Wakeup M} {c : M.Clusters} {j : Fin M.nbCores}

/-- All clusters wait for the first wakeup, which is on its way. -/
theorem wakeupInv_fresh (M : Machine) (rounds : Nat) :
    WakeupInv rounds (Wakeup.ofLocal (fun _ => Local.fresh M) (fun _ => 0) 0 1) := by
  have dm : (Local.fresh M).core M.dmCore = ⟨.reg .init, 0⟩ := by
    simp [Local.fresh]
  have pc : ∀ j, (Local.fresh M).core j = ⟨.reg .init, 0⟩ ∧ j = M.dmCore ∨
      (Local.fresh M).core j = ⟨.sync .init, 0⟩ := by
    intro j
    rcases eq_or_ne j M.dmCore with rfl | other
    · exact Or.inl ⟨dm, rfl⟩
    · exact Or.inr (by simp [Local.fresh, other])
  refine ⟨?_, fun c => ⟨fun j => ?_, fun j k => ?_, fun j => ?_, fun i _ => BitVec.getLsbD_zero,
    ⟨M.dmCore, ?_⟩⟩, fun c => ?_, fun n cleared => ?_⟩
  · -- it is the state after the release of a closed barrier
    have lead : (TreeBarrier.closed M.first : TreeBarrier (Fin M.numX) (Fin M.numY)).phase M.first =
        .colDone := by
      simp [TreeBarrier.closed]
    have abs : (Wakeup.ofLocal (fun _ => Local.fresh M) (fun _ => 0) 0 1).abs =
        (TreeBarrier.closed M.first).release M.first := by
      have phase : (fun _ : M.Clusters => Phase.waiting) =
          Function.update (fun d => if d = M.first then Phase.colDone else .waiting) M.first
            .waiting := by
        funext d
        rcases eq_or_ne d M.first with rfl | other
        · rw [Function.update_self]
        · rw [Function.update_of_ne other, if_neg other]
      simp only [Wakeup.abs, Wakeup.ofLocal, dm, TreeBarrier.release, TreeBarrier.closed]
      rw [← phase]
      rfl
    rw [abs]
    exact TreeBarrier.inv_step (TreeBarrier.inv_closed _) (.release lead)
  · show CoreOk rounds _ _ ((Local.fresh M).core j)
    rcases pc j with ⟨eq, rfl⟩ | eq <;> rw [eq]
    · exact ⟨Nat.zero_le _, fun runs => absurd runs Bool.false_ne_true, fun _ => rfl,
        fun other => absurd rfl other, fun starts => absurd starts Bool.false_ne_true⟩
    · exact ⟨Nat.zero_le _, fun runs => absurd runs Bool.false_ne_true, fun _ => rfl, fun _ => rfl,
        fun starts => absurd starts Bool.false_ne_true⟩
  · show ((Local.fresh M).core j).level = ((Local.fresh M).core k).level
    rcases pc j with ⟨eq, -⟩ | eq <;> rcases pc k with ⟨eq', -⟩ | eq' <;> rw [eq, eq'] <;> rfl
  · show (0 : BitVec 32).getLsbD j = true ↔ ((Local.fresh M).core j).pc.isWaiting = true
    rcases pc j with ⟨eq, -⟩ | eq <;> rw [eq] <;> exact iff_of_false (by simp) Bool.false_ne_true
  · show ((Local.fresh M).core M.dmCore).pc.isWaiting = false
    rw [dm]
    rfl
  · show SlotInv ((Local.fresh M).core M.dmCore) ⟨0, none, none⟩ [0] [] 1
    rw [dm]
    exact ⟨rfl, Or.inr ⟨rfl, Or.inl ⟨rfl, rfl⟩⟩, rfl, fun _ => rfl⟩
  · have none : ((Local.fresh M).core M.dmCore).pc.cleared M.numY = none := by
      rw [dm]
      rfl
    cases none.symm.trans cleared

/-- A cluster that notices the first wakeup keeps the invariant. -/
theorem wakeupInv_join (inv : WakeupInv rounds s) (fresh : s.at c = Local.fresh M)
    (joined : s'.at c = Local.joined M) (others : ∀ d, d ≠ c → s'.at d = s.at d)
    (hx : s'.barrierX = s.barrierX) (hy : s'.barrierY = s.barrierY)
    (hbroadcasts : s'.broadcasts = s.broadcasts) : WakeupInv rounds s' := by
  have old : s.core c M.dmCore = ⟨.reg .init, 0⟩ := by
    have core : s.core c = (Local.fresh M).core := congrArg Local.core fresh
    rw [core]
    simp [Local.fresh]
  have core : s'.core c = fun _ => ⟨.out, 0⟩ := congrArg Local.core joined
  have regs : s'.regs c = ⟨0, none, none⟩ := regs_of_at joined
  have inFlight : s'.inFlight c = [] := congrArg Local.inFlight joined
  have consumed : s'.consumed c = [0] := congrArg Local.consumed joined
  have there : ∀ d, d ≠ c → s'.core d = s.core d :=
    fun d other => congrArg Local.core (others d other)
  -- one wakeup has been broadcast
  have one : s.broadcasts = 1 := by
    have slot := (inv.slot c).slot
    have flight : s.inFlight c = [0] := congrArg Local.inFlight fresh
    rw [old, flight] at slot
    rcases slot with ⟨-, -, empty⟩ | ⟨late, -⟩
    · cases empty
    · exact late.symm
  have abs : s'.abs = s.abs.wake c := by
    obtain ⟨row, col⟩ := abs_counters hx hy hbroadcasts
    have next : (s'.core c M.dmCore).noticed = (s.core c M.dmCore).noticed + 1 := by
      rw [core, old]
      rfl
    rw [abs_of_kept there, next, row, col, hbroadcasts, core]
    rfl
  have waits : s.abs.phase c = .waiting := by
    show (s.core c M.dmCore).pc.phase = .waiting
    rw [old]
    rfl
  have behind : s.abs.done c < s.abs.released := by
    show (s.core c M.dmCore).noticed < s.broadcasts
    rw [old, one]
    exact Nat.one_pos
  refine wakeupInv_local inv c (fun d other => ⟨there d other, ?_, ?_, ?_⟩) hbroadcasts ?_ ?_ ?_
    (cleared_of_same inv (Or.inr ?_) there hx hy)
  · exact regs_of_at (others d other)
  · exact congrArg Local.inFlight (others d other)
  · exact congrArg Local.consumed (others d other)
  · rw [abs]
    exact TreeBarrier.inv_step inv.abs (.wake waits behind)
  · rw [core, regs]
    exact ⟨fun j => ⟨Nat.zero_le _, nofun, fun _ => rfl, fun _ => rfl, nofun⟩, fun _ _ => rfl,
      fun j => iff_of_false (by simp) nofun, fun i _ => BitVec.getLsbD_zero, ⟨M.dmCore, rfl⟩⟩
  · rw [core, regs, inFlight, consumed, one]
    exact ⟨rfl, Or.inl ⟨rfl, rfl, rfl⟩, rfl, nofun⟩
  · rw [core]
    rfl

end

/-! ## Entering a call -/

section

variable {M : Machine} {rounds : Nat} {s s' : Wakeup M} {c : M.Clusters} {j : Fin M.nbCores}
  {me : WakeupCore} {pc : WakeupPc}

theorem entered_put (hcore : s'.core = (s.put c j { s.core c j with pc := pc }).core)
    (inCall : pc.inCall = true → (s.core c j).pc.inCall = true) (d : M.Clusters)
    (k : Fin M.nbCores) : s'.entered d k ≤ s.entered d k := by
  unfold Wakeup.entered
  rw [hcore]
  rcases eq_or_ne d c with rfl | other
  · rcases eq_or_ne k j with rfl | other
    · simp only [Wakeup.put, Function.update_self]
      split
      · rename_i entered
        rw [if_pos (inCall entered)]
      · exact Nat.le_add_right _ _
    · simp only [Wakeup.put, Function.update_self, Function.update_of_ne other, le_refl]
  · simp only [Wakeup.put, Function.update_of_ne other, le_refl]

/-- The acknowledge of the intra-cluster barrier enters no call. -/
theorem entered_acknowledge (me : WakeupCore) (isDm : Bool) :
    (me.acknowledge isDm).calls + (if (me.acknowledge isDm).pc.inCall then 1 else 0) ≤
      me.calls + if me.pc.inCall then 1 else 0 := by
  obtain ⟨pc, calls⟩ := me
  cases pc with
  | syncWait point => cases point <;> cases isDm <;> exact Nat.le_refl _
  | _ => exact Nat.le_refl _

/-- A core enters a call by its first access alone. -/
theorem entered_exec (ran : s.exec rounds c j = some s') (d : M.Clusters) (k : Fin M.nbCores) :
    s'.entered d k ≤ s.entered d k ∨ (d = c ∧ k = j ∧ (s.core c j).pc = .out) := by
  rw [Wakeup.exec] at ran
  cases pc : (s.core c j).pc with
  | initY | amoX | resetX | amoY | resetY =>
    rw [pc] at ran
    obtain rfl := Option.some.inj ran
    refine Or.inl (entered_put rfl ?_ d k)
    rw [pc]
    first | exact fun _ => rfl | exact fun runs => absurd runs Bool.false_ne_true
  | initX i =>
    rw [pc] at ran
    dsimp only at ran
    split at ran <;> obtain rfl := Option.some.inj ran <;>
      exact Or.inl (entered_put rfl (by rw [pc]; exact id) d k)
  | wakeup stage =>
    rw [pc] at ran
    obtain rfl := Option.some.inj ran
    exact Or.inl (entered_put rfl (by rw [pc]; cases stage <;> exact id) d k)
  | reg stage =>
    rw [pc] at ran
    dsimp only at ran
    split at ran <;> obtain rfl := Option.some.inj ran
    · exact Or.inl (entered_put rfl (by rw [pc]; cases stage <;> exact id) d k)
    · exact Or.inl (entered_put rfl (by rw [pc]; cases stage <;> exact id) d k)
  | sync point =>
    rw [pc] at ran
    dsimp only at ran
    have inCall : (WakeupPc.syncWait point).inCall = true → (s.core c j).pc.inCall = true := by
      rw [pc]
      cases point <;> exact id
    have arrived : ∀ s' : Wakeup M,
        s'.core = (s.put c j { s.core c j with pc := .syncWait point }).core →
          s'.entered d k ≤ s.entered d k := fun s' hcore => entered_put hcore inCall d k
    split at ran <;> obtain rfl := Option.some.inj ran
    · refine Or.inl
        (Nat.le_trans ?_ (arrived (s.put c j { s.core c j with pc := .syncWait point }) rfl))
      unfold Wakeup.entered
      rcases eq_or_ne d c with rfl | other
      · simp only [Function.update_self]
        exact entered_acknowledge _ _
      · simp only [Function.update_of_ne other, le_refl]
    · exact Or.inl (arrived _ rfl)
  | out =>
    rw [pc] at ran
    dsimp only at ran
    split at ran
    · obtain rfl := Option.some.inj ran
      by_cases here : d = c ∧ k = j
      · exact Or.inr ⟨here.1, here.2, rfl⟩
      · refine Or.inl (Nat.le_of_eq ?_)
        unfold Wakeup.entered
        rcases eq_or_ne d c with rfl | other
        · have other : k ≠ j := fun same => here ⟨rfl, same⟩
          simp only [Wakeup.put, Function.update_self, Function.update_of_ne other]
        · simp only [Wakeup.put, Function.update_of_ne other]
    · cases ran
  | regWait | syncWait =>
    rw [pc] at ran
    cases ran

/-- A response leaves a core in its call, or out of it. -/
theorem respond_cases (me : WakeupCore) : me.respond = me ∨
    ∃ stage, me.pc = .regWait stage ∧ me.respond = { me with pc := stage.after } := by
  obtain ⟨pc, calls⟩ := me
  cases pc with
  | regWait stage => exact Or.inr ⟨stage, rfl, rfl⟩
  | _ => exact Or.inl rfl

/-- The arrival of a wakeup changes a core that waits for it, if any. -/
theorem core_deliver (s : Wakeup M) (c : M.Clusters) (round : Nat) :
    (s.deliver c round).core = s.core ∨ ∃ j stage, (s.core c j).pc = .regWait stage ∧
      (s.deliver c round).core = (s.put c j { s.core c j with pc := stage.after }).core := by
  unfold Wakeup.deliver
  dsimp only
  split
  · exact Or.inl rfl
  · rename_i j _
    rcases respond_cases (s.core c j) with same | ⟨stage, pc, after⟩
    · refine Or.inl ?_
      rw [same]
      simp only [Wakeup.put, Function.update_eq_self]
    · refine Or.inr ⟨j, stage, pc, ?_⟩
      rw [after]
      rfl

theorem entered_deliver (s : Wakeup M) (c : M.Clusters) (round : Nat) (d : M.Clusters)
    (k : Fin M.nbCores) : (s.deliver c round).entered d k ≤ s.entered d k := by
  rcases core_deliver s c round with same | ⟨j, stage, pc, core⟩
  · unfold Wakeup.entered
    rw [same]
  · exact entered_put core (by rw [pc]; cases stage <;> exact id) d k

end

end SoftHier.Barrier
