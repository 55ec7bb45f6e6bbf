import SoftHier.Barrier.Model

/-!
# The barrier with wakeups

`flex_barrier_xy_init` and `flex_global_barrier_xy` as all cores of all clusters execute them, one
access at a time and in any order, with the cluster registers behind them.  In a cluster the cores
meet at the intra-cluster barrier; its dm core counts the clusters and, when it is not the last,
writes to the cluster register, where it blocks until the wakeup broadcast has arrived.

* `ClusterRegisters`: the registers, `barrierSync`, `req` and `globalBarrierSync` their operations.
* `Wakeup`: the state of the machine.
* `Wakeup.exec`: the next access of a core; `Wakeup.deliver`: a wakeup arrives at a cluster.

A wakeup carries the round of the core that broadcast it, which the hardware does not know; the
state also lists the wakeups the dm core of each cluster has consumed.
-/

namespace SoftHier.Barrier

/-- The mesh and `ARCH_NUM_CORE_PER_CLUSTER`. -/
structure Machine extends Grid where
  nbCores : Nat
  nbCores_pos : 0 < nbCores
  nbCores_le : nbCores ≤ 31

/-- The clusters of a machine. -/
abbrev Machine.Clusters (M : Machine) := Cluster M.toGrid

/-- Every core, and then every cluster. -/
def Machine.turn (M : Machine) : List (M.Clusters × Fin M.nbCores ⊕ M.Clusters) :=
  let clusters := List.finRange M.numX ×ˢ List.finRange M.numY
  (clusters ×ˢ List.finRange M.nbCores).map .inl ++ clusters.map .inr

/-- Two clusters in a row, of two cores each. -/
def pairMachine : Machine := ⟨pair, 2, Nat.two_pos, by decide⟩

/-- The core for which `flex_is_dm_core` holds. -/
def Machine.dmCore (M : Machine) : Fin M.nbCores :=
  ⟨M.nbCores - 1, Nat.sub_one_lt_of_lt M.nbCores_pos⟩

/-! ## The cluster registers -/

/-- The barrier registers of a cluster: the core whose write is pending in `global_barrier_query`,
and the round of the wakeup that set `global_barrier_mutex`. -/
structure ClusterRegisters (M : Machine) where
  barrierStatus : BitVec 32
  globalBarrierQuery : Option (Fin M.nbCores)
  globalBarrierMutex : Option Nat

/-- `IO_REQ_OK`, with the wakeup consumed, or `IO_REQ_PENDING`. -/
inductive IoReqStatus where
  | ok (consumed : Option Nat)
  | pending

namespace ClusterRegisters

variable {M : Machine}

/-- `ClusterRegisters::req`, a write of core `j` at offset 0. -/
def req (r : ClusterRegisters M) (j : Fin M.nbCores) : ClusterRegisters M × IoReqStatus :=
  match r.globalBarrierQuery with
  | none =>
      match r.globalBarrierMutex with
      | some round => ({ r with globalBarrierMutex := none }, .ok (some round))
      | none => ({ r with globalBarrierQuery := some j }, .pending)
  | some _ => (r, .ok none)

/-- `ClusterRegisters::global_barrier_sync`, with the core it responds to. -/
def globalBarrierSync (r : ClusterRegisters M) (round : Nat) :
    ClusterRegisters M × Option (Fin M.nbCores) :=
  match r.globalBarrierQuery with
  | none => ({ r with globalBarrierMutex := some round }, none)
  | some j => ({ r with globalBarrierMutex := none, globalBarrierQuery := none }, some j)

/-- `ClusterRegisters::barrier_sync`, and whether it acknowledges. -/
def barrierSync (r : ClusterRegisters M) (j : Fin M.nbCores) : ClusterRegisters M × Bool :=
  let status := r.barrierStatus ||| (1#32 <<< j.val)
  if status.toNat = 2 ^ M.nbCores - 1 then ({ r with barrierStatus := 0 }, true)
  else ({ r with barrierStatus := status }, false)

end ClusterRegisters

/-! ## The cores -/

/-- Where the runtime uses the cluster register. -/
inductive Stage where
  | init
  | call
  deriving DecidableEq, Repr

/-- The uses of `flex_intra_cluster_sync`. -/
inductive SyncPoint where
  | init
  | entry
  | exit
  deriving DecidableEq, Repr

/-- The next access of a core. -/
inductive WakeupPc where
  /-- `flex_barrier_xy_init` clears `barrier_y`. -/
  | initY
  /-- It clears `barrier_x` of row `i`, or leaves the loop. -/
  | initX (i : Nat)
  | amoX
  | resetX
  | amoY
  | resetY
  /-- `flex_wakeup_all_clusters` -/
  | wakeup (stage : Stage)
  /-- The write to the cluster register. -/
  | reg (stage : Stage)
  | regWait (stage : Stage)
  | sync (point : SyncPoint)
  | syncWait (point : SyncPoint)
  /-- Between two calls. -/
  | out
  deriving DecidableEq, Repr

/-- A core and the calls it has returned from. -/
structure WakeupCore where
  pc : WakeupPc
  calls : Nat
  deriving DecidableEq

/-- After the write to the cluster register. -/
def Stage.after : Stage → WakeupPc
  | .init => .sync .init
  | .call => .sync .exit

/-- The round of a wakeup that a core in this stage broadcasts. -/
def Stage.round (calls : Nat) : Stage → Nat
  | .init => 0
  | .call => calls + 1

/-- After the acknowledge of the intra-cluster barrier; only the dm core has work in the body. -/
def WakeupCore.resume (me : WakeupCore) (isDm : Bool) : SyncPoint → WakeupCore
  | .init => { me with pc := .out }
  | .entry => { me with pc := if isDm then .amoX else .sync .exit }
  | .exit => ⟨.out, me.calls + 1⟩

/-- What the acknowledge does to a core. -/
def WakeupCore.acknowledge (me : WakeupCore) (isDm : Bool) : WakeupCore :=
  match me.pc with
  | .syncWait point => me.resume isDm point
  | _ => me

/-- What the response to a write does to a core. -/
def WakeupCore.respond (me : WakeupCore) : WakeupCore :=
  match me.pc with
  | .regWait stage => { me with pc := stage.after }
  | _ => me

/-! ## The machine -/

/-- The cores, registers and synchronisation words, and the wakeups on their way to each cluster. -/
structure Wakeup (M : Machine) where
  core : M.Clusters → Fin M.nbCores → WakeupCore
  regs : M.Clusters → ClusterRegisters M
  barrierX : Fin M.numY → BitVec 32
  barrierY : BitVec 32
  inFlight : M.Clusters → List Nat
  broadcasts : Nat
  consumed : M.Clusters → List Nat

namespace Wakeup

variable {M : Machine}

/-- A core changes. -/
def put (s : Wakeup M) (c : M.Clusters) (j : Fin M.nbCores) (me : WakeupCore) : Wakeup M :=
  { s with core := Function.update s.core c (Function.update (s.core c) j me) }

/-- The next access of core `j` of `c`, unless it is blocked or has returned from its last call. -/
def exec (rounds : Nat) (s : Wakeup M) (c : M.Clusters) (j : Fin M.nbCores) : Option (Wakeup M) :=
  let me := s.core c j
  match me.pc with
  | .initY => some { s.put c j { me with pc := .initX 0 } with barrierY := 0 }
  | .initX i =>
      if row : i < M.numY then
        some { s.put c j { me with pc := .initX (i + 1) } with
          barrierX := Function.update s.barrierX ⟨i, row⟩ 0 }
      else some (s.put c j { me with pc := .wakeup .init })
  | .amoX =>
      let pc := if isLast M.numX (s.barrierX c.2) then .resetX else .reg .call
      some { s.put c j { me with pc := pc } with
        barrierX := Function.update s.barrierX c.2 (amoFetchAdd (s.barrierX c.2)) }
  | .resetX =>
      some { s.put c j { me with pc := .amoY } with barrierX := Function.update s.barrierX c.2 0 }
  | .amoY =>
      let pc := if isLast M.numY s.barrierY then .resetY else .reg .call
      some { s.put c j { me with pc := pc } with barrierY := amoFetchAdd s.barrierY }
  | .resetY => some { s.put c j { me with pc := .wakeup .call } with barrierY := 0 }
  | .wakeup stage =>
      some { s.put c j { me with pc := .reg stage } with
        inFlight := fun d => s.inFlight d ++ [stage.round me.calls]
        broadcasts := s.broadcasts + 1 }
  | .reg stage =>
      match (s.regs c).req j with
      | (regs, .pending) =>
          some { s.put c j { me with pc := .regWait stage } with
            regs := Function.update s.regs c regs }
      | (regs, .ok consumed) =>
          some { s.put c j { me with pc := stage.after } with
            regs := Function.update s.regs c regs
            consumed := Function.update s.consumed c (s.consumed c ++ consumed.toList) }
  | .regWait _ => none
  | .sync point =>
      let (regs, ack) := (s.regs c).barrierSync j
      let s' := { s.put c j { me with pc := .syncWait point } with
        regs := Function.update s.regs c regs }
      if ack then
        some { s' with
          core := Function.update s'.core c fun k =>
            (s'.core c k).acknowledge (decide (k = M.dmCore)) }
      else some s'
  | .syncWait _ => none
  | .out => if me.calls < rounds then some (s.put c j { me with pc := .sync .entry }) else none

/-- A wakeup arrives at `c`. -/
def deliver (s : Wakeup M) (c : M.Clusters) (round : Nat) : Wakeup M :=
  let s' := { s with
    inFlight := Function.update s.inFlight c ((s.inFlight c).erase round)
    regs := Function.update s.regs c ((s.regs c).globalBarrierSync round).1 }
  match ((s.regs c).globalBarrierSync round).2 with
  | none => s'
  | some j =>
      { s'.put c j (s.core c j).respond with
        consumed := Function.update s.consumed c (s.consumed c ++ [round]) }

/-- Some core makes its next access, or some wakeup arrives. -/
inductive Step (rounds : Nat) : Wakeup M → Wakeup M → Prop where
  | exec {s s' : Wakeup M} {c : M.Clusters} {j : Fin M.nbCores} :
      s.exec rounds c j = some s' → Step rounds s s'
  | deliver {s : Wakeup M} {c : M.Clusters} {round : Nat} :
      round ∈ s.inFlight c → Step rounds s (s.deliver c round)

/-- The next access of a core, or the arrival of the first wakeup on its way to a cluster. -/
def next (rounds : Nat) (s : Wakeup M) : M.Clusters × Fin M.nbCores ⊕ M.Clusters → Option (Wakeup M)
  | .inl (c, j) => s.exec rounds c j
  | .inr c => (s.inFlight c).head?.map (s.deliver c)

theorem next_step {rounds : Nat} (s : Wakeup M) (e : M.Clusters × Fin M.nbCores ⊕ M.Clusters)
    (t : Wakeup M) (moves : s.next rounds e = some t) : Step rounds s t := by
  cases e with
  | inl core => exact .exec moves
  | inr c =>
    obtain ⟨round, first, rfl⟩ := Option.map_eq_some_iff.mp moves
    exact .deliver (List.mem_of_mem_head? first)

/-- Every core calls `flex_barrier_xy_init`; the counters hold anything. -/
def init (barrierX : Fin M.numY → BitVec 32) (barrierY : BitVec 32) : Wakeup M where
  core := fun c j =>
    ⟨if j = M.dmCore then (if c = M.first then .initY else .reg .init) else .sync .init, 0⟩
  regs := fun _ => ⟨0, none, none⟩
  barrierX := barrierX
  barrierY := barrierY
  inFlight := fun _ => []
  broadcasts := 0
  consumed := fun _ => []

/-- The runs in which every core calls the barrier `rounds` times. -/
def Run (rounds : Nat) (barrierX : Fin M.numY → BitVec 32) (barrierY : BitVec 32) (s : Wakeup M) :
    Prop :=
  Relation.ReflTransGen (Step rounds) (init barrierX barrierY) s

/-- Every core has returned from its last call. -/
def Final (rounds : Nat) (s : Wakeup M) : Prop := ∀ c j, s.core c j = ⟨.out, rounds⟩

end Wakeup

/-- The core is inside a call. -/
def WakeupPc.inCall : WakeupPc → Bool
  | .initY | .initX _ | .wakeup .init | .reg .init | .regWait .init | .sync .init
  | .syncWait .init | .out => false
  | _ => true

/-- The calls a core has entered. -/
def Wakeup.entered {M : Machine} (s : Wakeup M) (c : M.Clusters) (j : Fin M.nbCores) : Nat :=
  (s.core c j).calls + if (s.core c j).pc.inCall then 1 else 0

end SoftHier.Barrier
