import SoftHier.Barrier.Wakeup
import SoftHier.Lib.Word
import SoftHier.Noc.Collective

/-!
# Group barriers

`grid_sync_group_init` divides the mesh into rectangular groups, and `grid_sync_group_barrier_xy`
is a barrier of the clusters of a group: the same code as the global barrier, with words of the
group and a wakeup whose masks select the group.

* `gridSyncGroupInit`: what a cluster computes about its group.
* `GroupWord.addr_apart`: the words of the groups and of the global barrier do not overlap.
* `GroupRun`: all clusters in `flex_barrier_xy_init`, `grid_sync_group_init`, the global barrier and
  then the barriers of their groups.
* `GroupRun.exec`, `GroupRun.Step`: the next access of a core, and the arrival of a wakeup.
-/

namespace SoftHier.Barrier

/-! ## What a cluster computes -/

/-- The fields of `GridSyncGroupInfo` that the barrier reads, with the numbers of the group.  The
synchronisation points are those of clusters `(syncXCluster, y)` and
`(syncXCluster, syncYCluster)`. -/
structure GridSyncGroupInfo where
  validGrid : Bool
  thisGridIdX : Nat
  thisGridIdY : Nat
  thisGridLeftMost : Nat
  thisGridRightMost : Nat
  thisGridTopMost : Nat
  thisGridBottomMost : Nat
  thisGridClusterNumX : Nat
  thisGridClusterNumY : Nat
  wakeupRowMask : Nat
  wakeupColMask : Nat
  syncXCluster : Nat
  syncYCluster : Nat
  deriving DecidableEq, Repr

/-- `is_power_of_two` of the runtime. -/
def isPowerOfTwo (value : Nat) : Bool := value &&& (value - 1) = 0

/-- `grid_sync_group_init` of the cluster at `(posX, posY)`, without its two stores; what it leaves
unset in an invalid grid is zero. -/
def gridSyncGroupInit (G : Grid) (gridXDim gridYDim posX posY : Nat) : GridSyncGroupInfo :=
  if gridXDim = 0 ∨ gridYDim = 0 then ⟨false, 0, 0, 0, 0, 0, 0, 0, 0, 0, 0, 0, 0⟩
  else if !(isPowerOfTwo gridXDim && isPowerOfTwo gridYDim) then
    ⟨false, 0, 0, 0, 0, 0, 0, 0, 0, 0, 0, 0, 0⟩
  else
    let idX := posX / gridXDim
    let idY := posY / gridYDim
    let leftMost := u32 (idX * gridXDim)
    let rightMost := sub32 (u32 (u32 (idX + 1) * gridXDim)) 1
    let rightMost := if rightMost ≥ G.numX then G.numX - 1 else rightMost
    let bottomMost := u32 (idY * gridYDim)
    let topMost := sub32 (u32 (u32 (idY + 1) * gridYDim)) 1
    let topMost := if topMost ≥ G.numY then G.numY - 1 else topMost
    { validGrid := true
      thisGridIdX := idX
      thisGridIdY := idY
      thisGridLeftMost := leftMost
      thisGridRightMost := rightMost
      thisGridTopMost := topMost
      thisGridBottomMost := bottomMost
      thisGridClusterNumX := sub32 (u32 (rightMost + 1)) leftMost
      thisGridClusterNumY := sub32 (u32 (topMost + 1)) bottomMost
      wakeupRowMask := u8 (2 ^ 32 - 1 - (gridXDim - 1))
      wakeupColMask := u8 (2 ^ 32 - 1 - (gridYDim - 1))
      syncXCluster := u32 (leftMost + rightMost) / 2
      syncYCluster := u32 (bottomMost + topMost) / 2 }

/-- A machine with sides of at most 256 clusters, and the dimensions of its groups. -/
structure GroupMachine extends Machine where
  numX_le : numX ≤ 256
  numY_le : numY ≤ 256
  gridXDim : Nat
  gridYDim : Nat
  gridXDim_pow : ∃ a < 32, gridXDim = 2 ^ a
  gridYDim_pow : ∃ a < 32, gridYDim = 2 ^ a

/-- Three clusters in a row, of two cores each, in groups of two: the second group has one
cluster. -/
def unevenMachine : GroupMachine where
  toMachine := { pairMachine with numX := 3, numX_pos := by decide, numX_lt := by decide }
  numX_le := by decide
  numY_le := by decide
  gridXDim := 2
  gridYDim := 1
  gridXDim_pow := ⟨1, by decide, rfl⟩
  gridYDim_pow := ⟨0, by decide, rfl⟩

/-- The cluster of the second group. -/
def unevenLast : unevenMachine.Clusters := (⟨2, by decide⟩, ⟨0, Nat.one_pos⟩)

namespace GroupMachine

variable (M : GroupMachine)

/-- What a cluster has computed. -/
def info (c : M.Clusters) : GridSyncGroupInfo :=
  gridSyncGroupInit M.toGrid M.gridXDim M.gridYDim c.1 c.2

/-- The core that resets the words of its cluster. -/
def core0 : Fin M.nbCores := ⟨0, M.nbCores_pos⟩

/-- The clusters are of the same group. -/
def SameGroup (c d : M.Clusters) : Prop :=
  (M.info c).thisGridIdX = (M.info d).thisGridIdX ∧ (M.info c).thisGridIdY = (M.info d).thisGridIdY

instance (c d : M.Clusters) : Decidable (M.SameGroup c d) := inferInstanceAs (Decidable (_ ∧ _))

/-- A wakeup of `c` is delivered to `d`. -/
def Selects (c d : M.Clusters) : Prop :=
  Noc.checkTarget d.1 d.2 c.1 c.2 (M.info c).wakeupRowMask (M.info c).wakeupColMask = true

instance (c d : M.Clusters) : Decidable (M.Selects c d) := inferInstanceAs (Decidable (_ = true))

end GroupMachine

/-! ## Where the words are -/

/-- The words of the global barrier, and those of the two levels in the memory of each cluster. -/
inductive GroupWord (G : Grid) where
  | global (w : SyncWord G)
  | level1 (c : Cluster G)
  | level2 (c : Cluster G)

/-- The cluster whose memory holds the word. -/
def GroupWord.home {G : Grid} : GroupWord G → Nat
  | .global (.barrierX y) => clusterIndex G (G.numX / 2) y
  | .global (.barrierIx y) => clusterIndex G (G.numX / 2) y
  | .global .barrierY => clusterIndex G (G.numX / 2) (G.numY / 2)
  | .global .barrierIy => clusterIndex G (G.numX / 2) (G.numY / 2)
  | .level1 c => clusterIndex G c.1 c.2
  | .level2 c => clusterIndex G c.1 c.2

/-- Its offset there. -/
def GroupWord.offset {G : Grid} : GroupWord G → Nat
  | .global (.barrierX _) => 8
  | .global (.barrierIx _) => 12
  | .global .barrierY => 16
  | .global .barrierIy => 20
  | .level1 _ => 24
  | .level2 _ => 32

/-- The address of a word, relative to `ARCH_SYNC_BASE`. -/
def GroupWord.addr {G : Grid} (syncSize : Nat) (w : GroupWord G) : Nat :=
  w.home * syncSize + w.offset

section

variable {G : Grid} {syncSize : Nat} {v w : GroupWord G}

/-- The words of the global barrier are those of its own model. -/
theorem GroupWord.addr_global (w : SyncWord G) :
    (GroupWord.global w).addr syncSize = w.addr syncSize := by
  cases w <;> rfl

theorem clusterIndex_injective {x y x' y' : Nat} (x_lt : x < G.numX) (x'_lt : x' < G.numX)
    (same : clusterIndex G x y = clusterIndex G x' y') : x = x' ∧ y = y' := by
  unfold clusterIndex at same
  have column : x = x' := by
    have columns := congrArg (· % G.numX) same
    simpa only [Nat.mul_comm _ G.numX, Nat.mul_add_mod, Nat.mod_eq_of_lt x_lt,
      Nat.mod_eq_of_lt x'_lt] using columns
  subst column
  exact ⟨rfl, Nat.eq_of_mul_eq_mul_right G.numX_pos (Nat.add_right_cancel same)⟩

/-- Two words of the same offset in the same memory are the same word. -/
theorem GroupWord.eq_of_place (home : v.home = w.home) (offset : v.offset = w.offset) : v = w := by
  have middle : G.numX / 2 < G.numX := Nat.div_lt_self G.numX_pos (by decide)
  have column : ∀ c d : Cluster G, clusterIndex G c.1 c.2 = clusterIndex G d.1 d.2 → c = d := by
    intro c d same
    obtain ⟨x, y⟩ := clusterIndex_injective c.1.isLt d.1.isLt same
    exact Prod.ext (Fin.ext x) (Fin.ext y)
  have row : ∀ y y' : Fin G.numY, clusterIndex G (G.numX / 2) y = clusterIndex G (G.numX / 2) y' →
      y = y' := fun y y' same => Fin.ext (clusterIndex_injective middle middle same).2
  cases v with
  | global v =>
    cases w with
    | global w =>
      cases v <;> cases w <;> first
        | rfl
        | exact congrArg (fun y => GroupWord.global (SyncWord.barrierX y)) (row _ _ home)
        | exact congrArg (fun y => GroupWord.global (SyncWord.barrierIx y)) (row _ _ home)
        | cases offset
    | level1 | level2 => cases v <;> cases offset
  | level1 c =>
    cases w with
    | global w => cases w <;> cases offset
    | level1 d => rw [column c d home]
    | level2 => cases offset
  | level2 c =>
    cases w with
    | global w => cases w <;> cases offset
    | level1 => cases offset
    | level2 d => rw [column c d home]

/-- Words in different memories, or apart in one, do not overlap. -/
theorem place_apart (syncSize : Nat) {a b i j : Nat} (inside : i + 4 ≤ syncSize)
    (inside' : j + 4 ≤ syncSize) (differ : a ≠ b ∨ i + 4 ≤ j ∨ j + 4 ≤ i) :
    a * syncSize + i + 4 ≤ b * syncSize + j ∨ b * syncSize + j + 4 ≤ a * syncSize + i := by
  have apart : ∀ {a b : Nat}, a < b → a * syncSize + syncSize ≤ b * syncSize := by
    intro a b less
    have next := Nat.mul_le_mul_right syncSize less
    rwa [Nat.succ_mul] at next
  rcases Nat.lt_trichotomy a b with before | rfl | after
  · have step := apart before
    omega
  · omega
  · have step := apart after
    omega

/-- Different words do not overlap. -/
theorem GroupWord.addr_apart (large : 36 ≤ syncSize) (differ : v ≠ w) :
    v.addr syncSize + 4 ≤ w.addr syncSize ∨ w.addr syncSize + 4 ≤ v.addr syncSize := by
  have low : ∀ u : GroupWord G, u.offset + 4 ≤ 36 ∧ 4 ∣ u.offset := by
    intro u
    cases u with
    | global u => cases u <;> simp [GroupWord.offset]
    | level1 | level2 => simp [GroupWord.offset]
  obtain ⟨lowV, alignedV⟩ := low v
  obtain ⟨lowW, alignedW⟩ := low w
  apply place_apart syncSize (by omega) (by omega)
  rcases Nat.lt_trichotomy v.offset w.offset with before | same | after
  · omega
  · exact Or.inl fun home => differ (GroupWord.eq_of_place home same)
  · omega

end

/-! ## The machine -/

/-- How far a cluster is. -/
inductive Part where
  /-- Before the return from the global barrier. -/
  | global
  /-- In the barriers of its group, or between them. -/
  | grid
  deriving DecidableEq, Repr

/-- The cores, registers, wakeups and words of the global barrier, and the words at offsets 24 and
32 of each cluster.  `resets` counts the stores of `grid_sync_group_init`, `groupBroadcasts` the
wakeups of a group.  From the return from the global barrier on, the calls and the consumed wakeups
of a cluster are those of its group, the wakeup of the global barrier first. -/
structure GroupRun (M : GroupMachine) extends Wakeup M.toMachine where
  part : M.Clusters → Part
  resets : Nat × Nat → Nat
  level1 : Nat × Nat → BitVec 32
  level2 : Nat × Nat → BitVec 32
  groupBroadcasts : Nat × Nat → Nat

namespace GroupRun

variable {M : GroupMachine}

/-- The next store of `grid_sync_group_init` by core 0 of a cluster. -/
def reset (s : GroupRun M) (c : M.Clusters) : GroupRun M :=
  let here := (c.1.val, c.2.val)
  if s.resets here = 0 then
    { s with
      level1 := Function.update s.level1 here 0
      resets := Function.update s.resets here 1 }
  else
    { s with
      level2 := Function.update s.level2 here 0
      resets := Function.update s.resets here 2 }

/-- The cores of a cluster go on to the barriers of their group once the global barrier has
returned. -/
def leave (s : GroupRun M) (c : M.Clusters) : GroupRun M :=
  if ∀ j, s.core c j = ⟨.out, 1⟩ then
    { s with
      part := Function.update s.part c .grid
      core := Function.update s.core c fun _ => ⟨.out, 0⟩
      consumed := Function.update s.consumed c [0] }
  else s

/-- The next access of core `j` of `c` in `grid_sync_group_barrier_xy`; the cluster register and the
intra-cluster barrier are used as in the global barrier. -/
def execGrid (rounds : Nat) (s : GroupRun M) (c : M.Clusters) (j : Fin M.nbCores) :
    Option (GroupRun M) :=
  let me := s.core c j
  let info := M.info c
  let xPoint := (info.syncXCluster, c.2.val)
  let yPoint := (info.syncXCluster, info.syncYCluster)
  match me.pc with
  | .amoX =>
      let pc := if isLast info.thisGridClusterNumX (s.level1 xPoint) then .resetX else .reg .call
      some { s with
        toWakeup := s.put c j { me with pc := pc }
        level1 := Function.update s.level1 xPoint (amoFetchAdd (s.level1 xPoint)) }
  | .resetX =>
      some { s with
        toWakeup := s.put c j { me with pc := .amoY }
        level1 := Function.update s.level1 xPoint 0 }
  | .amoY =>
      let pc := if isLast info.thisGridClusterNumY (s.level2 yPoint) then .resetY else .reg .call
      some { s with
        toWakeup := s.put c j { me with pc := pc }
        level2 := Function.update s.level2 yPoint (amoFetchAdd (s.level2 yPoint)) }
  | .resetY =>
      some { s with
        toWakeup := s.put c j { me with pc := .wakeup .call }
        level2 := Function.update s.level2 yPoint 0 }
  | .wakeup stage =>
      let group := (info.thisGridIdX, info.thisGridIdY)
      some { s with
        toWakeup := { s.put c j { me with pc := .reg stage } with
          inFlight := fun d =>
            if M.Selects c d then s.inFlight d ++ [stage.round me.calls] else s.inFlight d }
        groupBroadcasts :=
          Function.update s.groupBroadcasts group (s.groupBroadcasts group + 1) }
  | _ => (s.toWakeup.exec rounds c j).map fun w => { s with toWakeup := w }

/-- The next access of core `j` of `c`. -/
def exec (rounds : Nat) (s : GroupRun M) (c : M.Clusters) (j : Fin M.nbCores) :
    Option (GroupRun M) :=
  match s.part c with
  | .global =>
      if (s.core c j).pc = .out ∧ j = M.core0 ∧
        s.resets (c.1.val, c.2.val) < 2 then some (s.reset c)
      else (s.toWakeup.exec 1 c j).map fun w => { s with toWakeup := w }.leave c
  | .grid => s.execGrid rounds c j

/-- Some core makes its next access, or some wakeup arrives. -/
inductive Step (rounds : Nat) : GroupRun M → GroupRun M → Prop where
  | exec {s s' : GroupRun M} {c : M.Clusters} {j : Fin M.nbCores} :
      s.exec rounds c j = some s' → Step rounds s s'
  | deliver {s : GroupRun M} {c : M.Clusters} {round : Nat} :
      round ∈ s.inFlight c → Step rounds s { s with toWakeup := s.toWakeup.deliver c round }

/-- The next access of a core, or the arrival of the first wakeup on its way to a cluster. -/
def next (rounds : Nat) (s : GroupRun M) :
    M.Clusters × Fin M.nbCores ⊕ M.Clusters → Option (GroupRun M)
  | .inl (c, j) => s.exec rounds c j
  | .inr c => (s.inFlight c).head?.map fun round =>
      { s with toWakeup := s.toWakeup.deliver c round }

theorem next_step {rounds : Nat} (s : GroupRun M) (e : M.Clusters × Fin M.nbCores ⊕ M.Clusters)
    (t : GroupRun M) (moves : s.next rounds e = some t) : Step rounds s t := by
  cases e with
  | inl core => exact .exec moves
  | inr c =>
    obtain ⟨round, first, rfl⟩ := Option.map_eq_some_iff.mp moves
    exact .deliver (List.mem_of_mem_head? first)

/-- Every core calls `flex_barrier_xy_init`; the words hold anything. -/
def init (barrierX : Fin M.numY → BitVec 32) (barrierY : BitVec 32)
    (level1 level2 : Nat × Nat → BitVec 32) : GroupRun M where
  toWakeup := Wakeup.init barrierX barrierY
  part := fun _ => .global
  resets := fun _ => 0
  level1 := level1
  level2 := level2
  groupBroadcasts := fun _ => 0

/-- The runs in which every core calls the barrier of its group `rounds` times. -/
def Run (rounds : Nat) (barrierX : Fin M.numY → BitVec 32) (barrierY : BitVec 32)
    (level1 level2 : Nat × Nat → BitVec 32) (s : GroupRun M) : Prop :=
  Relation.ReflTransGen (Step rounds) (init barrierX barrierY level1 level2) s

/-- The calls of the barrier of its group a core has returned from. -/
def groupCalls (s : GroupRun M) (c : M.Clusters) (j : Fin M.nbCores) : Nat :=
  match s.part c with
  | .global => 0
  | .grid => (s.core c j).calls

/-- Those it has entered. -/
def groupEntered (s : GroupRun M) (c : M.Clusters) (j : Fin M.nbCores) : Nat :=
  match s.part c with
  | .global => 0
  | .grid => s.entered c j

/-- A cluster whose cores have all returned from their last call. -/
def Done (rounds : Nat) (s : GroupRun M) (c : M.Clusters) : Prop :=
  s.part c = .grid ∧ ∀ j, s.core c j = ⟨.out, rounds⟩

end GroupRun

end SoftHier.Barrier
