import SoftHier.Lib.Shares
import SoftHier.Mem.Hbm

/-!
# The wiring of the HBM

The generator binds each edge node to an input of a controller and each output of a controller to a
channel of the edge.  The numbers of controllers and of outputs come from integer divisions.

* `Arch.nodeWire`, `Arch.chanWire`: the bindings, `none` where the generator raises an exception.
* `Arch.Wired`: what the wiring is for.
* `wired_iff`: the architectures that pass the assertions and are wired so.
-/

namespace SoftHier.Mem

namespace Arch

variable (A : Arch)

/-- `ctrl_chan_west` and so on. -/
def ctrlChan (e : Edge) : Nat := A.hbmChanPlacement e / A.numHbmCtrl e

/-- The controller and the input an edge node is bound to; the base address of the node is computed
in the same pass, with a division by `hbm_node_aliase`. -/
def nodeWire (e : Edge) (nodeId : Nat) : Option (Nat × Nat) :=
  if A.numNodePerCtrl = 0 ∨ A.hbmNodeAliase = 0 then none
  else if nodeId / A.numNodePerCtrl < A.numHbmCtrl e then
    some (nodeId / A.numNodePerCtrl, nodeId % A.numNodePerCtrl)
  else none

/-- The controller and the output a channel is bound to. -/
def chanWire (e : Edge) (chanId : Nat) : Option (Nat × Nat) :=
  if A.ctrlChan e = 0 then none
  else if chanId / A.ctrlChan e < A.numHbmCtrl e then
    some (chanId / A.ctrlChan e, chanId % A.ctrlChan e)
  else none

/-- The channels bound to a controller. -/
def chansOf (e : Edge) (ctrl : Nat) : List Nat :=
  (List.range (A.hbmChanPlacement e)).filter fun chanId =>
    (A.chanWire e chanId).map Prod.fst = some ctrl

/-- Every node and every channel is bound to an existing controller, the channels to different
outputs; the controllers of an edge with channels have the same number of them; and aliases of one
node share their controller. -/
structure Wired : Prop where
  node : ∀ e, ∀ nodeId < A.numNodes e, ∃ ctrl input, A.nodeWire e nodeId = some (ctrl, input) ∧
    ctrl < A.numHbmCtrl e ∧ input < A.numNodePerCtrl
  chan : ∀ e, ∀ chanId < A.hbmChanPlacement e, ∃ ctrl output,
    A.chanWire e chanId = some (ctrl, output) ∧ ctrl < A.numHbmCtrl e ∧ output < A.ctrlChan e
  once : ∀ e, ∀ chanId < A.hbmChanPlacement e, ∀ chanId' < A.hbmChanPlacement e,
    A.chanWire e chanId = A.chanWire e chanId' → chanId = chanId'
  same : ∀ e, A.hbmChanPlacement e ≠ 0 → ∀ ctrl < A.numHbmCtrl e, ∀ ctrl' < A.numHbmCtrl e,
    (A.chansOf e ctrl).length = (A.chansOf e ctrl').length
  group : ∀ e, ∀ nodeId < A.numNodes e, ∀ nodeId' < A.numNodes e,
    nodeId / A.hbmNodeAliase = nodeId' / A.hbmNodeAliase →
    (A.nodeWire e nodeId).map Prod.fst = (A.nodeWire e nodeId').map Prod.fst

/-- The alias factor is positive and divides the nodes of a controller, unless each edge has one
controller only, and the controllers of an edge divide its channels. -/
structure Divisible : Prop where
  alias_pos : 0 < A.hbmNodeAliase
  alias_dvd : A.numNodePerCtrl % A.hbmNodeAliase = 0 ∨ ∀ e, A.numNodes e = A.numNodePerCtrl
  chans : ∀ e, A.hbmChanPlacement e % A.numHbmCtrl e = 0

variable {A} {e : Edge} {nodeId nodeId' chanId ctrl : Nat}

/-! ## Nodes -/

theorem nodeWire_eq (asserted : A.Asserted) (pos : 0 < A.hbmNodeAliase)
    (node : nodeId < A.numNodes e) :
    A.nodeWire e nodeId = some (nodeId / A.numNodePerCtrl, nodeId % A.numNodePerCtrl) := by
  have ctrl : nodeId / A.numNodePerCtrl < A.numHbmCtrl e :=
    Nat.div_lt_div_of_lt_of_dvd (asserted.divides e) node
  have nodes := asserted.numNodePerCtrl_pos
  rw [nodeWire, if_neg (by omega), if_pos ctrl]

/-- The nodes of an alias group share a controller exactly when the factor divides the nodes of a
controller or there is only one. -/
theorem group_iff (asserted : A.Asserted) (pos : 0 < A.hbmNodeAliase) (e : Edge) :
    (∀ nodeId < A.numNodes e, ∀ nodeId' < A.numNodes e,
      nodeId / A.hbmNodeAliase = nodeId' / A.hbmNodeAliase →
      (A.nodeWire e nodeId).map Prod.fst = (A.nodeWire e nodeId').map Prod.fst) ↔
    A.numNodePerCtrl % A.hbmNodeAliase = 0 ∨ A.numNodes e = A.numNodePerCtrl := by
  have nodes := asserted.numNodePerCtrl_pos
  obtain ⟨ctrls, total⟩ := asserted.divides e
  constructor
  · intro together
    by_contra neither
    rw [not_or] at neither
    -- the last node of the first controller and the first of the second are in one group
    have several : A.numNodePerCtrl < A.numNodes e := by
      have some := numHbmCtrl_pos asserted e
      rw [numHbmCtrl, total, Nat.mul_div_cancel_left _ nodes] at some
      have le : A.numNodePerCtrl * 1 ≤ A.numNodePerCtrl * ctrls := Nat.mul_le_mul_left _ some
      omega
    have ctrl := together (A.numNodePerCtrl - 1) (by omega) A.numNodePerCtrl several
      (pred_div_eq neither.1)
    rw [nodeWire_eq asserted pos (by omega), nodeWire_eq asserted pos several, Option.map_some,
      Option.map_some, Option.some_inj, Nat.div_self nodes, Nat.div_eq_of_lt (by omega)] at ctrl
    cases ctrl
  · intro divides nodeId node nodeId' node' group
    rw [nodeWire_eq asserted pos node, nodeWire_eq asserted pos node', Option.map_some,
      Option.map_some, Option.some_inj]
    rcases divides with dvd | single
    · obtain ⟨groups, factor⟩ := Nat.dvd_of_mod_eq_zero dvd
      rw [factor, ← Nat.div_div_eq_div_mul, ← Nat.div_div_eq_div_mul, group]
    · rw [single] at node node'
      rw [Nat.div_eq_of_lt node, Nat.div_eq_of_lt node']

/-! ## Channels -/

/-- With as many outputs as the division says, every channel finds its controller exactly when the
controllers divide the channels. -/
theorem chan_iff (asserted : A.Asserted) (e : Edge) :
    (∀ chanId < A.hbmChanPlacement e, (A.chanWire e chanId).isSome) ↔
      A.hbmChanPlacement e % A.numHbmCtrl e = 0 := by
  have ctrls := numHbmCtrl_pos asserted e
  have split := Nat.div_add_mod (A.hbmChanPlacement e) (A.numHbmCtrl e)
  constructor
  · intro found
    by_contra rest
    -- the first channel after the full controllers
    have outside := found (A.numHbmCtrl e * A.ctrlChan e) (by
      unfold ctrlChan
      omega)
    unfold chanWire at outside
    split at outside
    · cases outside
    · rename_i some
      rw [Nat.mul_div_cancel _ (Nat.pos_of_ne_zero some), if_neg (Nat.lt_irrefl _)] at outside
      cases outside
  · intro divides chanId chan
    rw [divides, Nat.add_zero] at split
    have total : A.numHbmCtrl e * A.ctrlChan e = A.hbmChanPlacement e := split
    have some : A.ctrlChan e ≠ 0 := by
      intro none
      rw [none, Nat.mul_zero] at total
      omega
    have ctrl : chanId / A.ctrlChan e < A.numHbmCtrl e := by
      rw [Nat.div_lt_iff_lt_mul (Nat.pos_of_ne_zero some), total]
      exact chan
    rw [chanWire, if_neg some, if_pos ctrl]
    rfl

theorem chanWire_some {wire : Nat × Nat} (found : A.chanWire e chanId = some wire) :
    wire = (chanId / A.ctrlChan e, chanId % A.ctrlChan e) ∧ wire.1 < A.numHbmCtrl e ∧
      wire.2 < A.ctrlChan e := by
  unfold chanWire at found
  split at found
  · cases found
  · rename_i some
    split at found
    · rename_i ctrl
      obtain rfl := Option.some.inj found
      exact ⟨rfl, ctrl, Nat.mod_lt _ (Nat.pos_of_ne_zero some)⟩
    · cases found

/-- A controller of an edge whose channels all find one has `ctrlChan` of them. -/
theorem length_chansOf (total : A.ctrlChan e * A.numHbmCtrl e = A.hbmChanPlacement e)
    (found : ∀ chanId < A.hbmChanPlacement e, (A.chanWire e chanId).isSome)
    (hctrl : ctrl < A.numHbmCtrl e) : (A.chansOf e ctrl).length = A.ctrlChan e := by
  rw [← length_piece (A.ctrlChan e) hctrl, total]
  unfold chansOf
  refine congrArg List.length (List.filter_congr fun chanId mem => ?_)
  obtain ⟨wire, hwire⟩ := Option.isSome_iff_exists.mp (found chanId (List.mem_range.mp mem))
  refine decide_eq_decide.mpr ?_
  rw [hwire, Option.map_some, (chanWire_some hwire).1, Option.some_inj]

/-- An architecture that passes the assertions is wired as it should be exactly when the divisions
of the wiring leave no rest. -/
theorem wired_iff (A : Arch) (asserted : A.Asserted) : A.Wired ↔ A.Divisible := by
  constructor
  · intro wired
    have pos : 0 < A.hbmNodeAliase := by
      obtain ⟨ctrl, input, found, -⟩ := wired.node .west 0
        (Nat.lt_of_lt_of_le asserted.numNodePerCtrl_pos asserted.numClusterY_ge)
      unfold nodeWire at found
      split at found
      · cases found
      · omega
    have group : ∀ e, A.numNodePerCtrl % A.hbmNodeAliase = 0 ∨ A.numNodes e = A.numNodePerCtrl :=
      fun e => (group_iff asserted pos e).mp (wired.group e)
    refine ⟨pos, ?_, fun e => (chan_iff asserted e).mp fun chanId chan => ?_⟩
    · rcases Decidable.em (A.numNodePerCtrl % A.hbmNodeAliase = 0) with divides | not
      · exact Or.inl divides
      · exact Or.inr fun e => (group e).resolve_left not
    · obtain ⟨ctrl, output, found, -⟩ := wired.chan e chanId chan
      rw [found]
      rfl
  · intro divisible
    have total : ∀ e, A.ctrlChan e * A.numHbmCtrl e = A.hbmChanPlacement e :=
      fun e => Nat.div_mul_cancel (Nat.dvd_of_mod_eq_zero (divisible.chans e))
    have found : ∀ e, ∀ chanId < A.hbmChanPlacement e, ∃ wire, A.chanWire e chanId = some wire :=
      fun e chanId chan => Option.isSome_iff_exists.mp
        ((chan_iff asserted e).mpr (divisible.chans e) chanId chan)
    refine ⟨fun e nodeId node => ?_, fun e chanId chan => ?_, ?_, ?_, fun e => ?_⟩
    · exact ⟨_, _, nodeWire_eq asserted divisible.alias_pos node,
        Nat.div_lt_div_of_lt_of_dvd (asserted.divides e) node,
        Nat.mod_lt _ asserted.numNodePerCtrl_pos⟩
    · obtain ⟨wire, hwire⟩ := found e chanId chan
      exact ⟨wire.1, wire.2, hwire, (chanWire_some hwire).2⟩
    · intro e chanId chan chanId' chan' same
      obtain ⟨wire, hwire⟩ := found e chanId chan
      have here := (chanWire_some hwire).1
      have there := (chanWire_some (same ▸ hwire)).1
      obtain ⟨ctrl, output⟩ := Prod.mk.inj (here.symm.trans there)
      rw [← Nat.div_add_mod chanId (A.ctrlChan e), ← Nat.div_add_mod chanId' (A.ctrlChan e),
        ctrl, output]
    · intro e some ctrl hctrl ctrl' hctrl'
      have all := (chan_iff asserted e).mpr (divisible.chans e)
      rw [length_chansOf (total e) all hctrl, length_chansOf (total e) all hctrl']
    · refine (group_iff asserted divisible.alias_pos e).mpr ?_
      rcases divisible.alias_dvd with divides | single
      · exact Or.inl divides
      · exact Or.inr (single e)

theorem wired_iff_twoByTwo : (twoByTwo 2).Wired ↔ (twoByTwo 2).Divisible :=
  wired_iff (twoByTwo 2) (twoByTwo_asserted (by decide))

/-- Three by three clusters with a controller for each node, and four channels on the west edge. -/
def threeByThree : Arch :=
  { twoByTwo 1 with
    numClusterX := 3
    numClusterY := 3
    numNodePerCtrl := 1
    hbmChanPlacement := fun e => if e = .west then 4 else 0 }

/-- Eight by eight clusters with four nodes behind a controller, in groups of three aliases. -/
def threeAliases : Arch :=
  { twoByTwo 3 with
    numClusterX := 8
    numClusterY := 8
    numNodePerCtrl := 4 }

/-- The assertions let pass four channels for three controllers, of which the last has no
controller, and groups of three aliases for controllers of four nodes. -/
theorem asserted_not_wired :
    threeByThree.Asserted ∧ threeByThree.chanWire .west 3 = none ∧ ¬ threeByThree.Wired ∧
      threeAliases.Asserted ∧ threeAliases.nodeWire .west 3 = some (0, 3) ∧
      threeAliases.nodeWire .west 4 = some (1, 0) ∧ ¬ threeAliases.Wired := by
  have last : threeByThree.chanWire .west 3 = none := by decide
  refine ⟨⟨by decide, by decide, fun e => by cases e <;> decide, by decide, by decide, by decide,
    by decide, fun e => by cases e <;> decide, by decide⟩, last, ?_,
    ⟨by decide, by decide, fun e => by cases e <;> decide, by decide, by decide, by decide,
    by decide, fun e => by cases e <;> decide, by decide⟩, by decide, by decide, ?_⟩
  · intro wired
    obtain ⟨ctrl, output, found, -⟩ := wired.chan .west 3 (by decide)
    rw [last] at found
    cases found
  · intro wired
    exact absurd (wired.group .west 3 (by decide) 4 (by decide) (by decide)) (by decide)

end Arch

end SoftHier.Mem
