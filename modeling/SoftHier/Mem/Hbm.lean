import Mathlib.Tactic.Ring
import SoftHier.Lib.Interleave
import SoftHier.Lib.Word
import SoftHier.Noc.Mesh

/-!
# The HBM address map

The HBM nodes lie on the four edges of the mesh.  The runtime computes the address of an offset in a
node, the generator maps address ranges to edge nodes and these to controllers, a network interface
may move an address to an alias of it, and a controller spreads its offsets over its channels.

* `Arch.hbm`: the address macros; `Arch.entry`: the map; `HbmCtrl.reqMuxed`: the controller.
* `Arch.storage`: the place a request reaches, through the three of them.
* `entry_holds_iff`: the entry that holds an address.
* `storage_eq`: the place does not depend on the alias that is taken.
* `hbm_map`: without aliases, the nodes and the places of the macros' addresses.
* `alias_transparent`: with them, every requester reaches the place an unaliased map gives.
-/

namespace SoftHier.Mem

open Noc (Pos Mesh)

/-- The edges of the mesh, in the order of `hbm_chan_placement`. -/
inductive Edge where
  | west
  | north
  | east
  | south
  deriving DecidableEq, Repr

/-- The fields of the architecture the HBM map depends on.  A link carries at least a byte and its
width in bytes is an `int`; aliases differ in the bits of an address from the start bit on. -/
structure Arch where
  numClusterX : Nat
  numClusterY : Nat
  numNodePerCtrl : Nat
  hbmChanPlacement : Edge → Nat
  nocLinkWidth : Nat
  hbmStartBase : Nat
  hbmNodeAddrSpace : Nat
  hbmNodeAliase : Nat
  hbmNodeAliaseStartBit : Nat
  nocLinkWidth_ge : 8 ≤ nocLinkWidth
  nocLinkWidth_lt : nocLinkWidth / 8 < 2 ^ 31
  hbmNodeAliaseStartBit_lt : hbmNodeAliaseStartBit < 64

/-- `is_power_of_two`, which lets zero pass. -/
def IsPowerOfTwo (value : Nat) : Prop := value = 0 ∨ value &&& (value - 1) = 0

instance (value : Nat) : Decidable (IsPowerOfTwo value) := inferInstanceAs (Decidable (_ ∨ _))

namespace Arch

variable (A : Arch)

/-- The number of nodes on an edge. -/
def numNodes : Edge → Nat
  | .west => A.numClusterY
  | .north => A.numClusterX
  | .east => A.numClusterY
  | .south => A.numClusterX

/-- `num_hbm_ctrl_x` and `num_hbm_ctrl_y` -/
def numHbmCtrl (e : Edge) : Nat := A.numNodes e / A.numNodePerCtrl

/-- The assertions of the generator; its first divisions raise on zero. -/
structure Asserted : Prop where
  numNodePerCtrl_pos : 0 < A.numNodePerCtrl
  numNodePerCtrl_pow : IsPowerOfTwo A.numNodePerCtrl
  hbmChanPlacement_pow : ∀ e, IsPowerOfTwo (A.hbmChanPlacement e)
  numClusterX_mod : A.numClusterX % A.numNodePerCtrl = 0
  numClusterX_ge : A.numNodePerCtrl ≤ A.numClusterX
  numClusterY_mod : A.numClusterY % A.numNodePerCtrl = 0
  numClusterY_ge : A.numNodePerCtrl ≤ A.numClusterY
  hbmChanPlacement_ge : ∀ e, A.numHbmCtrl e ≤ A.hbmChanPlacement e ∨ A.hbmChanPlacement e = 0
  hbmNodeAliase_le : A.hbmNodeAliase ≤ A.numNodePerCtrl

/-! ## The macros of the runtime -/

/-- `hbm_west` -/
def hbmWest (nid offset : Nat) : Nat :=
  (A.hbmStartBase + nid * A.hbmNodeAddrSpace + offset) % 2 ^ 64

/-- `hbm_north` -/
def hbmNorth (nid offset : Nat) : Nat :=
  (A.hbmStartBase + nid * A.hbmNodeAddrSpace + A.hbmNodeAddrSpace * A.numClusterY + offset) % 2 ^ 64

/-- `hbm_east` -/
def hbmEast (nid offset : Nat) : Nat :=
  (A.hbmStartBase + nid * A.hbmNodeAddrSpace +
    A.hbmNodeAddrSpace * (A.numClusterY + A.numClusterX) + offset) % 2 ^ 64

/-- `hbm_south` -/
def hbmSouth (nid offset : Nat) : Nat :=
  (A.hbmStartBase + nid * A.hbmNodeAddrSpace + A.hbmNodeAddrSpace * 2 * A.numClusterY +
    A.hbmNodeAddrSpace * A.numClusterX + offset) % 2 ^ 64

/-- The address of an offset in a node of an edge. -/
def hbm : Edge → Nat → Nat → Nat
  | .west => A.hbmWest
  | .north => A.hbmNorth
  | .east => A.hbmEast
  | .south => A.hbmSouth

/-- The end of the HBM addresses, as the generator maps them for the debug interconnect. -/
def hbmEnd : Nat :=
  A.hbmStartBase + A.hbmNodeAddrSpace * 2 * (A.numClusterX + A.numClusterY)

end Arch

/-! ## The map of the data network -/

/-- An entry of the map of the network. -/
structure Entry where
  base : Nat
  size : Nat
  pos : Pos
  deriving DecidableEq, Repr

/-- The address falls in the entry. -/
def Entry.Holds (entry : Entry) (addr : Nat) : Prop :=
  entry.base ≤ addr ∧ addr < entry.base + entry.size

instance (entry : Entry) (addr : Nat) : Decidable (entry.Holds addr) :=
  inferInstanceAs (Decidable (_ ∧ _))

namespace Arch

variable (A : Arch)

/-- The mesh of the data network. -/
def mesh : Mesh := ⟨A.numClusterX, A.numClusterY⟩

/-- `hbm_edge_start_base` while the nodes of an edge are mapped. -/
def hbmEdgeStartBase : Edge → Nat
  | .west => A.hbmStartBase
  | .north => A.hbmStartBase + A.numClusterY * A.hbmNodeAddrSpace
  | .east => A.hbmStartBase + A.numClusterY * A.hbmNodeAddrSpace +
      A.numClusterX * A.hbmNodeAddrSpace
  | .south => A.hbmStartBase + A.numClusterY * A.hbmNodeAddrSpace +
      A.numClusterX * A.hbmNodeAddrSpace + A.numClusterY * A.hbmNodeAddrSpace

/-- Where an edge node is in the network. -/
def nodePos : Edge → Nat → Pos
  | .west, nodeId => ⟨0, nodeId + 1⟩
  | .north, nodeId => ⟨nodeId + 1, A.numClusterY + 1⟩
  | .east, nodeId => ⟨A.numClusterX + 1, nodeId + 1⟩
  | .south, nodeId => ⟨nodeId + 1, 0⟩

/-- The entry of an edge node. -/
def entry (e : Edge) (nodeId : Nat) : Entry where
  base := A.hbmEdgeStartBase e +
    nodeId / A.hbmNodeAliase * (A.hbmNodeAddrSpace * A.hbmNodeAliase) +
    (1 <<< A.hbmNodeAliaseStartBit) * (nodeId % A.hbmNodeAliase)
  size := A.hbmNodeAddrSpace * A.hbmNodeAliase
  pos := A.nodePos e nodeId

/-- The edge nodes, in the order in which they are mapped. -/
def edgeNodes : List (Edge × Nat) :=
  [Edge.west, .north, .east, .south].flatMap fun e => (List.range (A.numNodes e)).map (Prod.mk e)

/-- The HBM entries of the map. -/
def hbmEntries : List Entry := A.edgeNodes.map fun node => A.entry node.1 node.2

/-- The edge node at a position. -/
def nodeAt (p : Pos) : Option (Edge × Nat) :=
  A.edgeNodes.find? fun node => A.nodePos node.1 node.2 = p

end Arch

/-- What is used of `FlooNoc::get_entry`, which is not part of the repository: an address that
falls in an entry is found in one. -/
structure Lookup (entries : List Entry) where
  getEntry : Nat → Option Entry
  found : ∀ addr, ∀ entry ∈ entries, entry.Holds addr →
    ∃ entry' ∈ entries, entry'.Holds addr ∧ getEntry addr = some entry'

/-- The first entry that holds the address. -/
def firstEntry (entries : List Entry) : Lookup entries where
  getEntry addr := entries.find? fun entry => entry.Holds addr
  found := by
    intro addr entry mem holds
    cases search : entries.find? fun entry => entry.Holds addr with
    | none => exact absurd (decide_eq_true holds) (List.find?_eq_none.mp search entry mem)
    | some entry' =>
      exact ⟨entry', List.mem_of_find?_eq_some search, of_decide_eq_true (List.find?_some search :),
        rfl⟩

/-! ## The controller -/

/-- What an `hbm_ctrl` reads with `get_child_int` for the map of its addresses. -/
structure HbmCtrl where
  nbSlaves : Nat
  interleavingBits : Nat
  nodeAddrOffset : Nat
  hbmNodeAliase : Nat
  deriving Repr

namespace HbmCtrl

variable (c : HbmCtrl)

/-- `stage_bits`, where the generator leaves it to the constructor. -/
def stageBits : Nat := c.nbSlaves.log2

/-- The node a multiplexed port stands for. -/
def node (muxId : Nat) : Nat := if 1 < c.hbmNodeAliase then muxId / c.hbmNodeAliase else muxId

/-- `node_size` -/
def nodeSize : Nat :=
  u64 (if 1 < c.hbmNodeAliase then c.nodeAddrOffset * c.hbmNodeAliase else c.nodeAddrOffset)

/-- The offset among those of all nodes. -/
def nodeOffset (muxId offset : Nat) : Nat := u64 (offset + u64 (c.node muxId * c.nodeSize))

/-- `bank_id`, before any scrambling. -/
def bankId (stage offset : Nat) : Nat := (offset >>> c.interleavingBits) &&& ((1 <<< stage) - 1)

/-- `bank_offset` of the plain and of the multiplexed ports. -/
def bankOffset (stage offset : Nat) : Nat :=
  ((offset >>> (stage + c.interleavingBits)) <<< c.interleavingBits) +
    (offset &&& ((1 <<< c.interleavingBits) - 1))

/-- `hbm_ctrl::req_muxed` without scrambling: the channel and the offset in it; there is none behind
a controller without channels. -/
def reqMuxed (muxId offset : Nat) : Option (Nat × Nat) :=
  if c.nbSlaves = 0 then none
  else some (c.bankId c.stageBits (c.nodeOffset muxId offset),
    c.bankOffset c.stageBits (c.nodeOffset muxId offset))

/-- The products are taken modulo the word once. -/
theorem nodeOffset_eq (muxId offset : Nat) : c.nodeOffset muxId offset =
    (offset + c.node muxId *
      if 1 < c.hbmNodeAliase then c.nodeAddrOffset * c.hbmNodeAliase else c.nodeAddrOffset) %
        2 ^ 64 := by
  unfold nodeOffset nodeSize u64
  rw [Nat.add_mod_mod, Nat.add_mod, Nat.mul_mod_mod, ← Nat.add_mod]

/-- The place without scrambling. -/
theorem bankId_bankOffset (stage x : Nat) :
    (c.bankId stage x, c.bankOffset stage x) =
      interleave (2 ^ stage) (2 ^ c.interleavingBits) x := by
  unfold bankId bankOffset
  rw [Nat.add_comm stage]
  exact interleave_shift _ _ x

end HbmCtrl

/-- A place in the channels of the HBM. -/
structure Place where
  edge : Edge
  ctrl : Nat
  bank : Nat
  offset : Nat
  deriving DecidableEq, Repr

namespace Arch

variable (A : Arch)

/-- The controllers of an edge; `nb_slaves` is `ctrl_chan_west` and so on. -/
def hbmCtrl (e : Edge) : HbmCtrl where
  nbSlaves := A.hbmChanPlacement e / A.numHbmCtrl e
  interleavingBits := (A.nocLinkWidth / 8).log2
  nodeAddrOffset := A.hbmNodeAddrSpace
  hbmNodeAliase := A.hbmNodeAliase

/-- The alias step of `NetworkInterface::fsm_handler`, for the interface at `ni`; `none` is the
fatal error of an address without entry. -/
def aliasBase (getEntry : Nat → Option Entry) (ni : Pos) (base : Nat) : Option Nat :=
  let moved (nodeId : Nat) :=
    (base + (1 <<< A.hbmNodeAliaseStartBit) * (nodeId % A.hbmNodeAliase)) % 2 ^ 64
  if 1 < A.hbmNodeAliase then
    match getEntry base with
    | none => none
    | some testEntry =>
        if testEntry.pos.x = 0 then some (moved (ni.y - 1))
        else if testEntry.pos.x = A.mesh.dimX - 1 then some (moved (ni.y - 1))
        else if testEntry.pos.y = 0 then some (moved (ni.x - 1))
        else if testEntry.pos.y = A.mesh.dimY - 1 then some (moved (ni.x - 1))
        else some base
  else some base

/-- The entry a network interface sends a request to, and the address of the request there. -/
def request (getEntry : Nat → Option Entry) (ni : Pos) (addr : Nat) : Option (Entry × Nat) :=
  match A.aliasBase getEntry ni addr with
  | none => none
  | some base =>
      match getEntry base with
      | none => none
      | some entry => some (entry, base - entry.base)

/-- The place a request of a network interface reaches: the node at the position of the entry passes
it to its controller. -/
def storage (getEntry : Nat → Option Entry) (ni : Pos) (addr : Nat) : Option Place :=
  match A.request getEntry ni addr with
  | none => none
  | some (entry, offset) =>
      match A.nodeAt entry.pos with
      | none => none
      | some (e, nodeId) =>
          ((A.hbmCtrl e).reqMuxed (nodeId % A.numNodePerCtrl) offset).map fun place =>
            ⟨e, nodeId / A.numNodePerCtrl, place.1, place.2⟩

end Arch

/-! ## Edges -/

namespace Arch

section

variable {A : Arch} {e e' : Edge} {nodeId k r addr : Nat}

theorem mem_edgeNodes : (e, nodeId) ∈ A.edgeNodes ↔ nodeId < A.numNodes e := by
  cases e <;> simp [edgeNodes]

theorem hbmEnd_eq (A : Arch) : A.hbmEnd = A.hbmStartBase +
    (2 * (A.numClusterX * A.hbmNodeAddrSpace) + 2 * (A.numClusterY * A.hbmNodeAddrSpace)) := by
  unfold hbmEnd
  ring

/-- The addresses of the four edges follow each other. -/
theorem hbmEdge_le_end (A : Arch) (e : Edge) :
    A.hbmStartBase ≤ A.hbmEdgeStartBase e ∧
      A.hbmEdgeStartBase e + A.numNodes e * A.hbmNodeAddrSpace ≤ A.hbmEnd := by
  rw [hbmEnd_eq]
  cases e <;> simp only [hbmEdgeStartBase, numNodes] <;> omega

theorem edge_unique (ge : A.hbmEdgeStartBase e ≤ addr)
    (lt : addr < A.hbmEdgeStartBase e + A.numNodes e * A.hbmNodeAddrSpace)
    (ge' : A.hbmEdgeStartBase e' ≤ addr)
    (lt' : addr < A.hbmEdgeStartBase e' + A.numNodes e' * A.hbmNodeAddrSpace) : e' = e := by
  cases e <;> cases e' <;> first
    | rfl
    | simp only [hbmEdgeStartBase, numNodes] at ge lt ge' lt'
      omega

/-- Every HBM address lies on an edge. -/
theorem exists_edge (ge : A.hbmStartBase ≤ addr) (lt : addr < A.hbmEnd) :
    ∃ e r, addr = A.hbmEdgeStartBase e + r ∧ r < A.numNodes e * A.hbmNodeAddrSpace := by
  rw [hbmEnd_eq] at lt
  rcases Nat.lt_or_ge addr (A.hbmEdgeStartBase .north) with west | ge
  · exact ⟨.west, addr - A.hbmEdgeStartBase .west, by
      simp only [hbmEdgeStartBase, numNodes] at west ⊢
      omega⟩
  rcases Nat.lt_or_ge addr (A.hbmEdgeStartBase .east) with north | ge
  · exact ⟨.north, addr - A.hbmEdgeStartBase .north, by
      simp only [hbmEdgeStartBase, numNodes] at ge north ⊢
      omega⟩
  rcases Nat.lt_or_ge addr (A.hbmEdgeStartBase .south) with east | ge
  · exact ⟨.east, addr - A.hbmEdgeStartBase .east, by
      simp only [hbmEdgeStartBase, numNodes] at ge east ⊢
      omega⟩
  · exact ⟨.south, addr - A.hbmEdgeStartBase .south, by
      simp only [hbmEdgeStartBase, numNodes] at ge ⊢
      omega⟩

/-- No two edge nodes share a position. -/
theorem nodePos_injective {nodeId' : Nat} (less : nodeId < A.numNodes e)
    (less' : nodeId' < A.numNodes e') (same : A.nodePos e nodeId = A.nodePos e' nodeId') :
    e = e' ∧ nodeId = nodeId' := by
  cases e <;> cases e' <;> simp only [nodePos, numNodes, Pos.mk.injEq] at less less' same <;> first
    | exact ⟨rfl, by omega⟩
    | omega

theorem nodeAt_nodePos (less : nodeId < A.numNodes e) :
    A.nodeAt (A.nodePos e nodeId) = some (e, nodeId) := by
  unfold nodeAt
  cases search : A.edgeNodes.find? fun node => A.nodePos node.1 node.2 = A.nodePos e nodeId with
  | none =>
    have absent := List.find?_eq_none.mp search (e, nodeId) (mem_edgeNodes.mpr less)
    simp at absent
  | some node =>
    have less' : node.2 < A.numNodes node.1 := mem_edgeNodes.mp (List.mem_of_find?_eq_some search)
    have same := List.find?_some search
    obtain ⟨edge, id⟩ := nodePos_injective less' less (of_decide_eq_true same)
    exact congrArg some (Prod.ext edge id)

end

/-! ## Entries -/

/-- The aliases divide the nodes of a controller, and differ in bits above all HBM addresses. -/
structure Aliased (A : Arch) : Prop where
  pos : 0 < A.hbmNodeAliase
  divides : A.hbmNodeAliase ∣ A.numNodePerCtrl
  apart : A.hbmNodeAliase = 1 ∨ A.hbmEnd ≤ 2 ^ A.hbmNodeAliaseStartBit
  end_le : A.hbmEnd ≤ 2 ^ 64

section

variable {A : Arch} {e e' : Edge} {nodeId k r addr : Nat}

theorem Asserted.divides (asserted : A.Asserted) (e : Edge) :
    A.numNodePerCtrl ∣ A.numNodes e := by
  cases e
  · exact Nat.dvd_of_mod_eq_zero asserted.numClusterY_mod
  · exact Nat.dvd_of_mod_eq_zero asserted.numClusterX_mod
  · exact Nat.dvd_of_mod_eq_zero asserted.numClusterY_mod
  · exact Nat.dvd_of_mod_eq_zero asserted.numClusterX_mod

/-- The window of a group of aliases lies on the edge. -/
theorem window_le (asserted : A.Asserted) (aliased : A.Aliased) (less : nodeId < A.numNodes e) :
    nodeId / A.hbmNodeAliase * (A.hbmNodeAddrSpace * A.hbmNodeAliase) +
      A.hbmNodeAddrSpace * A.hbmNodeAliase ≤ A.numNodes e * A.hbmNodeAddrSpace := by
  obtain ⟨q, nodes⟩ := Nat.dvd_trans aliased.divides (asserted.divides e)
  rw [nodes] at less ⊢
  have group : nodeId / A.hbmNodeAliase + 1 ≤ q := Nat.div_lt_of_lt_mul less
  calc nodeId / A.hbmNodeAliase * (A.hbmNodeAddrSpace * A.hbmNodeAliase) +
        A.hbmNodeAddrSpace * A.hbmNodeAliase
      = (nodeId / A.hbmNodeAliase + 1) * (A.hbmNodeAddrSpace * A.hbmNodeAliase) := by ring
    _ ≤ q * (A.hbmNodeAddrSpace * A.hbmNodeAliase) := Nat.mul_le_mul_right _ group
    _ = A.hbmNodeAliase * q * A.hbmNodeAddrSpace := by ring

/-- The alias a window is for. -/
theorem digit_eq {B x y k k' w : Nat} (x_lt : x < B) (window : y + w ≤ B)
    (ge : y + B * k' ≤ x + B * k) (lt : x + B * k < y + B * k' + w) : k' = k := by
  rcases Nat.lt_trichotomy k' k with less | same | more
  · have step := Nat.mul_le_mul_left B less
    rw [Nat.mul_succ] at step
    omega
  · exact same
  · have step := Nat.mul_le_mul_left B more
    rw [Nat.mul_succ] at step
    omega

/-- The entries that hold an alias of an HBM address: the node has its group and its alias. -/
theorem entry_holds_iff (asserted : A.Asserted) (aliased : A.Aliased)
    (less : nodeId < A.numNodes e') (inside : r < A.numNodes e * A.hbmNodeAddrSpace)
    (few : k < A.hbmNodeAliase) :
    (A.entry e' nodeId).Holds (A.hbmEdgeStartBase e + r + 2 ^ A.hbmNodeAliaseStartBit * k) ↔
      e' = e ∧ nodeId / A.hbmNodeAliase = r / (A.hbmNodeAddrSpace * A.hbmNodeAliase) ∧
        nodeId % A.hbmNodeAliase = k := by
  have window := window_le asserted aliased less
  have bound := (hbmEdge_le_end A e).2
  have bound' := (hbmEdge_le_end A e').2
  simp only [Entry.Holds, entry, Nat.shiftLeft_eq, Nat.one_mul]
  constructor
  · rintro ⟨ge, lt⟩
    have digit : nodeId % A.hbmNodeAliase = k := by
      rcases aliased.apart with one | below
      · rw [one] at few ⊢
        omega
      · exact digit_eq (by omega) (by omega) ge lt
    rw [digit] at ge lt
    have low : A.hbmEdgeStartBase e' ≤ A.hbmEdgeStartBase e + r := by omega
    have high : A.hbmEdgeStartBase e + r <
        A.hbmEdgeStartBase e' + A.numNodes e' * A.hbmNodeAddrSpace := by omega
    obtain rfl : e' = e :=
      edge_unique (Nat.le_add_right _ r) (Nat.add_lt_add_left inside _) low high
    refine ⟨rfl, ?_, digit⟩
    symm
    apply Nat.div_eq_of_lt_le
    · omega
    · rw [Nat.succ_mul]
      omega
  · rintro ⟨rfl, group, digit⟩
    have some : 0 < A.hbmNodeAddrSpace := by
      rcases Nat.eq_zero_or_pos A.hbmNodeAddrSpace with none | some
      · rw [none, Nat.mul_zero] at inside
        cases inside
      · exact some
    have size : 0 < A.hbmNodeAddrSpace * A.hbmNodeAliase := Nat.mul_pos some aliased.pos
    have low := Nat.div_mul_le_self r (A.hbmNodeAddrSpace * A.hbmNodeAliase)
    have high := Nat.lt_div_mul_add size (a := r)
    rw [group, digit]
    omega

/-- The entry a lookup finds for an alias of an HBM address. -/
theorem getEntry_eq (asserted : A.Asserted) (aliased : A.Aliased) (noc : Lookup A.hbmEntries)
    (inside : r < A.numNodes e * A.hbmNodeAddrSpace) (few : k < A.hbmNodeAliase) :
    ∃ nodeId < A.numNodes e,
      noc.getEntry (A.hbmEdgeStartBase e + r + 2 ^ A.hbmNodeAliaseStartBit * k) =
          some (A.entry e nodeId) ∧
        nodeId / A.hbmNodeAliase = r / (A.hbmNodeAddrSpace * A.hbmNodeAliase) ∧
        nodeId % A.hbmNodeAliase = k := by
  -- the node with the group of the address and the alias
  obtain ⟨q, nodes⟩ := Nat.dvd_trans aliased.divides (asserted.divides e)
  have group : r / (A.hbmNodeAddrSpace * A.hbmNodeAliase) < q := by
    apply Nat.div_lt_of_lt_mul
    calc r < A.numNodes e * A.hbmNodeAddrSpace := inside
      _ = A.hbmNodeAddrSpace * A.hbmNodeAliase * q := by
        rw [nodes]
        ring
  have less : A.hbmNodeAliase * (r / (A.hbmNodeAddrSpace * A.hbmNodeAliase)) + k <
      A.numNodes e := by
    have next := Nat.mul_le_mul_left A.hbmNodeAliase group
    rw [Nat.mul_succ] at next
    omega
  have holds := (entry_holds_iff asserted aliased less inside few).mpr ⟨rfl, by
    rw [Nat.mul_add_div aliased.pos, Nat.div_eq_of_lt few, Nat.add_zero], by
    rw [Nat.mul_add_mod, Nat.mod_eq_of_lt few]⟩
  have mem : A.entry e (A.hbmNodeAliase * (r / (A.hbmNodeAddrSpace * A.hbmNodeAliase)) + k) ∈
      A.hbmEntries := List.mem_map.mpr ⟨(e, _), mem_edgeNodes.mpr less, rfl⟩
  obtain ⟨entry, mem', holds', found⟩ := noc.found _ _ mem holds
  obtain ⟨⟨e', nodeId⟩, node, rfl⟩ := List.mem_map.mp mem'
  obtain ⟨rfl, group', digit⟩ :=
    (entry_holds_iff asserted aliased (mem_edgeNodes.mp node) inside few).mp holds'
  exact ⟨nodeId, mem_edgeNodes.mp node, found, group', digit⟩

end

/-! ## Places -/

/-- The place of offset `r` of an edge: the controllers divide the edge evenly, and each
interleaves its part over its channels. -/
def place (A : Arch) (e : Edge) (r : Nat) : Option Place :=
  if (A.hbmCtrl e).nbSlaves = 0 then none
  else
    let ctrlSize := A.hbmNodeAddrSpace * A.numNodePerCtrl
    let spread := interleave (2 ^ (A.hbmCtrl e).stageBits) (2 ^ (A.hbmCtrl e).interleavingBits)
      (r % ctrlSize)
    some ⟨e, r / ctrlSize, spread.1, spread.2⟩

section

variable {A : Arch} {e e' : Edge} {nodeId k r r' addr : Nat}

theorem numHbmCtrl_pos (asserted : A.Asserted) (e : Edge) : 0 < A.numHbmCtrl e := by
  have nodes : A.numNodePerCtrl ≤ A.numNodes e := by
    cases e
    · exact asserted.numClusterY_ge
    · exact asserted.numClusterX_ge
    · exact asserted.numClusterY_ge
    · exact asserted.numClusterX_ge
  exact Nat.div_pos nodes asserted.numNodePerCtrl_pos

/-- An edge with channels has one behind every controller. -/
theorem nbSlaves_pos (asserted : A.Asserted) (some : A.hbmChanPlacement e ≠ 0) :
    0 < (A.hbmCtrl e).nbSlaves := by
  have ctrls := numHbmCtrl_pos asserted e
  rcases asserted.hbmChanPlacement_ge e with enough | none
  · exact Nat.div_pos enough ctrls
  · exact absurd none some

theorem isSome_place (asserted : A.Asserted) :
    (A.place e r).isSome ↔ A.hbmChanPlacement e ≠ 0 := by
  rcases Nat.eq_zero_or_pos (A.hbmChanPlacement e) with none | some
  · have slaves : (A.hbmCtrl e).nbSlaves = 0 := by
      unfold hbmCtrl
      rw [none, Nat.zero_div]
    simp [place, slaves, none]
  · have slaves := (nbSlaves_pos asserted some.ne').ne'
    simp [place, slaves, some.ne']

/-- No two offsets of the edges share a place. -/
theorem place_injective (some : (A.place e r).isSome) (same : A.place e r = A.place e' r') :
    e = e' ∧ r = r' := by
  unfold place at some same
  split_ifs at some same with none none' none'
  · cases some
  simp only [Option.some.injEq, Place.mk.injEq] at same
  obtain ⟨rfl, ctrl, bank, offset⟩ := same
  have inner : r % (A.hbmNodeAddrSpace * A.numNodePerCtrl) =
      r' % (A.hbmNodeAddrSpace * A.numNodePerCtrl) :=
    interleave_injective _ (Nat.two_pow_pos _) (Prod.ext bank offset)
  refine ⟨rfl, ?_⟩
  rw [← Nat.div_add_mod r (A.hbmNodeAddrSpace * A.numNodePerCtrl),
    ← Nat.div_add_mod r' (A.hbmNodeAddrSpace * A.numNodePerCtrl), ctrl, inner]

/-- The controller takes the offset of any alias to the place of the offset on the edge. -/
theorem reqMuxed_eq (aliased : A.Aliased) (inside : r < A.numNodes e * A.hbmNodeAddrSpace)
    (group : nodeId / A.hbmNodeAliase = r / (A.hbmNodeAddrSpace * A.hbmNodeAliase)) :
    (((A.hbmCtrl e).reqMuxed (nodeId % A.numNodePerCtrl)
        (r % (A.hbmNodeAddrSpace * A.hbmNodeAliase))).map fun place =>
      (⟨e, nodeId / A.numNodePerCtrl, place.1, place.2⟩ : Place)) = A.place e r := by
  obtain ⟨q, nodes⟩ := aliased.divides
  have size : A.hbmNodeAddrSpace * A.numNodePerCtrl =
      A.hbmNodeAddrSpace * A.hbmNodeAliase * q := by
    rw [nodes, Nat.mul_assoc]
  have ctrl : nodeId / A.numNodePerCtrl = r / (A.hbmNodeAddrSpace * A.numNodePerCtrl) := by
    rw [size, ← Nat.div_div_eq_div_mul, ← group, Nat.div_div_eq_div_mul, nodes]
  -- the offset in the controller, with the node bits stripped
  have offset : (r % (A.hbmNodeAddrSpace * A.hbmNodeAliase) +
      nodeId % A.numNodePerCtrl / A.hbmNodeAliase * (A.hbmNodeAddrSpace * A.hbmNodeAliase)) %
        2 ^ 64 = r % (A.hbmNodeAddrSpace * A.numNodePerCtrl) := by
    have bound := (hbmEdge_le_end A e).2
    have fits := aliased.end_le
    have le := Nat.mod_le r (A.hbmNodeAddrSpace * A.numNodePerCtrl)
    have inner : r % (A.hbmNodeAddrSpace * A.hbmNodeAliase) +
        nodeId % A.numNodePerCtrl / A.hbmNodeAliase * (A.hbmNodeAddrSpace * A.hbmNodeAliase) =
          r % (A.hbmNodeAddrSpace * A.numNodePerCtrl) := by
      have split : r % (A.hbmNodeAddrSpace * A.hbmNodeAliase * q) = _ := Nat.mod_mul
      rw [size, split, nodes, Nat.mod_mul_right_div_self, group]
      exact congrArg _ (Nat.mul_comm _ _)
    rw [inner]
    exact Nat.mod_eq_of_lt (by omega)
  have mux : (A.hbmCtrl e).nodeOffset (nodeId % A.numNodePerCtrl)
      (r % (A.hbmNodeAddrSpace * A.hbmNodeAliase)) =
        r % (A.hbmNodeAddrSpace * A.numNodePerCtrl) := by
    rw [← offset, HbmCtrl.nodeOffset_eq]
    unfold HbmCtrl.node hbmCtrl
    dsimp only
    split_ifs with several
    · rfl
    · have one : A.hbmNodeAliase = 1 := Nat.le_antisymm (Nat.not_lt.mp several) aliased.pos
      rw [one, Nat.div_one, Nat.mul_one]
  unfold HbmCtrl.reqMuxed place
  by_cases none : (A.hbmCtrl e).nbSlaves = 0
  · rw [if_pos none, if_pos none]
    rfl
  · rw [if_neg none, if_neg none, mux]
    dsimp only
    rw [← ctrl, ← HbmCtrl.bankId_bankOffset]
    rfl

/-- An address whose entry is at an edge is moved to one of its aliases. -/
theorem aliasBase_edge {getEntry : Nat → Option Entry} {testEntry : Entry} (ni : Pos)
    (several : 1 < A.hbmNodeAliase) (found : getEntry addr = some testEntry)
    (border : testEntry.pos.x = 0 ∨ testEntry.pos.x = A.mesh.dimX - 1 ∨
      testEntry.pos.y = 0 ∨ testEntry.pos.y = A.mesh.dimY - 1) :
    ∃ nodeId, A.aliasBase getEntry ni addr = some
      ((addr + (1 <<< A.hbmNodeAliaseStartBit) * (nodeId % A.hbmNodeAliase)) % 2 ^ 64) := by
  unfold aliasBase
  rw [if_pos several, found]
  dsimp only
  split_ifs with west east south north
  · exact ⟨ni.y - 1, rfl⟩
  · exact ⟨ni.y - 1, rfl⟩
  · exact ⟨ni.x - 1, rfl⟩
  · exact ⟨ni.x - 1, rfl⟩
  · rcases border with h | h | h | h
    · exact absurd h west
    · exact absurd h east
    · exact absurd h south
    · exact absurd h north

theorem nodePos_border (A : Arch) (e : Edge) (nodeId : Nat) :
    (A.nodePos e nodeId).x = 0 ∨ (A.nodePos e nodeId).x = A.mesh.dimX - 1 ∨
      (A.nodePos e nodeId).y = 0 ∨ (A.nodePos e nodeId).y = A.mesh.dimY - 1 := by
  cases e
  · exact Or.inl rfl
  · exact Or.inr (Or.inr (Or.inr rfl))
  · exact Or.inr (Or.inl rfl)
  · exact Or.inr (Or.inr (Or.inl rfl))

/-- The alias of an HBM address for a network interface. -/
theorem aliasBase_eq (asserted : A.Asserted) (aliased : A.Aliased) (noc : Lookup A.hbmEntries)
    (ni : Pos) (inside : r < A.numNodes e * A.hbmNodeAddrSpace) :
    ∃ k < A.hbmNodeAliase, A.aliasBase noc.getEntry ni (A.hbmEdgeStartBase e + r) =
      some (A.hbmEdgeStartBase e + r + 2 ^ A.hbmNodeAliaseStartBit * k) := by
  rcases Nat.lt_or_ge 1 A.hbmNodeAliase with several | single
  · have below := aliased.apart.resolve_left several.ne'
    have bound := (hbmEdge_le_end A e).2
    obtain ⟨node, less, found, -⟩ := getEntry_eq asserted aliased noc inside aliased.pos
    rw [Nat.mul_zero, Nat.add_zero] at found
    obtain ⟨nodeId, moved⟩ := aliasBase_edge ni several found (nodePos_border A e node)
    -- the bits above the start bit wrap, those below stay
    have top : 2 ^ 64 = 2 ^ A.hbmNodeAliaseStartBit * 2 ^ (64 - A.hbmNodeAliaseStartBit) := by
      rw [← Nat.pow_add, Nat.add_sub_cancel' A.hbmNodeAliaseStartBit_lt.le]
    have low : A.hbmEdgeStartBase e + r < 2 ^ A.hbmNodeAliaseStartBit := by omega
    refine ⟨nodeId % A.hbmNodeAliase % 2 ^ (64 - A.hbmNodeAliaseStartBit), ?_, ?_⟩
    · exact Nat.lt_of_le_of_lt (Nat.mod_le _ _) (Nat.mod_lt _ aliased.pos)
    · rw [moved, Nat.shiftLeft_eq, Nat.one_mul, top, Nat.mod_mul, Nat.add_mul_mod_self_left,
        Nat.mod_eq_of_lt low, Nat.add_mul_div_left _ _ (Nat.two_pow_pos _),
        Nat.div_eq_of_lt low, Nat.zero_add]
  · unfold aliasBase
    rw [if_neg (Nat.not_lt.mpr single)]
    exact ⟨0, aliased.pos, rfl⟩

/-- What a network interface sends to, and the place the request reaches there. -/
theorem storage_eq (asserted : A.Asserted) (aliased : A.Aliased) (noc : Lookup A.hbmEntries)
    (ni : Pos) (inside : r < A.numNodes e * A.hbmNodeAddrSpace) :
    (∃ nodeId < A.numNodes e, ∃ offset,
      A.request noc.getEntry ni (A.hbmEdgeStartBase e + r) = some (A.entry e nodeId, offset)) ∧
      A.storage noc.getEntry ni (A.hbmEdgeStartBase e + r) = A.place e r := by
  obtain ⟨k, few, base⟩ := aliasBase_eq asserted aliased noc ni inside
  obtain ⟨nodeId, less, found, group, digit⟩ := getEntry_eq asserted aliased noc inside few
  have rest : A.hbmEdgeStartBase e + r + 2 ^ A.hbmNodeAliaseStartBit * k -
      (A.entry e nodeId).base = r % (A.hbmNodeAddrSpace * A.hbmNodeAliase) := by
    have split := Nat.div_add_mod' r (A.hbmNodeAddrSpace * A.hbmNodeAliase)
    simp only [entry, Nat.shiftLeft_eq, Nat.one_mul, digit, group]
    omega
  have sent : A.request noc.getEntry ni (A.hbmEdgeStartBase e + r) =
      some (A.entry e nodeId, r % (A.hbmNodeAddrSpace * A.hbmNodeAliase)) := by
    unfold request
    rw [base]
    dsimp only
    rw [found, ← rest]
  refine ⟨⟨nodeId, less, _, sent⟩, ?_⟩
  have node : A.nodeAt (A.entry e nodeId).pos = some (e, nodeId) := nodeAt_nodePos less
  unfold storage
  rw [sent]
  dsimp only
  rw [node]
  exact reqMuxed_eq aliased inside group

end

/-! ## The address map without aliases -/

/-- What the macros, the map and the controllers have to agree on: every address of a node with
channels behind it is held by the entry of that node alone, and different offsets or nodes reach
different places. -/
structure Separates (A : Arch) : Prop where
  entry : ∀ e nid offset, nid < A.numNodes e → A.hbmChanPlacement e ≠ 0 →
    offset < A.hbmNodeAddrSpace → (e, nid) ∈ A.edgeNodes ∧
      ∀ node ∈ A.edgeNodes,
        (A.entry node.1 node.2).Holds (A.hbm e nid offset) ↔ node = (e, nid)
  place : ∀ (noc : Lookup A.hbmEntries) (ni ni' : Pos) e nid offset e' nid' offset',
    nid < A.numNodes e → A.hbmChanPlacement e ≠ 0 → offset < A.hbmNodeAddrSpace →
    nid' < A.numNodes e' → A.hbmChanPlacement e' ≠ 0 → offset' < A.hbmNodeAddrSpace →
      (A.storage noc.getEntry ni (A.hbm e nid offset)).isSome ∧
        (A.storage noc.getEntry ni (A.hbm e nid offset) =
          A.storage noc.getEntry ni' (A.hbm e' nid' offset') →
            e = e' ∧ nid = nid' ∧ offset = offset')

section

variable {A : Arch} {e : Edge} {nid offset : Nat}

/-- The offset on the edge of an offset in a node. -/
theorem inside_edge (node : nid < A.numNodes e) (low : offset < A.hbmNodeAddrSpace) :
    nid * A.hbmNodeAddrSpace + offset < A.numNodes e * A.hbmNodeAddrSpace := by
  have next := Nat.mul_le_mul_right A.hbmNodeAddrSpace node
  rw [Nat.succ_mul] at next
  omega

/-- The macros count the nodes of an edge from the base of the generator. -/
theorem hbm_eq (fits : A.hbmEnd ≤ 2 ^ 64) (node : nid < A.numNodes e)
    (low : offset < A.hbmNodeAddrSpace) :
    A.hbm e nid offset = A.hbmEdgeStartBase e + (nid * A.hbmNodeAddrSpace + offset) := by
  have bound := (hbmEdge_le_end A e).2
  have inside := inside_edge node low
  have small : A.hbmEdgeStartBase e + (nid * A.hbmNodeAddrSpace + offset) < 2 ^ 64 := by omega
  have wrap (addr : Nat) (same : addr =
      A.hbmEdgeStartBase e + (nid * A.hbmNodeAddrSpace + offset)) :
      addr % 2 ^ 64 = A.hbmEdgeStartBase e + (nid * A.hbmNodeAddrSpace + offset) := by
    rw [same]
    exact Nat.mod_eq_of_lt small
  cases e <;> apply wrap <;> unfold hbmEdgeStartBase <;> ring

end

/-- With an HBM range of 64-bit addresses and no aliases, the macros, the map and the controllers
agree. -/
theorem hbm_map (A : Arch) (asserted : A.Asserted) (unaliased : A.hbmNodeAliase = 1)
    (fits : A.hbmEnd ≤ 2 ^ 64) : A.Separates := by
  have aliased : A.Aliased :=
    ⟨by omega, unaliased ▸ Nat.one_dvd _, Or.inl unaliased, fits⟩
  refine ⟨?_, ?_⟩
  · intro e nid offset node _ low
    have inside := inside_edge node low
    have here : (nid * A.hbmNodeAddrSpace + offset) / A.hbmNodeAddrSpace = nid := by
      rw [Nat.mul_comm, Nat.mul_add_div (Nat.zero_lt_of_lt low), Nat.div_eq_of_lt low, Nat.add_zero]
    refine ⟨mem_edgeNodes.mpr node, ?_⟩
    intro ⟨e', nid'⟩ mem
    have holds := entry_holds_iff asserted aliased (mem_edgeNodes.mp mem) inside aliased.pos
    rw [Nat.mul_zero, Nat.add_zero, ← hbm_eq fits node low, unaliased, Nat.mul_one, Nat.div_one,
      Nat.mod_one, here] at holds
    rw [holds, Prod.mk.injEq]
    exact and_congr_right fun _ => and_iff_left rfl
  · intro noc ni ni' e nid offset e' nid' offset' node chan low node' chan' low'
    rw [hbm_eq fits node low, hbm_eq fits node' low']
    rw [(storage_eq asserted aliased noc ni (inside_edge node low)).2,
      (storage_eq asserted aliased noc ni' (inside_edge node' low')).2]
    have some := (isSome_place (r := nid * A.hbmNodeAddrSpace + offset) asserted).mpr chan
    refine ⟨some, ?_⟩
    intro same
    obtain ⟨rfl, offsets⟩ := place_injective some same
    have pos : 0 < A.hbmNodeAddrSpace := Nat.zero_lt_of_lt low
    have nodes := congrArg (· / A.hbmNodeAddrSpace) offsets
    simp only [Nat.mul_comm _ A.hbmNodeAddrSpace, Nat.mul_add_div pos, Nat.div_eq_of_lt low,
      Nat.div_eq_of_lt low', Nat.add_zero] at nodes
    rw [nodes] at offsets
    exact ⟨rfl, nodes, Nat.add_left_cancel offsets⟩

/-- Two by two clusters with four channels on every edge. -/
def twoByTwo (hbmNodeAliase : Nat) : Arch where
  numClusterX := 2
  numClusterY := 2
  numNodePerCtrl := 2
  hbmChanPlacement := fun _ => 4
  nocLinkWidth := 512
  hbmStartBase := 0xc0000000
  hbmNodeAddrSpace := 0x20000000
  hbmNodeAliase := hbmNodeAliase
  hbmNodeAliaseStartBit := 48
  nocLinkWidth_ge := by decide
  nocLinkWidth_lt := by decide
  hbmNodeAliaseStartBit_lt := by decide

theorem twoByTwo_asserted {hbmNodeAliase : Nat} (le : hbmNodeAliase ≤ 2) :
    (twoByTwo hbmNodeAliase).Asserted where
  numNodePerCtrl_pos := Nat.two_pos
  numNodePerCtrl_pow := by simp [twoByTwo, IsPowerOfTwo]
  hbmChanPlacement_pow _ := by simp [twoByTwo, IsPowerOfTwo]
  numClusterX_mod := Nat.mod_self 2
  numClusterX_ge := Nat.le_refl 2
  numClusterY_mod := Nat.mod_self 2
  numClusterY_ge := Nat.le_refl 2
  hbmChanPlacement_ge e := Or.inl (by cases e <;> simp [twoByTwo, numHbmCtrl, numNodes])
  hbmNodeAliase_le := le

theorem hbm_map_twoByTwo : (twoByTwo 1).Separates :=
  hbm_map (twoByTwo 1) (twoByTwo_asserted (by decide)) rfl (by decide)

/-- One cluster, and nodes of half the 64-bit addresses. -/
def hugeNodes : Arch where
  numClusterX := 1
  numClusterY := 1
  numNodePerCtrl := 1
  hbmChanPlacement := fun _ => 1
  nocLinkWidth := 512
  hbmStartBase := 0
  hbmNodeAddrSpace := 2 ^ 63
  hbmNodeAliase := 1
  hbmNodeAliaseStartBit := 48
  nocLinkWidth_ge := by decide
  nocLinkWidth_lt := by decide
  hbmNodeAliaseStartBit_lt := by decide

/-- The assertions do not bound the HBM range: here the first addresses of the west and of the east
node are the same. -/
theorem hugeNodes_not_separates :
    hugeNodes.Asserted ∧ hugeNodes.hbmNodeAliase = 1 ∧ ¬ hugeNodes.Separates := by
  have asserted : hugeNodes.Asserted := ⟨by decide, by decide, fun e => by cases e <;> decide,
    by decide, by decide, by decide, by decide, fun e => by cases e <;> decide, by decide⟩
  refine ⟨asserted, rfl, ?_⟩
  intro separates
  have west := (separates.entry .west 0 0 (by decide) (by decide) (by decide)).2
  have east := (separates.entry .east 0 0 (by decide) (by decide) (by decide)).2
  have same : hugeNodes.hbm .west 0 0 = hugeNodes.hbm .east 0 0 := by decide
  have held := (west (.west, 0) (by decide)).mpr rfl
  rw [same] at held
  exact absurd ((east (.west, 0) (by decide)).mp held) (by decide)

/-! ## Aliases -/

/-- With aliases that divide the nodes of a controller, below whose start bit all HBM addresses
lie, the requests to an HBM address reach one place whichever network interface they come from, the
one they reach without aliases; the node they are sent to and its controller exist, and so does the
place if the edge has channels.  Between the interface and the node the routers are taken to
deliver. -/
theorem alias_transparent (A : Arch) (asserted : A.Asserted) (aliased : 1 < A.hbmNodeAliase)
    (divides : A.hbmNodeAliase ∣ A.numNodePerCtrl)
    (below : A.hbmEnd ≤ 2 ^ A.hbmNodeAliaseStartBit) (noc : Lookup A.hbmEntries)
    (plain : Lookup { A with hbmNodeAliase := 1 }.hbmEntries) {addr : Nat}
    (ge : A.hbmStartBase ≤ addr) (lt : addr < A.hbmEnd) :
    ∃ e place, (place.isSome ↔ A.hbmChanPlacement e ≠ 0) ∧ ∀ ni,
      (∃ nodeId < A.numNodes e, nodeId / A.numNodePerCtrl < A.numHbmCtrl e ∧
        ∃ offset, A.request noc.getEntry ni addr = some (A.entry e nodeId, offset)) ∧
      A.storage noc.getEntry ni addr = place ∧
      { A with hbmNodeAliase := 1 }.storage plain.getEntry ni addr = place := by
  have fits : A.hbmEnd ≤ 2 ^ 64 :=
    below.trans (Nat.pow_le_pow_right Nat.two_pos A.hbmNodeAliaseStartBit_lt.le)
  have aliased' : A.Aliased := ⟨by omega, divides, Or.inr below, fits⟩
  have single : Aliased { A with hbmNodeAliase := 1 } :=
    ⟨Nat.one_pos, Nat.one_dvd _, Or.inl rfl, fits⟩
  have asserted' : Asserted { A with hbmNodeAliase := 1 } :=
    { asserted with hbmNodeAliase_le := asserted.numNodePerCtrl_pos }
  obtain ⟨e, r, rfl, inside⟩ := exists_edge ge lt
  refine ⟨e, A.place e r, isSome_place asserted, ?_⟩
  intro ni
  obtain ⟨⟨nodeId, less, offset, sent⟩, stored⟩ := storage_eq asserted aliased' noc ni inside
  have ctrl : nodeId / A.numNodePerCtrl < A.numHbmCtrl e :=
    Nat.div_lt_div_of_lt_of_dvd (asserted.divides e) less
  exact ⟨⟨nodeId, less, ctrl, offset, sent⟩, stored,
    (storage_eq asserted' single plain ni inside).2⟩

/-- The second byte of the north edge, with both nodes of a controller aliases of each other. -/
theorem alias_transparent_twoByTwo :
    ∃ e place, (place.isSome ↔ (twoByTwo 2).hbmChanPlacement e ≠ 0) ∧ ∀ ni,
      (∃ nodeId < (twoByTwo 2).numNodes e,
        nodeId / (twoByTwo 2).numNodePerCtrl < (twoByTwo 2).numHbmCtrl e ∧
        ∃ offset, (twoByTwo 2).request (firstEntry (twoByTwo 2).hbmEntries).getEntry ni
          0x100000001 = some ((twoByTwo 2).entry e nodeId, offset)) ∧
      (twoByTwo 2).storage (firstEntry (twoByTwo 2).hbmEntries).getEntry ni 0x100000001 = place ∧
      { twoByTwo 2 with hbmNodeAliase := 1 }.storage
        (firstEntry { twoByTwo 2 with hbmNodeAliase := 1 }.hbmEntries).getEntry ni 0x100000001 =
          place :=
  alias_transparent (twoByTwo 2) (twoByTwo_asserted (by decide)) (by decide) (by decide) (by decide)
    (firstEntry _) (firstEntry _) (by decide) (by decide)

example : (twoByTwo 2).storage (firstEntry (twoByTwo 2).hbmEntries).getEntry ⟨1, 1⟩ 0x100000041 =
    some ⟨.north, 0, 1, 1⟩ := by
  decide

end Arch

end SoftHier.Mem
