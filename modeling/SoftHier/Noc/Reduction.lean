import SoftHier.Noc.Coverage

/-!
# Collective reductions

A collective read spawns a tree of requests.  A request that branches waits for its kids, each of
which starts with a copy of its buffer; a request handed to a target gets the target's data.  When a
request ends, its buffer is merged into the buffer of its parent, and the last kid ends the parent;
the root answers the initiator.

* `CollType.combine`, `processCollectiveOperations`: the merge.
* `handleRequestEnd`: the end of a request, up the tree.
* `Reduction`: the state of one reduction in the network, `Reduction.Step` its steps.
* `Collective.targets`, `reduce`: the targets, and the fold of the operation over their data.
-/

namespace SoftHier.Noc

/-- The integer reductions among `REQ_COLL_TYPE`. -/
inductive CollType where
  | addUint16
  | addInt16
  | maxUint16
  | maxInt16
  deriving DecidableEq, Repr

/-- One element of `process_collective_operations`. -/
def CollType.combine : CollType → BitVec 16 → BitVec 16 → BitVec 16
  | .addUint16, dst, src => dst + src
  | .addInt16, dst, src => dst + src
  | .maxUint16, dst, src => if src.ult dst then dst else src
  | .maxInt16, dst, src => if src.slt dst then dst else src

/-- A data buffer of `n` elements. -/
abbrev Buffer (n : Nat) := Fin n → BitVec 16

/-- `process_collective_operations` -/
def processCollectiveOperations {n : Nat} (t : CollType) (dst src : Buffer n) : Buffer n :=
  fun i => t.combine (dst i) (src i)

/-- What the routers keep of a request: `REQ_PARENT`, `REQ_PEND_KIDS` and its data. -/
structure Request (n : Nat) where
  parent : Option Nat
  pendKids : Int
  data : Buffer n

/-- A reduction in the network.  Requests are known by number; `moving` are those in the routers,
`atTarget` those handed to a target that has not completed them. -/
structure Reduction (n : Nat) where
  moving : List (Nat × Item)
  atTarget : List (Nat × Pos)
  reqs : Nat → Request n
  fresh : Nat
  answers : List (Buffer n)

section

variable {n : Nat}

/-- `FlooNoc::handle_request_end`, up a chain of at most `fuel` requests. -/
def handleRequestEnd (t : CollType) :
    Nat → (Nat → Request n) → List (Buffer n) → Nat →
      Option ((Nat → Request n) × List (Buffer n))
  | 0, _, _, _ => none
  | fuel + 1, reqs, answers, req =>
      match (reqs req).parent with
      | some parent =>
          let data := processCollectiveOperations t (reqs parent).data (reqs req).data
          let pendKids := (reqs parent).pendKids - 1
          let reqs := Function.update reqs parent ⟨(reqs parent).parent, pendKids, data⟩
          if pendKids ≤ 0 then handleRequestEnd t fuel reqs answers parent
          else some (reqs, answers)
      | none => some (reqs, answers ++ [(reqs req).data])

namespace Reduction

/-- A request ends. -/
def finish (s : Reduction n) (t : CollType) (req : Nat) : Option (Reduction n) :=
  (handleRequestEnd t s.fresh s.reqs s.answers req).map fun (reqs, answers) =>
    { s with reqs := reqs, answers := answers }

/-- A request leaves a router. -/
def pass (s : Reduction n) (req : Nat) (b : Momentum) : Hop → Reduction n
  | .target p => { s with atTarget := s.atTarget ++ [(req, p)] }
  | .router p => { s with moving := s.moving ++ [(req, .input p b)] }

/-- One kid of `Router::collective_generate`. -/
def spawn (s : Reduction n) (req : Nat) (r : Pos) (b : Momentum) : Reduction n :=
  let kid : Request n := ⟨some req, 0, (s.reqs req).data⟩
  let parent : Request n := ⟨(s.reqs req).parent, (s.reqs req).pendKids + 1, (s.reqs req).data⟩
  { s with
    moving := s.moving ++ [(s.fresh, .generated r b)]
    reqs := Function.update (Function.update s.reqs s.fresh kid) req parent
    fresh := s.fresh + 1 }

/-- `Router::collective_generate`: one kid for each branch. -/
def generate (s : Reduction n) (req : Nat) (r : Pos) : List Momentum → Reduction n
  | [] => s
  | b :: bs => generate (s.spawn req r b) req r bs

/-- A router examines a request, with no queue stalled. -/
def examine (M : Mesh) (c : Collective) (t : CollType) (s : Reduction n) (req : Nat) (i : Item) :
    Option (Reduction n) :=
  let s := { s with moving := s.moving.erase (req, i) }
  match i with
  | .input r momentum =>
      match collectiveAnalyze M c momentum r with
      | [] => s.finish t req
      | [b] => some (s.pass req b (branchHop M r b))
      | bs => some (s.generate req r bs)
  | .generated r b => some (s.pass req b (route M r (r.move b)))

/-- The target at `p` completes a request: its data overwrites the buffer of the request. -/
def complete (t : CollType) (held : Pos → Buffer n) (s : Reduction n) (req : Nat) (p : Pos) :
    Option (Reduction n) :=
  let request := s.reqs req
  let s := { s with
    atTarget := s.atTarget.erase (req, p)
    reqs := Function.update s.reqs req ⟨request.parent, request.pendKids, held p⟩ }
  s.finish t req

/-- The next thing that happens, in any order. -/
inductive Step (M : Mesh) (c : Collective) (t : CollType) (held : Pos → Buffer n) :
    Reduction n → Reduction n → Prop where
  | examine {s s' : Reduction n} {req : Nat} {i : Item} : (req, i) ∈ s.moving →
      s.examine M c t req i = some s' → Step M c t held s s'
  | complete {s s' : Reduction n} {req : Nat} {p : Pos} : (req, p) ∈ s.atTarget →
      s.complete t held req p = some s' → Step M c t held s s'

/-- The request of the initiator, with whatever its read buffer holds, as it is injected. -/
def init (c : Collective) (prior : Buffer n) : Reduction n where
  moving := [(0, c.start)]
  atTarget := []
  reqs := fun _ => ⟨none, 0, prior⟩
  fresh := 1
  answers := []

/-- A run of the reduction. -/
def Run (M : Mesh) (c : Collective) (t : CollType) (held : Pos → Buffer n) (prior : Buffer n)
    (s : Reduction n) : Prop :=
  Relation.ReflTransGen (Step M c t held) (init c prior) s

end Reduction

/-! ## What the result should be -/

/-- The selected clusters. -/
def Collective.targets (M : Mesh) (c : Collective) : List Pos :=
  ((List.range' 1 M.nbX ×ˢ List.range' 1 M.nbY).map fun p => Pos.mk p.1 p.2).filter
    fun p => decide (c.Selects M p)

/-- The neutral element of an operation. -/
def CollType.unit : CollType → BitVec 16
  | .addUint16 | .addInt16 | .maxUint16 => 0
  | .maxInt16 => BitVec.intMin 16

/-- The fold of the operation over the data of the selected clusters. -/
def reduce (M : Mesh) (c : Collective) (t : CollType) (held : Pos → Buffer n) : Buffer n :=
  fun i => ((c.targets M).map fun p => held p i).foldr t.combine t.unit

/-- The request branches. -/
def Item.branching (M : Mesh) (c : Collective) : Item → Nat
  | .input r m => if 2 ≤ (collectiveAnalyze M c m r).length then 1 else 0
  | .generated _ _ => 0

/-- Requests that branch in the tree of an item. -/
def Item.branchings (M : Mesh) (c : Collective) (i : Item) : Nat :=
  expandCount (handle M c free) (Item.branching M c) (i.rank M + 1) i

end

end SoftHier.Noc
