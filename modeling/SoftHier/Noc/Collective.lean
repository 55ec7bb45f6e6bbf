import SoftHier.Lib.Expansion
import SoftHier.Noc.Mesh

/-!
# Collective requests in the routers

A collective request carries its source and two masks, and a momentum, the direction it travels in.
A router that examines one asks `collectiveAnalyze` for its branches.  No branch answers the
request, a single branch rewrites it in place, several branches spawn one kid each, which wait in
the router's generated queues.

* `checkTarget`, `checkMomentum`, `collectiveAnalyze`: the decisions.
* `Item`: a request at the head of an input queue, or a kid in a generated queue.
* `handle`: what the fsm of a router does with an item, given which output queues are stalled.
* `multicast`: the recursion from an item when nothing is stalled.
-/

namespace SoftHier.Noc

/-- `MOMENTUM_*`, also the direction of an output queue. -/
inductive Momentum where
  | right
  | left
  | up
  | down
  | zero
  deriving DecidableEq, Repr

/-- The neighbour of a position. -/
def Pos.move (p : Pos) : Momentum → Pos
  | .right => ⟨p.x + 1, p.y⟩
  | .left => ⟨p.x - 1, p.y⟩
  | .up => ⟨p.x, p.y + 1⟩
  | .down => ⟨p.x, p.y - 1⟩
  | .zero => p

/-- Source position and masks of a collective request. -/
structure Collective where
  src : Pos
  rowMask : Nat
  colMask : Nat
  deriving DecidableEq, Repr

/-- `check_target`, in cluster coordinates. -/
def checkTarget (curX curY srcX srcY rowMask colMask : Nat) : Bool :=
  decide (srcX &&& rowMask = curX &&& rowMask) && decide (srcY &&& colMask = curY &&& colMask)

/-- `check_momentum`: a target lies further in the direction; it is never asked for zero. -/
def checkMomentum (momentum : Momentum)
    (curX curY srcX srcY dimX dimY rowMask colMask : Nat) : Bool :=
  match momentum with
  | .right => (List.range' (curX + 1) (dimX - (curX + 1))).any fun i =>
      checkTarget i curY srcX srcY rowMask colMask
  | .left => (List.range curX).any fun i => checkTarget i curY srcX srcY rowMask colMask
  | .up => (List.range' (curY + 1) (dimY - (curY + 1))).any fun i =>
      checkTarget curX i srcX srcY rowMask colMask
  | .down => (List.range curY).any fun i => checkTarget curX i srcX srcY rowMask colMask
  | .zero => false

/-- `Router::collective_analyze` of the router at `r`. -/
def collectiveAnalyze (M : Mesh) (c : Collective) (momentum : Momentum) (r : Pos) :
    List Momentum :=
  let srcX := c.src.x - 1
  let srcY := c.src.y - 1
  let curX := r.x - 1
  let curY := r.y - 1
  let dimX := M.dimX - 2
  let dimY := M.dimY - 2
  let here := if checkTarget curX curY srcX srcY c.rowMask c.colMask then [Momentum.zero] else []
  let push := fun d =>
    if checkMomentum d curX curY srcX srcY dimX dimY c.rowMask c.colMask then [d] else []
  match momentum with
  | .zero => here ++ push .right ++ push .left ++ push .up ++ push .down
  | .right => here ++ push .right ++ push .up ++ push .down
  | .left => here ++ push .left ++ push .up ++ push .down
  | .up => here ++ push .up
  | .down => here ++ push .down

/-- A collective request in a router. -/
inductive Item where
  /-- At the head of an input queue of router `r`. -/
  | input (r : Pos) (momentum : Momentum)
  /-- In the generated queue `momentum` of router `r`. -/
  | generated (r : Pos) (momentum : Momentum)
  deriving DecidableEq, Repr

/-- A request leaves a router: it arrives at the next one, or is handed to a target. -/
def arrive (momentum : Momentum) : Hop → List Item × List Pos
  | .target p => ([], [p])
  | .router p => ([.input p momentum], [])

/-- Where a request rewritten for its single branch goes. -/
def branchHop (M : Mesh) (r : Pos) (b : Momentum) : Hop :=
  if r.move b = r then .target r
  else if M.HasRouter (r.move b) then .router (r.move b) else .target (r.move b)

/-- The collective branches of `Router::fsm_handler`: what an item becomes, and the targets it is
handed to.  `stalled` tells which output queues are stalled; a request that finds its queue stalled
stays where it is, with the momentum already rewritten. -/
def handle (M : Mesh) (c : Collective) (stalled : Momentum → Bool) : Item → List Item × List Pos
  | .input r momentum =>
      match collectiveAnalyze M c momentum r with
      | [] => ([], [])
      | [b] => if stalled b then ([.input r b], []) else arrive b (branchHop M r b)
      | bs => (bs.map fun b => .generated r b, [])
  | .generated r b =>
      if stalled b then ([.generated r b], []) else arrive b (route M r (r.move b))

section

variable {M : Mesh} {c : Collective} {stalled : Momentum → Bool} {r : Pos} {m b b' : Momentum}

theorem handle_none (none : collectiveAnalyze M c m r = []) :
    handle M c stalled (.input r m) = ([], []) := by
  rw [handle, none]

theorem handle_single (single : collectiveAnalyze M c m r = [b]) :
    handle M c stalled (.input r m) =
      if stalled b then ([.input r b], []) else arrive b (branchHop M r b) := by
  rw [handle, single]

theorem handle_many {bs : List Momentum} (many : collectiveAnalyze M c m r = b :: b' :: bs) :
    handle M c stalled (.input r m) =
      ((collectiveAnalyze M c m r).map fun b => .generated r b, []) := by
  rw [handle, many]

end

/-- Nothing is stalled. -/
def free : Momentum → Bool := fun _ => false

/-- The targets a request is handed to when nothing is stalled, if `n` generations are enough. -/
def multicast (M : Mesh) (c : Collective) (n : Nat) (i : Item) : Option (List Pos) :=
  expand (handle M c free) n i

/-- The request as the source's network interface injects it. -/
def Collective.start (c : Collective) : Item := .input c.src .zero

/-- The cluster at `p` is selected by the source and the masks. -/
def Collective.Selects (M : Mesh) (c : Collective) (p : Pos) : Prop :=
  M.HasRouter p ∧
    checkTarget (p.x - 1) (p.y - 1) (c.src.x - 1) (c.src.y - 1) c.rowMask c.colMask = true

instance (M : Mesh) (c : Collective) (p : Pos) : Decidable (c.Selects M p) :=
  inferInstanceAs (Decidable (_ ∧ _))

end SoftHier.Noc
