import Mathlib.Logic.Basic
import Mathlib.Data.Nat.Init

/-!
# Unicast routing of the mesh

The network has one router per cluster, at positions `(1, 1)` to `(nbX, nbY)`, and a border of edge
nodes around them.  `getNextRouterPos` is the routing function of a router; the fsm hands a request
to its own position's target, to the next router, or to the target at a next position that has
none.

* `deliver`: the node a request is finally handed to.
* `exists_deliver_eq`: routing always ends, and where.
* `routesTo_iff`: it ends at the destination exactly when the destination is no east edge node or
  the router is already in its row.

Coordinates are never negative: routers start at one, and no move leaves the border.
-/

namespace SoftHier.Noc

/-- A position of the network, borders included. -/
structure Pos where
  x : Nat
  y : Nat
  deriving DecidableEq, Repr

/-- A mesh of `nbX` times `nbY` clusters. -/
structure Mesh where
  nbX : Nat
  nbY : Nat
  deriving DecidableEq, Repr

namespace Mesh

variable (M : Mesh)

/-- `dim_x`, with the two border columns the generator adds. -/
def dimX : Nat := M.nbX + 2

/-- `dim_y`, with the two border rows. -/
def dimY : Nat := M.nbY + 2

/-- There is a router at this position. -/
def HasRouter (p : Pos) : Prop := 1 ≤ p.x ∧ p.x ≤ M.nbX ∧ 1 ≤ p.y ∧ p.y ≤ M.nbY

instance (p : Pos) : Decidable (M.HasRouter p) := inferInstanceAs (Decidable (_ ∧ _))

/-- The nodes the generator maps: clusters, and the edge nodes west, north, east and south. -/
inductive Mapped : Pos → Prop where
  | cluster {p : Pos} : M.HasRouter p → Mapped p
  | west {y : Nat} : 1 ≤ y → y ≤ M.nbY → Mapped ⟨0, y⟩
  | north {x : Nat} : 1 ≤ x → x ≤ M.nbX → Mapped ⟨x, M.nbY + 1⟩
  | east {y : Nat} : 1 ≤ y → y ≤ M.nbY → Mapped ⟨M.nbX + 1, y⟩
  | south {x : Nat} : 1 ≤ x → x ≤ M.nbX → Mapped ⟨x, 0⟩

end Mesh

/-- `Router::get_next_router_pos` of the router at `r`. -/
def getNextRouterPos (M : Mesh) (r dest : Pos) : Pos :=
  let effDestX :=
    if dest.x = 0 ∧ dest.y ≠ r.y then 1
    else if dest.x = M.dimX + 1 ∧ dest.y ≠ r.y then M.dimX
    else dest.x
  if effDestX = r.x ∧ dest.y = r.y then r
  else if effDestX = r.x then ⟨r.x, if dest.y < r.y then r.y - 1 else r.y + 1⟩
  else ⟨if effDestX < r.x then r.x - 1 else r.x + 1, r.y⟩

/-- Where the fsm of a router passes a request on to. -/
inductive Hop where
  | target (p : Pos)
  | router (p : Pos)
  deriving DecidableEq, Repr

/-- The unicast branch of `Router::fsm_handler`. -/
def route (M : Mesh) (r dest : Pos) : Hop :=
  if dest = r then .target r
  else
    let next := getNextRouterPos M r dest
    if M.HasRouter next then .router next else .target next

/-- The node a request at router `r` is finally handed to, if it gets there in `n` hops. -/
def deliver (M : Mesh) (dest : Pos) : Nat → Pos → Option Pos
  | 0, _ => none
  | n + 1, r =>
      match route M r dest with
      | .target p => some p
      | .router p => deliver M dest n p

/-- Routing from `r` ends, and ends at `dest`. -/
def RoutesTo (M : Mesh) (r dest : Pos) : Prop := ∃ n, deliver M dest n r = some dest

section

variable {M : Mesh} {r dest p : Pos}

theorem deliver_target {n : Nat} (hop : route M r dest = .target p) :
    deliver M dest (n + 1) r = some p := by
  rw [deliver, hop]

theorem deliver_router {n : Nat} (hop : route M r dest = .router p) :
    deliver M dest (n + 1) r = deliver M dest n p := by
  rw [deliver, hop]

/-- More hops do not change where a request ends. -/
theorem deliver_mono {n k : Nat} (h : deliver M dest n r = some p) :
    deliver M dest (n + k) r = some p := by
  induction n generalizing r with
  | zero => cases h
  | succ n ih =>
      rw [Nat.succ_add_eq_add_succ, Nat.add_succ]
      cases hop : route M r dest with
      | target q =>
          rw [deliver_target hop] at h ⊢
          exact h
      | router q =>
          rw [deliver_router hop] at h ⊢
          exact ih h

theorem deliver_unique {n k : Nat} {q : Pos} (h : deliver M dest n r = some p)
    (h' : deliver M dest k r = some q) : p = q := by
  have h1 := deliver_mono (k := k) h
  have h2 := deliver_mono (k := n) h'
  rw [Nat.add_comm, h1] at h2
  exact Option.some.inj h2

/-! ## One hop -/

/-- The column a request at row `y` is first routed to. -/
def viaColumn (dest : Pos) (y : Nat) : Nat := if dest.x = 0 ∧ dest.y ≠ y then 1 else dest.x

/-- No mapped node lies in the column the east test of the routing function asks for. -/
theorem effDestX_eq (inside : dest.x ≤ M.nbX + 1) :
    (if dest.x = 0 ∧ dest.y ≠ r.y then 1
      else if dest.x = M.dimX + 1 ∧ dest.y ≠ r.y then M.dimX else dest.x) =
      viaColumn dest r.y := by
  have never : ¬ (dest.x = M.dimX + 1 ∧ dest.y ≠ r.y) := by
    unfold Mesh.dimX
    omega
  rw [if_neg never]
  rfl

/-- Outside of its column a request moves along the row. -/
theorem getNextRouterPos_row (inside : dest.x ≤ M.nbX + 1) (column : viaColumn dest r.y ≠ r.x) :
    getNextRouterPos M r dest =
      ⟨if viaColumn dest r.y < r.x then r.x - 1 else r.x + 1, r.y⟩ := by
  unfold getNextRouterPos
  simp only [effDestX_eq inside]
  rw [if_neg (fun both => column both.1), if_neg column]

/-- In its column a request moves along the column. -/
theorem getNextRouterPos_column (inside : dest.x ≤ M.nbX + 1) (column : viaColumn dest r.y = r.x)
    (row : dest.y ≠ r.y) :
    getNextRouterPos M r dest = ⟨r.x, if dest.y < r.y then r.y - 1 else r.y + 1⟩ := by
  unfold getNextRouterPos
  simp only [effDestX_eq inside]
  rw [if_neg (fun both => row both.2), if_pos column]

theorem route_of_ne (other : dest ≠ r) :
    route M r dest = if M.HasRouter (getNextRouterPos M r dest)
      then .router (getNextRouterPos M r dest) else .target (getNextRouterPos M r dest) := by
  unfold route
  rw [if_neg other]

/-- The node reached from row `y`: an east edge node is approached along the row of the router. -/
def Mesh.endNode (M : Mesh) (dest : Pos) (y : Nat) : Pos :=
  if dest.x = M.nbX + 1 then ⟨M.nbX + 1, y⟩ else dest

/-- Hops left to a destination. -/
def distance (r dest : Pos) : Nat :=
  ((dest.x - r.x) + (r.x - dest.x)) + ((dest.y - r.y) + (r.y - dest.y))

theorem Mesh.Mapped.x_le (hd : M.Mapped dest) : dest.x ≤ M.nbX + 1 := by
  cases hd with
  | cluster h => exact Nat.le_succ_of_le h.2.1
  | west => exact Nat.zero_le _
  | north _ h => exact Nat.le_succ_of_le h
  | east => exact Nat.le_refl _
  | south _ h => exact Nat.le_succ_of_le h

/-- A node mapped in a border row is in a column of routers. -/
theorem Mesh.Mapped.border_row (hd : M.Mapped dest) (row : dest.y = 0 ∨ dest.y = M.nbY + 1) :
    1 ≤ dest.x ∧ dest.x ≤ M.nbX := by
  cases hd with
  | cluster h =>
    have := h.2.2
    omega
  | west h1 h2 => simp only at row; omega
  | north h1 h2 => exact ⟨h1, h2⟩
  | east h1 h2 => simp only at row; omega
  | south h1 h2 => exact ⟨h1, h2⟩

/-- A node mapped off the border rows has the row of a router. -/
theorem Mesh.Mapped.y_le (hd : M.Mapped dest) : dest.y ≤ M.nbY + 1 := by
  cases hd with
  | cluster h => exact Nat.le_succ_of_le h.2.2.2
  | west _ h => exact Nat.le_succ_of_le h
  | north => exact Nat.le_refl _
  | east _ h => exact Nat.le_succ_of_le h
  | south => exact Nat.zero_le _

/-- What one hop does: it ends at the end node, or moves to a router that is nearer and has the same
end node. -/
inductive HopTo (M : Mesh) (r dest : Pos) : Hop → Prop where
  | target : HopTo M r dest (.target (M.endNode dest r.y))
  | router {p : Pos} : M.HasRouter p → distance p dest < distance r dest →
      M.endNode dest p.y = M.endNode dest r.y → HopTo M r dest (.router p)

/-- Along the column only the last hop may leave the routers, and then it is to the destination. -/
theorem hopTo_column (hr : M.HasRouter r) (hd : M.Mapped dest) (other : dest ≠ r)
    (column : viaColumn dest r.y = r.x) : HopTo M r dest (route M r dest) := by
  obtain ⟨rx1, rx2, ry1, ry2⟩ := hr
  have row : dest.y ≠ r.y := by
    intro same
    refine other ?_
    have sameColumn : dest.x = r.x := by
      rw [← column, viaColumn, if_neg (fun both => both.2 same)]
    cases dest
    cases r
    simp_all
  have top := hd.y_le
  have west : dest.x = 0 → r.x = 1 := by
    intro zero
    rw [← column, viaColumn, if_pos ⟨zero, row⟩]
  have inner : dest.x ≠ 0 → dest.x = r.x := by
    intro nonzero
    rw [← column, viaColumn, if_neg (fun both => nonzero both.1)]
  have notEast : dest.x ≠ M.nbX + 1 := by omega
  rw [route_of_ne other, getNextRouterPos_column hd.x_le column row]
  obtain ⟨y, hy⟩ : ∃ y, y = if dest.y < r.y then r.y - 1 else r.y + 1 := ⟨_, rfl⟩
  rw [← hy]
  have move : (dest.y < r.y ∧ y = r.y - 1) ∨ (r.y < dest.y ∧ y = r.y + 1) := by
    split at hy <;> omega
  by_cases next : M.HasRouter ⟨r.x, y⟩
  · rw [if_pos next]
    refine .router next ?_ ?_
    · unfold distance
      dsimp only
      omega
    · rw [Mesh.endNode, Mesh.endNode, if_neg notEast, if_neg notEast]
  · rw [if_neg next]
    have border : dest.y = y ∧ (dest.y = 0 ∨ dest.y = M.nbY + 1) := by
      unfold Mesh.HasRouter at next
      dsimp only at next
      omega
    have sameColumn := inner (by have := hd.border_row border.2; omega)
    have reached : M.endNode dest r.y = ⟨r.x, y⟩ := by
      rw [Mesh.endNode, if_neg notEast, ← border.1, ← sameColumn]
    rw [← reached]
    exact .target

/-- Along the row only the last hop may leave the routers, and then it is to the end node. -/
theorem hopTo_row (hr : M.HasRouter r) (hd : M.Mapped dest) (other : dest ≠ r)
    (column : viaColumn dest r.y ≠ r.x) : HopTo M r dest (route M r dest) := by
  obtain ⟨rx1, rx2, ry1, ry2⟩ := hr
  have inside := hd.x_le
  have via : (dest.x = 0 ∧ dest.y ≠ r.y ∧ viaColumn dest r.y = 1) ∨
      (viaColumn dest r.y = dest.x ∧ ¬ (dest.x = 0 ∧ dest.y ≠ r.y)) := by
    unfold viaColumn
    split
    · rename_i both
      exact Or.inl ⟨both.1, both.2, rfl⟩
    · rename_i not
      exact Or.inr ⟨rfl, not⟩
  rw [route_of_ne other, getNextRouterPos_row inside column]
  obtain ⟨x, hx⟩ : ∃ x, x = if viaColumn dest r.y < r.x then r.x - 1 else r.x + 1 := ⟨_, rfl⟩
  rw [← hx]
  have move : (viaColumn dest r.y < r.x ∧ x = r.x - 1) ∨
      (r.x < viaColumn dest r.y ∧ x = r.x + 1) := by
    split at hx <;> omega
  by_cases next : M.HasRouter ⟨x, r.y⟩
  · rw [if_pos next]
    refine .router next ?_ rfl
    unfold distance
    dsimp only
    omega
  · rw [if_neg next]
    have reached : M.endNode dest r.y = ⟨x, r.y⟩ := by
      unfold Mesh.HasRouter at next
      dsimp only at next
      unfold Mesh.endNode
      by_cases east : dest.x = M.nbX + 1
      · rw [if_pos east, Pos.mk.injEq]
        exact ⟨by omega, rfl⟩
      · -- the west edge node of this row
        have west : dest.x = x ∧ dest.y = r.y := by omega
        rw [if_neg east, ← west.1, ← west.2]
    rw [← reached]
    exact .target

theorem hopTo_route (hr : M.HasRouter r) (hd : M.Mapped dest) :
    HopTo M r dest (route M r dest) := by
  by_cases same : dest = r
  · subst same
    have notEast : dest.x ≠ M.nbX + 1 := by
      have := hr.2.1
      omega
    have reached : M.endNode dest dest.y = dest := by rw [Mesh.endNode, if_neg notEast]
    have stop : route M dest dest = .target (M.endNode dest dest.y) := by
      rw [reached, route, if_pos rfl]
    rw [stop]
    exact .target
  · by_cases column : viaColumn dest r.y = r.x
    · exact hopTo_column hr hd same column
    · exact hopTo_row hr hd same column

end

/-! ## Where routing ends -/

/-- Routing from any router to any mapped node ends, at the end node. -/
theorem exists_deliver_eq (M : Mesh) {dest : Pos} (hd : M.Mapped dest) (r : Pos)
    (hr : M.HasRouter r) : ∃ n, deliver M dest n r = some (M.endNode dest r.y) := by
  induction hk : distance r dest using Nat.strongRecOn generalizing r with
  | ind k ih =>
      have hop := hopTo_route hr hd
      cases hroute : route M r dest with
      | target p =>
          rw [hroute] at hop
          cases hop
          exact ⟨1, deliver_target hroute⟩
      | router p =>
          rw [hroute] at hop
          cases hop with
          | router hp nearer same =>
            obtain ⟨n, ends⟩ := ih (distance p dest) (hk ▸ nearer) p hp rfl
            exact ⟨n + 1, by rw [deliver_router hroute, ends, same]⟩

/-- A request ends at its destination exactly when the destination is no east edge node or lies in
the row of the router. -/
theorem routesTo_iff (M : Mesh) (r dest : Pos) (hr : M.HasRouter r) (hd : M.Mapped dest) :
    RoutesTo M r dest ↔ dest.x ≠ M.nbX + 1 ∨ dest.y = r.y := by
  obtain ⟨n, ends⟩ := exists_deliver_eq M hd r hr
  have reached : RoutesTo M r dest ↔ M.endNode dest r.y = dest := by
    constructor
    · rintro ⟨k, arrives⟩
      exact deliver_unique ends arrives
    · intro same
      exact ⟨n, by rw [ends, same]⟩
  rw [reached]
  unfold Mesh.endNode
  split
  · rename_i east
    constructor
    · intro same
      exact Or.inr (congrArg Pos.y same).symm
    · rintro (west | row)
      · exact absurd east west
      · rw [← east, ← row]
  · rename_i notEast
    exact iff_of_true rfl (Or.inl notEast)

theorem routesTo_iff_cluster :
    RoutesTo ⟨2, 2⟩ ⟨1, 1⟩ ⟨2, 2⟩ ↔ (2 : Nat) ≠ 2 + 1 ∨ (2 : Nat) = 1 :=
  routesTo_iff ⟨2, 2⟩ ⟨1, 1⟩ ⟨2, 2⟩ (by decide) (.cluster (by decide))

/-- From the first row of a mesh of two by two, the east edge node of the second row is missed: the
request is handed to the one of the first row. -/
theorem routesTo_east_fails :
    (⟨2, 2⟩ : Mesh).HasRouter ⟨1, 1⟩ ∧ (⟨2, 2⟩ : Mesh).Mapped ⟨3, 2⟩ ∧
      deliver ⟨2, 2⟩ ⟨3, 2⟩ 2 ⟨1, 1⟩ = some ⟨3, 1⟩ ∧ ¬ RoutesTo ⟨2, 2⟩ ⟨1, 1⟩ ⟨3, 2⟩ := by
  have ends : deliver ⟨2, 2⟩ ⟨3, 2⟩ 2 ⟨1, 1⟩ = some ⟨3, 1⟩ := by decide
  refine ⟨by decide, .east (by decide) (by decide), ends, ?_⟩
  rintro ⟨n, arrives⟩
  exact absurd (deliver_unique ends arrives) (by decide)

end SoftHier.Noc
