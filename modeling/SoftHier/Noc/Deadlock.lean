import SoftHier.Noc.Mesh
import Mathlib.Logic.Relation
import Mathlib.Order.WellFounded

/-!
# Unicast routing is free of deadlocks

A request in the input queue of a router waits for room in the input queue of the next one.  A link
stands for the queue at its end, and one link depends on the next if some unicast request goes over
both.

* `Mesh.Depends`: the dependency of links.
* `rank_lt_of_depends`: requests move along the row first, then along the column, and never turn
  back.
* `unicast_deadlock_free`: no cycle of links, and in every set of links one that waits for none of
  them.
-/

namespace SoftHier.Noc

/-- A directed link from one router to the next. -/
structure Link where
  src : Pos
  dst : Pos
  deriving DecidableEq, Repr

/-- The routers that a request for `dest` passes when it is injected at the cluster of router
`start`. -/
inductive Mesh.Visits (M : Mesh) (start dest : Pos) : Pos → Prop where
  | inject : M.HasRouter start → M.Visits start dest start
  | hop {p q : Pos} : M.Visits start dest p → route M p dest = .router q → M.Visits start dest q

/-- Some unicast request is routed over `a` and then over `b`. -/
def Mesh.Depends (M : Mesh) (a b : Link) : Prop :=
  ∃ start dest, M.Mapped dest ∧ M.Visits start dest a.src ∧ route M a.src dest = .router a.dst ∧
    b.src = a.dst ∧ route M b.src dest = .router b.dst

/-- The links that can follow: those along a column come after those along a row. -/
def Link.rank (M : Mesh) (l : Link) : Nat :=
  if l.src.y = l.dst.y then
    M.nbY + 1 + if l.src.x < l.dst.x then M.nbX - l.src.x else l.src.x
  else if l.src.y < l.dst.y then M.nbY - l.src.y else l.src.y

section

variable {M : Mesh} {start dest p q : Pos} {a b : Link}

theorem hasRouter_of_route (hop : route M p dest = .router q) : M.HasRouter q := by
  unfold route at hop
  split at hop
  · cases hop
  · dsimp only at hop
    split at hop
    · rename_i router
      cases hop
      exact router
    · cases hop

theorem Mesh.Visits.hasRouter (visits : M.Visits start dest p) : M.HasRouter p := by
  cases visits with
  | inject router => exact router
  | hop _ routed => exact hasRouter_of_route routed

/-- A hop to a router is one along the row to the column of the request, or one along that
column. -/
theorem route_cases (hd : M.Mapped dest) (hop : route M p dest = .router q) :
    (q.y = p.y ∧ ((viaColumn dest p.y < p.x ∧ q.x = p.x - 1) ∨
        (p.x < viaColumn dest p.y ∧ q.x = p.x + 1))) ∨
      (q.x = p.x ∧ viaColumn dest p.y = p.x ∧
        ((dest.y < p.y ∧ q.y = p.y - 1) ∨ (p.y < dest.y ∧ q.y = p.y + 1))) := by
  have other : dest ≠ p := by
    intro same
    unfold route at hop
    rw [if_pos same] at hop
    cases hop
  have next : q = getNextRouterPos M p dest := by
    rw [route_of_ne other] at hop
    split at hop
    · exact (Hop.router.inj hop).symm
    · cases hop
  rw [next]
  by_cases column : viaColumn dest p.y = p.x
  · have row : dest.y ≠ p.y := by
      intro same
      apply other
      unfold viaColumn at column
      rw [if_neg fun both => both.2 same] at column
      cases dest
      cases p
      cases column
      cases same
      rfl
    rw [getNextRouterPos_column hd.x_le column row]
    apply Or.inr
    refine ⟨rfl, column, ?_⟩
    dsimp only
    split
    · rename_i below
      exact Or.inl ⟨below, rfl⟩
    · exact Or.inr ⟨by omega, rfl⟩
  · rw [getNextRouterPos_row hd.x_le column]
    apply Or.inl
    refine ⟨rfl, ?_⟩
    dsimp only
    split
    · rename_i left
      exact Or.inl ⟨left, rfl⟩
    · exact Or.inr ⟨by omega, rfl⟩

/-- After a hop along the column there is none along the row: the last hop to a west edge node
leaves the routers. -/
theorem column_hop (hd : M.Mapped dest) (column : viaColumn dest p.y = p.x) (same : q.x = p.x)
    (inside : 1 ≤ q.x) (hop : route M q dest = .router b.dst) :
    b.dst.x = q.x ∧ ((dest.y < q.y ∧ b.dst.y = q.y - 1) ∨ (q.y < dest.y ∧ b.dst.y = q.y + 1)) := by
  have router := hasRouter_of_route hop
  unfold Mesh.HasRouter at router
  obtain ⟨row, along⟩ | ⟨column', -, along⟩ := route_cases hd hop
  · exfalso
    unfold viaColumn at column along
    split at column
    · split at along <;> omega
    · split at along <;> omega
  · exact ⟨column', along⟩

theorem rank_lt_of_depends (depends : M.Depends a b) : b.rank M < a.rank M := by
  obtain ⟨start, dest, hd, visits, first, joint, second⟩ := depends
  have routerA := visits.hasRouter
  have routerJ := hasRouter_of_route first
  have routerB := hasRouter_of_route second
  rw [joint] at second
  unfold Mesh.HasRouter at routerA routerJ routerB
  unfold Link.rank
  rw [joint]
  obtain ⟨row, along⟩ | ⟨column, via, along⟩ := route_cases hd first
  · obtain ⟨row', along'⟩ | ⟨column', -, along'⟩ := route_cases hd second
    · -- the column aimed at is still the same
      rw [row] at along'
      rw [if_pos row'.symm, if_pos row.symm]
      split <;> split <;> omega
    · have turn : ¬ a.dst.y = b.dst.y := by omega
      rw [if_neg turn, if_pos row.symm]
      split <;> omega
  · obtain ⟨column', along'⟩ := column_hop (b := b) hd via column routerJ.1 second
    have turn : ¬ a.src.y = a.dst.y := by omega
    have turn' : ¬ a.dst.y = b.dst.y := by omega
    rw [if_neg turn, if_neg turn']
    split <;> split <;> omega

end

/-- The links of a mesh depend on each other in no cycle, so that in every set of links there is
one that depends on none of them. -/
theorem unicast_deadlock_free (M : Mesh) :
    (∀ a, ¬ Relation.TransGen M.Depends a a) ∧
      ∀ S : Set Link, S.Nonempty → ∃ a ∈ S, ∀ b ∈ S, ¬ M.Depends a b := by
  have decreasing : ∀ a b, Relation.TransGen M.Depends a b → b.rank M < a.rank M := by
    intro a b path
    induction path with
    | single depends => exact rank_lt_of_depends depends
    | tail _ depends ih => exact Nat.lt_trans (rank_lt_of_depends depends) ih
  refine ⟨fun a cycle => Nat.lt_irrefl _ (decreasing a a cycle), fun S some => ?_⟩
  obtain ⟨a, mem, least⟩ := (measure (Link.rank M)).wf.has_min S some
  exact ⟨a, mem, fun b mem' depends => least b mem' (rank_lt_of_depends depends)⟩

/-- A request along the first row of a mesh of three by one. -/
example : (⟨3, 1⟩ : Mesh).Depends ⟨⟨1, 1⟩, ⟨2, 1⟩⟩ ⟨⟨2, 1⟩, ⟨3, 1⟩⟩ :=
  ⟨⟨1, 1⟩, ⟨3, 1⟩, .cluster (by decide), .inject (by decide), by decide, rfl, by decide⟩

end SoftHier.Noc
