import SoftHier.Noc.Collective

/-!
# Coverage of the multicast tree

`dirTo r p` is the direction in which a router at `r` sends a request for `p`: along the row to the
column of `p`, then along the column.  A request covers the selected clusters whose direction is
among those its momentum allows, a kid those in its own direction, and every router hands on exactly
what it covers.

* `collectiveAnalyze_eq`: the branches are the allowed directions that pass their test.
* `handle_conserve`: what an item covers is what it becomes covers, together with what it delivers.
* `multicast_covers`: from the source, every selected cluster is reached exactly once, and nothing
  else is.
-/

namespace SoftHier.Noc

/-! ## Directions -/

/-- Directions a request may branch into, in the order they are tried. -/
def Momentum.allowed : Momentum → List Momentum
  | .zero => [.zero, .right, .left, .up, .down]
  | .right => [.zero, .right, .up, .down]
  | .left => [.zero, .left, .up, .down]
  | .up => [.zero, .up]
  | .down => [.zero, .down]

theorem Momentum.allowed_nodup (m : Momentum) : m.allowed.Nodup := by
  cases m <;> decide

theorem Momentum.allowed_length (m : Momentum) : m.allowed.length < 6 := by
  cases m <;> decide

theorem Momentum.zero_mem_allowed (m : Momentum) : .zero ∈ m.allowed := by
  cases m <;> decide

theorem Momentum.mem_allowed_self (m : Momentum) : m ∈ m.allowed := by
  cases m <;> decide

/-- The direction from `r` to `p`, first along the row. -/
def dirTo (r p : Pos) : Momentum :=
  if r.x < p.x then .right
  else if p.x < r.x then .left
  else if r.y < p.y then .up
  else if p.y < r.y then .down
  else .zero

section

variable {r p : Pos}

theorem dirTo_eq_right : dirTo r p = .right ↔ r.x < p.x := by
  unfold dirTo
  grind

theorem dirTo_eq_left : dirTo r p = .left ↔ p.x < r.x := by
  unfold dirTo
  grind

theorem dirTo_eq_up : dirTo r p = .up ↔ p.x = r.x ∧ r.y < p.y := by
  unfold dirTo
  grind

theorem dirTo_eq_down : dirTo r p = .down ↔ p.x = r.x ∧ p.y < r.y := by
  unfold dirTo
  grind

theorem dirTo_eq_zero : dirTo r p = .zero ↔ p = r := by
  cases r
  cases p
  unfold dirTo
  grind

/-- Behind the first hop in direction `b` the allowed directions are those of the positions that
lie in direction `b`. -/
theorem dirTo_move (hx : 1 ≤ r.x) (hy : 1 ≤ r.y) {b : Momentum} (moves : b ≠ .zero) :
    dirTo (r.move b) p ∈ b.allowed ↔ dirTo r p = b := by
  cases b with
  | zero => exact absurd rfl moves
  | right =>
    rw [dirTo_eq_right]
    unfold dirTo Pos.move Momentum.allowed
    grind
  | left =>
    rw [dirTo_eq_left]
    unfold dirTo Pos.move Momentum.allowed
    grind
  | up =>
    rw [dirTo_eq_up]
    unfold dirTo Pos.move Momentum.allowed
    grind
  | down =>
    rw [dirTo_eq_down]
    unfold dirTo Pos.move Momentum.allowed
    grind

theorem move_eq_self (hx : 1 ≤ r.x) (hy : 1 ≤ r.y) (b : Momentum) : r.move b = r ↔ b = .zero := by
  cases r
  cases b <;> simp [Pos.move] at * <;> omega

end

/-! ## Branches -/

section

variable {M : Mesh} {c : Collective} {r p : Pos}

/-- The test of one direction. -/
def branchTest (M : Mesh) (c : Collective) (r : Pos) : Momentum → Bool
  | .zero => checkTarget (r.x - 1) (r.y - 1) (c.src.x - 1) (c.src.y - 1) c.rowMask c.colMask
  | d => checkMomentum d (r.x - 1) (r.y - 1) (c.src.x - 1) (c.src.y - 1) (M.dimX - 2) (M.dimY - 2)
      c.rowMask c.colMask

theorem filter_cons_eq {α : Type} (t : α → Bool) (a : α) (as : List α) :
    (a :: as).filter t = (if t a then [a] else []) ++ as.filter t := by
  rw [List.filter_cons]
  split <;> rfl

/-- The branches are the allowed directions that pass their test. -/
theorem collectiveAnalyze_eq (M : Mesh) (c : Collective) (m : Momentum) (r : Pos) :
    collectiveAnalyze M c m r = m.allowed.filter (branchTest M c r) := by
  cases m <;>
    simp only [collectiveAnalyze, Momentum.allowed, filter_cons_eq, List.filter_nil,
      List.append_nil, List.append_assoc, branchTest] <;>
    rfl

theorem checkTarget_iff {curX curY srcX srcY rowMask colMask : Nat} :
    checkTarget curX curY srcX srcY rowMask colMask = true ↔
      srcX &&& rowMask = curX &&& rowMask ∧ srcY &&& colMask = curY &&& colMask := by
  simp only [checkTarget, Bool.and_eq_true, decide_eq_true_eq]

/-- A direction passes its test when it leads to a selected cluster, if a row is left only from the
row of the source. -/
theorem branchTest_of_selects (hr : M.HasRouter r) (hp : c.Selects M p)
    (row : dirTo r p = .right ∨ dirTo r p = .left → r.y = c.src.y) :
    branchTest M c r (dirTo r p) = true := by
  obtain ⟨⟨px1, px2, py1, py2⟩, target⟩ := hp
  obtain ⟨rx1, rx2, ry1, ry2⟩ := hr
  obtain ⟨targetX, targetY⟩ := checkTarget_iff.mp target
  have dims : M.dimX - 2 = M.nbX ∧ M.dimY - 2 = M.nbY := ⟨rfl, rfl⟩
  cases hd : dirTo r p with
  | zero =>
    rw [dirTo_eq_zero.mp hd] at target
    exact target
  | right =>
    have ahead := dirTo_eq_right.mp hd
    refine List.any_eq_true.mpr ⟨p.x - 1, List.mem_range'_1.mpr (by omega), ?_⟩
    exact checkTarget_iff.mpr ⟨targetX, by rw [row (Or.inl hd)]⟩
  | left =>
    have ahead := dirTo_eq_left.mp hd
    refine List.any_eq_true.mpr ⟨p.x - 1, List.mem_range.mpr (by omega), ?_⟩
    exact checkTarget_iff.mpr ⟨targetX, by rw [row (Or.inr hd)]⟩
  | up =>
    obtain ⟨same, ahead⟩ := dirTo_eq_up.mp hd
    refine List.any_eq_true.mpr ⟨p.y - 1, List.mem_range'_1.mpr (by omega), ?_⟩
    exact checkTarget_iff.mpr ⟨by rw [targetX, same], targetY⟩
  | down =>
    obtain ⟨same, ahead⟩ := dirTo_eq_down.mp hd
    refine List.any_eq_true.mpr ⟨p.y - 1, List.mem_range.mpr (by omega), ?_⟩
    exact checkTarget_iff.mpr ⟨by rw [targetX, same], targetY⟩

/-- A direction other than zero that passes its test has a router behind it. -/
theorem hasRouter_move (hr : M.HasRouter r) {b : Momentum} (moves : b ≠ .zero)
    (test : branchTest M c r b = true) : M.HasRouter (r.move b) := by
  obtain ⟨rx1, rx2, ry1, ry2⟩ := hr
  have dims : M.dimX - 2 = M.nbX ∧ M.dimY - 2 = M.nbY := ⟨rfl, rfl⟩
  cases b with
  | zero => exact absurd rfl moves
  | right =>
    obtain ⟨i, hi, -⟩ := List.any_eq_true.mp test
    have := List.mem_range'_1.mp hi
    exact ⟨Nat.le_add_left _ _, show r.x + 1 ≤ M.nbX by omega, ry1, ry2⟩
  | left =>
    obtain ⟨i, hi, -⟩ := List.any_eq_true.mp test
    have := List.mem_range.mp hi
    exact ⟨show 1 ≤ r.x - 1 by omega, show r.x - 1 ≤ M.nbX by omega, ry1, ry2⟩
  | up =>
    obtain ⟨i, hi, -⟩ := List.any_eq_true.mp test
    have := List.mem_range'_1.mp hi
    exact ⟨rx1, rx2, Nat.le_add_left _ _, show r.y + 1 ≤ M.nbY by omega⟩
  | down =>
    obtain ⟨i, hi, -⟩ := List.any_eq_true.mp test
    have := List.mem_range.mp hi
    exact ⟨rx1, rx2, show 1 ≤ r.y - 1 by omega, show r.y - 1 ≤ M.nbY by omega⟩

theorem selects_self (hr : M.HasRouter r) (test : branchTest M c r .zero = true) :
    c.Selects M r := ⟨hr, test⟩

theorem mem_collectiveAnalyze {m b : Momentum} :
    b ∈ collectiveAnalyze M c m r ↔ b ∈ m.allowed ∧ branchTest M c r b = true := by
  rw [collectiveAnalyze_eq, List.mem_filter]

/-! ## Items -/

/-- Items that occur in the tree of `c`: momentum zero only at the source, moves along a row only in
the row of the source, and no request without a branch. -/
def Item.Ok (M : Mesh) (c : Collective) : Item → Prop
  | .input r m => M.HasRouter r ∧ (m = .zero → r = c.src) ∧
      (m = .right ∨ m = .left → r.y = c.src.y) ∧ collectiveAnalyze M c m r ≠ []
  | .generated r b => M.HasRouter r ∧ (b = .right ∨ b = .left → r.y = c.src.y) ∧
      branchTest M c r b = true

/-- Whether an item still has to reach `p`, as a number. -/
def Item.covers (M : Mesh) (c : Collective) (p : Pos) : Item → Nat
  | .input r m => if c.Selects M p ∧ dirTo r p ∈ m.allowed then 1 else 0
  | .generated r b => if c.Selects M p ∧ dirTo r p = b then 1 else 0

/-- A branch of a request is a kid of the tree. -/
theorem Item.Ok.branch {m b : Momentum} (ok : Item.Ok M c (.input r m))
    (hb : b ∈ collectiveAnalyze M c m r) : Item.Ok M c (.generated r b) := by
  obtain ⟨hr, source, row, -⟩ := ok
  obtain ⟨allowed, test⟩ := mem_collectiveAnalyze.mp hb
  refine ⟨hr, fun sideways => ?_, test⟩
  cases m with
  | zero => rw [source rfl]
  | right => exact row (Or.inl rfl)
  | left => exact row (Or.inr rfl)
  | up => rcases sideways with rfl | rfl <;> simp [Momentum.allowed] at allowed
  | down => rcases sideways with rfl | rfl <;> simp [Momentum.allowed] at allowed

/-- A request that may turn into its column has a target in this column. -/
theorem column_of_branchTest {b : Momentum} (turns : b = .up ∨ b = .down)
    (test : branchTest M c r b = true) :
    (c.src.x - 1) &&& c.rowMask = (r.x - 1) &&& c.rowMask := by
  rcases turns with rfl | rfl
  · obtain ⟨i, -, target⟩ := List.any_eq_true.mp test
    exact (checkTarget_iff.mp target).1
  · obtain ⟨i, -, target⟩ := List.any_eq_true.mp test
    exact (checkTarget_iff.mp target).1

/-- The single branch of a request keeps the momentum or is the local one. -/
theorem single_branch {m b : Momentum} (ok : Item.Ok M c (.input r m))
    (single : collectiveAnalyze M c m r = [b]) : b = m ∨ b = .zero := by
  obtain ⟨hr, source, row, -⟩ := ok
  have hb : b ∈ collectiveAnalyze M c m r := by rw [single]; exact List.mem_singleton.mpr rfl
  obtain ⟨allowed, test⟩ := mem_collectiveAnalyze.mp hb
  by_cases here : branchTest M c r .zero = true
  · have zero : Momentum.zero ∈ collectiveAnalyze M c m r := by
      exact mem_collectiveAnalyze.mpr ⟨m.zero_mem_allowed, here⟩
    rw [single] at zero
    exact Or.inr (List.mem_singleton.mp zero).symm
  · refine Or.inl ?_
    cases m with
    | zero =>
      refine absurd (checkTarget_iff.mpr ?_) here
      rw [source rfl]
      exact ⟨rfl, rfl⟩
    | up => simp [Momentum.allowed] at allowed; grind
    | down => simp [Momentum.allowed] at allowed; grind
    | right =>
      by_contra other
      have turns : b = .up ∨ b = .down := by
        simp [Momentum.allowed] at allowed
        grind
      have column := column_of_branchTest turns test
      exact here (checkTarget_iff.mpr ⟨column, by rw [row (Or.inl rfl)]⟩)
    | left =>
      by_contra other
      have turns : b = .up ∨ b = .down := by
        simp [Momentum.allowed] at allowed
        grind
      have column := column_of_branchTest turns test
      exact here (checkTarget_iff.mpr ⟨column, by rw [row (Or.inr rfl)]⟩)

/-! ## One step -/

/-- A kid and a rewritten request leave the router in the same way. -/
theorem route_move (hr : M.HasRouter r) (b : Momentum) :
    route M r (r.move b) = branchHop M r b := by
  obtain ⟨rx1, rx2, ry1, ry2⟩ := hr
  unfold branchHop
  by_cases stays : r.move b = r
  · rw [route, if_pos stays, if_pos stays]
  · have next : getNextRouterPos M r (r.move b) = r.move b := by
      unfold getNextRouterPos Mesh.dimX
      cases b <;> simp only [Pos.move] at stays ⊢ <;> grind
    rw [route_of_ne stays, next, if_neg stays]

theorem branchHop_zero (r : Pos) : branchHop M r .zero = .target r := if_pos rfl

/-- Behind a branch other than zero the request arrives at the next router. -/
theorem branchHop_router (hr : M.HasRouter r) {b : Momentum} (moves : b ≠ .zero)
    (test : branchTest M c r b = true) : branchHop M r b = .router (r.move b) := by
  unfold branchHop
  rw [if_neg fun same => moves ((move_eq_self hr.1 hr.2.2.1 b).mp same),
    if_pos (hasRouter_move hr moves test)]

theorem ne_nil_of_branchTest {m b : Momentum} (allowed : b ∈ m.allowed)
    (test : branchTest M c r b = true) : collectiveAnalyze M c m r ≠ [] :=
  List.ne_nil_of_mem (mem_collectiveAnalyze.mpr ⟨allowed, test⟩)

/-- The target a direction was tested for lies at the next router or further on. -/
theorem collectiveAnalyze_move_ne_nil (hr : M.HasRouter r) {b : Momentum} (moves : b ≠ .zero)
    (test : branchTest M c r b = true) : collectiveAnalyze M c b (r.move b) ≠ [] := by
  obtain ⟨rx1, rx2, ry1, ry2⟩ := hr
  -- it is enough that the target is here or passes the test of `b` again
  suffices h : branchTest M c (r.move b) .zero = true ∨ branchTest M c (r.move b) b = true by
    rcases h with here | further
    · exact ne_nil_of_branchTest b.zero_mem_allowed here
    · exact ne_nil_of_branchTest b.mem_allowed_self further
  cases b with
  | zero => exact absurd rfl moves
  | right =>
    obtain ⟨i, hi, target⟩ := List.any_eq_true.mp test
    have range := List.mem_range'_1.mp hi
    rcases Nat.eq_or_lt_of_le range.1 with next | further
    · refine Or.inl ?_
      have same : (r.move .right).x - 1 = i := show r.x + 1 - 1 = i by omega
      rw [← same] at target
      exact target
    · refine Or.inr (List.any_eq_true.mpr ⟨i, List.mem_range'_1.mpr ?_, target⟩)
      show r.x + 1 - 1 + 1 ≤ i ∧ i < r.x + 1 - 1 + 1 + (M.dimX - 2 - (r.x + 1 - 1 + 1))
      omega
  | left =>
    obtain ⟨i, hi, target⟩ := List.any_eq_true.mp test
    have range := List.mem_range.mp hi
    rcases Nat.eq_or_lt_of_le (Nat.le_sub_one_of_lt range) with next | further
    · refine Or.inl ?_
      have same : (r.move .left).x - 1 = i := next.symm
      rw [← same] at target
      exact target
    · exact Or.inr (List.any_eq_true.mpr ⟨i, List.mem_range.mpr further, target⟩)
  | up =>
    obtain ⟨i, hi, target⟩ := List.any_eq_true.mp test
    have range := List.mem_range'_1.mp hi
    rcases Nat.eq_or_lt_of_le range.1 with next | further
    · refine Or.inl ?_
      have same : (r.move .up).y - 1 = i := show r.y + 1 - 1 = i by omega
      rw [← same] at target
      exact target
    · refine Or.inr (List.any_eq_true.mpr ⟨i, List.mem_range'_1.mpr ?_, target⟩)
      show r.y + 1 - 1 + 1 ≤ i ∧ i < r.y + 1 - 1 + 1 + (M.dimY - 2 - (r.y + 1 - 1 + 1))
      omega
  | down =>
    obtain ⟨i, hi, target⟩ := List.any_eq_true.mp test
    have range := List.mem_range.mp hi
    rcases Nat.eq_or_lt_of_le (Nat.le_sub_one_of_lt range) with next | further
    · refine Or.inl ?_
      have same : (r.move .down).y - 1 = i := next.symm
      rw [← same] at target
      exact target
    · exact Or.inr (List.any_eq_true.mpr ⟨i, List.mem_range.mpr further, target⟩)

/-- What leaves a router in direction `b` is what a kid of that direction covers. -/
theorem arrive_conserve {b : Momentum} (ok : Item.Ok M c (.generated r b)) :
    (∀ i ∈ (arrive b (branchHop M r b)).1, Item.Ok M c i) ∧
      Item.covers M c p (.generated r b) =
        ((arrive b (branchHop M r b)).1.map (Item.covers M c p)).sum +
          (arrive b (branchHop M r b)).2.count p := by
  obtain ⟨hr, row, test⟩ := ok
  by_cases moves : b = .zero
  · subst moves
    have selects := selects_self hr test
    rw [branchHop_zero]
    refine ⟨fun i hi => (nomatch hi), ?_⟩
    show _ = 0 + [r].count p
    simp only [Item.covers, dirTo_eq_zero, List.count_singleton, beq_iff_eq, Nat.zero_add]
    by_cases same : p = r
    · subst same
      simp [selects]
    · simp [same, Ne.symm same]
  · rw [branchHop_router hr moves test]
    refine ⟨fun i hi => ?_, ?_⟩
    · rw [List.mem_singleton.mp hi]
      refine ⟨hasRouter_move hr moves test, fun zero => absurd zero moves, fun sideways => ?_,
        collectiveAnalyze_move_ne_nil hr moves test⟩
      have same : (r.move b).y = r.y := by rcases sideways with rfl | rfl <;> rfl
      rw [same]
      exact row sideways
    · show _ = Item.covers M c p (.input (r.move b) b) + 0 + 0
      simp only [Item.covers, dirTo_move hr.1 hr.2.2.1 moves, Nat.add_zero]

/-- A request covers what its branches cover. -/
theorem covers_branches {m : Momentum} (ok : Item.Ok M c (.input r m)) :
    Item.covers M c p (.input r m) =
      ((collectiveAnalyze M c m r).map fun b => Item.covers M c p (.generated r b)).sum := by
  obtain ⟨hr, source, row, -⟩ := ok
  have nodup : (collectiveAnalyze M c m r).Nodup := by
    rw [collectiveAnalyze_eq]
    exact m.allowed_nodup.filter _
  by_cases selects : c.Selects M p
  · -- exactly one branch leads to `p`
    have member : dirTo r p ∈ collectiveAnalyze M c m r ↔ dirTo r p ∈ m.allowed := by
      rw [mem_collectiveAnalyze, and_iff_left_iff_imp]
      intro allowed
      refine branchTest_of_selects hr selects fun sideways => ?_
      cases m with
      | zero => rw [source rfl]
      | right => exact row (Or.inl rfl)
      | left => exact row (Or.inr rfl)
      | up =>
          rcases sideways with h | h <;> rw [h] at allowed <;> simp [Momentum.allowed] at allowed
      | down =>
        rcases sideways with h | h <;> rw [h] at allowed <;> simp [Momentum.allowed] at allowed
    have counts : ((collectiveAnalyze M c m r).map fun b =>
        Item.covers M c p (.generated r b)).sum =
          (collectiveAnalyze M c m r).count (dirTo r p) := by
      generalize collectiveAnalyze M c m r = bs
      induction bs with
      | nil => rfl
      | cons b bs ih =>
        rw [List.map_cons, List.sum_cons, List.count_cons, ih, Nat.add_comm]
        simp only [Item.covers, selects, true_and, beq_iff_eq, eq_comm (a := b)]
    rw [counts, nodup.count, Item.covers]
    simp only [selects, true_and, member]
  · have none : ∀ i : Item, Item.covers M c p i = 0 := by
      intro i
      cases i <;> simp [Item.covers, selects]
    simp [none]

/-- A kid goes where its branch leads. -/
theorem handle_generated (hr : M.HasRouter r) (b : Momentum) :
    handle M c free (.generated r b) = arrive b (branchHop M r b) := by
  rw [← route_move hr]
  rfl

/-- An arrival has one result at most. -/
theorem arrive_length (b : Momentum) (hop : Hop) :
    (arrive b hop).1.length ≤ 1 ∧ (arrive b hop).2.length ≤ 1 := by
  cases hop <;> simp [arrive]

/-- An unstalled router hands on what an item covers. -/
theorem handle_conserve {i : Item} (ok : Item.Ok M c i) :
    (∀ j ∈ (handle M c free i).1, Item.Ok M c j) ∧
      Item.covers M c p i =
        ((handle M c free i).1.map (Item.covers M c p)).sum + (handle M c free i).2.count p := by
  cases i with
  | generated r b =>
    rw [handle_generated ok.1]
    exact arrive_conserve ok
  | input r m =>
    have covers := covers_branches (p := p) ok
    have kids := fun b (hb : b ∈ collectiveAnalyze M c m r) => ok.branch hb
    rcases branches : collectiveAnalyze M c m r with _ | ⟨b, _ | ⟨b', bs⟩⟩
    · exact absurd branches ok.2.2.2
    · rw [handle_single branches]
      rw [branches] at covers kids
      have kid := kids b (List.mem_singleton.mpr rfl)
      rw [covers, List.map_singleton, List.sum_singleton]
      exact arrive_conserve kid
    · rw [handle_many branches]
      refine ⟨fun j hj => ?_, ?_⟩
      · obtain ⟨b, hb, rfl⟩ := List.mem_map.mp hj
        exact kids b hb
      · rw [covers, List.map_map]
        rfl

/-! ## Termination -/

/-- Generations an item still needs, at most. -/
def Item.rank (M : Mesh) : Item → Nat
  | .input _ .zero => 2 * M.nbX + 2 * M.nbY + 8
  | .input r .right => 2 * (M.nbX - r.x) + 2 * M.nbY + 6
  | .input r .left => 2 * r.x + 2 * M.nbY + 6
  | .input r .up => 2 * (M.nbY - r.y) + 2
  | .input r .down => 2 * r.y + 2
  | .generated _ .zero => 0
  | .generated r .right => 2 * (M.nbX - r.x) + 2 * M.nbY + 5
  | .generated r .left => 2 * r.x + 2 * M.nbY + 5
  | .generated r .up => 2 * (M.nbY - r.y) + 1
  | .generated r .down => 2 * r.y + 1

/-- A branch has a smaller rank. -/
theorem rank_branch {m b : Momentum} (hr : M.HasRouter r)
    (hb : b ∈ collectiveAnalyze M c m r) :
    (Item.generated r b).rank M < (Item.input r m).rank M := by
  obtain ⟨allowed, -⟩ := mem_collectiveAnalyze.mp hb
  obtain ⟨rx1, rx2, ry1, ry2⟩ := hr
  cases m <;> cases b <;> simp [Momentum.allowed] at allowed <;> simp only [Item.rank] <;> omega

/-- So has what arrives behind it. -/
theorem rank_arrive {b : Momentum} (ok : Item.Ok M c (.generated r b)) :
    ∀ i ∈ (arrive b (branchHop M r b)).1, i.rank M < (Item.generated r b).rank M := by
  obtain ⟨hr, -, test⟩ := ok
  intro i hi
  by_cases moves : b = .zero
  · subst moves
    rw [branchHop_zero] at hi
    cases hi
  · have next := hasRouter_move hr moves test
    rw [branchHop_router hr moves test] at hi
    rw [List.mem_singleton.mp hi]
    obtain ⟨nx1, nx2, ny1, ny2⟩ := next
    cases b with
    | zero => exact absurd rfl moves
    | right | left | up | down =>
      simp only [Item.rank, Pos.move] at *
      omega

theorem rank_handle {i : Item} (ok : Item.Ok M c i) :
    ∀ j ∈ (handle M c free i).1, j.rank M < i.rank M := by
  cases i with
  | generated r b =>
    rw [handle_generated ok.1]
    exact rank_arrive ok
  | input r m =>
    have smaller := fun b (hb : b ∈ collectiveAnalyze M c m r) => rank_branch ok.1 hb
    have kids := fun b (hb : b ∈ collectiveAnalyze M c m r) => ok.branch hb
    rcases branches : collectiveAnalyze M c m r with _ | ⟨b, _ | ⟨b', bs⟩⟩
    · exact absurd branches ok.2.2.2
    · rw [handle_single branches]
      rw [branches] at smaller kids
      have hb := List.mem_singleton.mpr (rfl : b = b)
      exact fun j hj => Nat.lt_trans (rank_arrive (kids b hb) j hj) (smaller b hb)
    · rw [handle_many branches]
      intro j hj
      obtain ⟨b, hb, rfl⟩ := List.mem_map.mp hj
      exact smaller b hb

/-- An unstalled examination has at most five results. -/
theorem handle_length (i : Item) : (handle M c free i).1.length < 6 := by
  have arriveLength : ∀ b hop, (arrive b hop).1.length < 6 := fun b hop =>
    Nat.lt_of_le_of_lt (arrive_length b hop).1 (by decide)
  cases i with
  | generated r b => exact arriveLength b _
  | input r m =>
    rcases branches : collectiveAnalyze M c m r with _ | ⟨b, _ | ⟨b', bs⟩⟩
    · rw [handle_none branches]
      decide
    · rw [handle_single branches]
      exact arriveLength b _
    · rw [handle_many branches, List.length_map, collectiveAnalyze_eq]
      exact Nat.lt_of_le_of_lt (List.length_filter_le _ _) m.allowed_length

/-- It hands the request to at most one target. -/
theorem handle_out_length (i : Item) : (handle M c free i).2.length ≤ 1 := by
  cases i with
  | generated r b => exact (arrive_length b _).2
  | input r m =>
    rcases branches : collectiveAnalyze M c m r with _ | ⟨b, _ | ⟨b', bs⟩⟩
    · rw [handle_none branches]
      exact Nat.zero_le 1
    · rw [handle_single branches]
      exact (arrive_length b _).2
    · rw [handle_many branches]
      exact Nat.zero_le 1

theorem start_ok (hs : M.HasRouter c.src) : Item.Ok M c c.start :=
  ⟨hs, fun _ => rfl, fun _ => rfl,
    ne_nil_of_branchTest Momentum.zero.zero_mem_allowed (checkTarget_iff.mpr ⟨rfl, rfl⟩)⟩

/-- The request covers exactly the selected clusters. -/
theorem covers_start : c.start.covers M c p = if c.Selects M p then 1 else 0 := by
  have all : dirTo c.src p ∈ Momentum.zero.allowed := by
    cases dirTo c.src p <;> decide
  simp only [Collective.start, Item.covers, all, and_true]

end

/-- The multicast from a source cluster ends; every selected cluster gets exactly one copy, and no
other node gets any. -/
theorem multicast_covers (M : Mesh) (c : Collective) (hs : M.HasRouter c.src) :
    ∃ n out, multicast M c n c.start = some out ∧
      ∀ p, out.count p = if c.Selects M p then 1 else 0 := by
  obtain ⟨out, ends⟩ := expand_isSome (Item.Ok M c) (Item.rank M)
    (fun i ok j hj => ⟨(handle_conserve (p := c.src) ok).1 j hj, rank_handle ok j hj⟩)
    (c.start.rank M + 1) c.start (start_ok hs) (Nat.lt_succ_self _)
  refine ⟨_, out, ends, fun p => ?_⟩
  rw [← covers_start]
  exact (count_expand (Item.Ok M c) (Item.covers M c p) p
    (fun i ok => (handle_conserve (p := p) ok).1) (fun i ok => (handle_conserve ok).2)
    (start_ok hs) ends).symm

theorem multicast_covers_row :
    ∃ n out, multicast ⟨2, 2⟩ ⟨⟨1, 1⟩, 0, 1⟩ n (Collective.start ⟨⟨1, 1⟩, 0, 1⟩) = some out ∧
      ∀ p, out.count p = if (Collective.mk ⟨1, 1⟩ 0 1).Selects ⟨2, 2⟩ p then 1 else 0 :=
  multicast_covers ⟨2, 2⟩ ⟨⟨1, 1⟩, 0, 1⟩ (by decide)

end SoftHier.Noc
