import SoftHier.Lib.Transition
import SoftHier.Noc.RequestTree

/-!
# The result of a reduction

Every request that branches keeps a copy of the prior content of the initiator's read buffer, and
its kids are merged into that copy.  So the answer is the fold over the targets, merged with as
many copies of the prior content as requests branched.

* `ReductionInv`: what the waiting requests have merged so far, and what is still on its way.
* `reductionInv_examine`, `reductionInv_complete`: the steps keep it, or answer the initiator.
* `reduction_answer_iff`: every run can be completed and then has answered once, and the answer is
  the fold over the selected clusters if and only if the prior content is `Harmless`.
-/

namespace SoftHier.Noc

open Reduction

variable {n : Nat} {M : Mesh} {c : Collective} {t : CollType} {held : Pos → Buffer n}
  {prior : Buffer n}

/-! ## The data of a state -/

/-- The requests of `W` have merged `gen` copies of the prior content and the data of the targets
`done`; the requests of `L` hold the prior content. -/
structure Merging (t : CollType) (held : Pos → Buffer n) (prior : Buffer n)
    (reqs : Nat → Request n) (fresh : Nat) (L W : Multiset Nat) (gen : Nat)
    (done : Multiset Pos) : Prop where
  tree : TreeInv reqs fresh L W
  leaf : ∀ v ∈ L, (reqs v).data = prior
  merges : waiting t reqs W =
    processCollectiveOperations t (merged t (Multiset.replicate gen prior))
      (merged t (done.map held))

namespace Merging

variable {reqs : Nat → Request n} {fresh req : Nat} {L W : Multiset Nat} {gen : Nat}
  {done : Multiset Pos}

/-- A request starts to wait for its first kid, with one more copy of the prior content. -/
theorem spawn_first (h : Merging t held prior reqs fresh (req ::ₘ L) W gen done) :
    Merging t held prior (TreeInv.spawned reqs fresh req) (fresh + 1) (fresh ::ₘ L) (req ::ₘ W)
      (gen + 1) done := by
  have other : fresh ≠ req := Nat.ne_of_gt (h.tree.lt_fresh req (by simp))
  have old : ∀ u ∈ req ::ₘ L + W, u ≠ fresh := fun u hu => Nat.ne_of_lt (h.tree.lt_fresh u hu)
  have same : ∀ u ∈ req ::ₘ L + W, (TreeInv.spawned reqs fresh req u).data = (reqs u).data :=
    fun u hu => TreeInv.spawned_data (old u hu)
  have here := h.leaf req (Multiset.mem_cons_self req L)
  refine ⟨h.tree.spawn_first, fun v hv => ?_, ?_⟩
  · rcases Multiset.mem_cons.mp hv with rfl | hv
    · rw [TreeInv.spawned_fresh other]
      exact here
    · have mem : v ∈ req ::ₘ L := Multiset.mem_cons_of_mem hv
      rw [same v (Multiset.mem_add.mpr (Or.inl mem))]
      exact h.leaf v mem
  · have waits : waiting t (TreeInv.spawned reqs fresh req) W = waiting t reqs W :=
      waiting_congr fun v hv => same v (Multiset.mem_add.mpr (Or.inr hv))
    rw [waiting_cons, waits, h.merges, same req (by simp), here, Multiset.replicate_succ,
      merged_cons, process_assoc]

/-- A request that waits already gets a further kid. -/
theorem spawn_next (h : Merging t held prior reqs fresh L W gen done) (waits : req ∈ W)
    (here : (reqs req).data = prior) :
    Merging t held prior (TreeInv.spawned reqs fresh req) (fresh + 1) (fresh ::ₘ L) W gen done := by
  have old : ∀ u ∈ L + W, u ≠ fresh := fun u hu => Nat.ne_of_lt (h.tree.lt_fresh u hu)
  have other : fresh ≠ req := Ne.symm (old req (Multiset.mem_add.mpr (Or.inr waits)))
  refine ⟨h.tree.spawn_next waits, fun v hv => ?_, ?_⟩
  · rcases Multiset.mem_cons.mp hv with rfl | hv
    · rw [TreeInv.spawned_fresh other]
      exact here
    · rw [TreeInv.spawned_data (old v (Multiset.mem_add.mpr (Or.inl hv)))]
      exact h.leaf v hv
  · rw [← h.merges]
    exact waiting_congr fun v hv =>
      TreeInv.spawned_data (old v (Multiset.mem_add.mpr (Or.inr hv)))

end Merging

/-! ## What a step does -/

namespace Reduction

/-- The requests on their way. -/
def leaves (s : Reduction n) : Multiset Nat :=
  ↑(s.moving.map Prod.fst) + ↑(s.atTarget.map Prod.fst)

section

variable {s : Reduction n} {req : Nat} {i : Item} {r : Pos} {b : Momentum}

theorem leaves_spawn : (s.spawn req r b).leaves = s.fresh ::ₘ s.leaves := by
  have moving : (s.spawn req r b).moving.map Prod.fst = s.moving.map Prod.fst ++ [s.fresh] :=
    List.map_append
  have last : (↑(s.moving.map Prod.fst ++ [s.fresh]) : Multiset Nat) =
      s.fresh ::ₘ ↑(s.moving.map Prod.fst) :=
    Multiset.coe_eq_coe.mpr (List.perm_append_singleton _ _)
  unfold leaves
  rw [moving, last, Multiset.cons_add]
  rfl

/-- The kids of a request that waits already. -/
theorem merging_generate {W : Multiset Nat} {gen : Nat} {done : Multiset Pos} (bs : List Momentum)
    (h : Merging t held prior s.reqs s.fresh s.leaves W gen done) (waits : req ∈ W)
    (here : (s.reqs req).data = prior) :
    Merging t held prior (s.generate req r bs).reqs (s.generate req r bs).fresh
      (s.generate req r bs).leaves W gen done := by
  induction bs generalizing s with
  | nil => exact h
  | cons b bs ih =>
    refine ih ?_ ?_
    · rw [leaves_spawn]
      exact h.spawn_next waits here
    · exact (congrArg Request.data TreeInv.spawned_self).trans here

theorem generate_answers (bs : List Momentum) : (s.generate req r bs).answers = s.answers := by
  induction bs generalizing s with
  | nil => rfl
  | cons b bs ih => exact ih

theorem generate_atTarget (bs : List Momentum) : (s.generate req r bs).atTarget = s.atTarget := by
  induction bs generalizing s with
  | nil => rfl
  | cons b bs ih => exact ih

theorem generate_moving (bs : List Momentum) :
    ∃ new, (s.generate req r bs).moving = s.moving ++ new ∧
      new.map Prod.snd = bs.map fun b => .generated r b := by
  induction bs generalizing s with
  | nil => exact ⟨[], (List.append_nil _).symm, rfl⟩
  | cons b bs ih =>
    obtain ⟨new, moving, items⟩ := ih (s := s.spawn req r b)
    refine ⟨(s.fresh, .generated r b) :: new, ?_, ?_⟩
    · rw [generate, moving]
      exact List.append_assoc _ _ _
    · rw [List.map_cons, List.map_cons, items]

/-- A request that leaves a router arrives where `arrive` says. -/
theorem pass_eq (hop : Hop) : s.pass req b hop =
    { s with
      moving := s.moving ++ (arrive b hop).1.map fun j => (req, j)
      atTarget := s.atTarget ++ (arrive b hop).2.map fun p => (req, p) } := by
  cases hop with
  | target p => simp [pass, arrive]
  | router p => simp [pass, arrive]

theorem leaves_take_moving (mem : (req, i) ∈ s.moving) :
    req ::ₘ { s with moving := s.moving.erase (req, i) }.leaves = s.leaves := by
  have taken : req ::ₘ (↑((s.moving.erase (req, i)).map Prod.fst) : Multiset Nat) =
      ↑(s.moving.map Prod.fst) :=
    Multiset.coe_eq_coe.mpr ((List.perm_cons_erase mem).map Prod.fst).symm
  unfold leaves
  rw [← taken, Multiset.cons_add]

theorem leaves_take_target {p : Pos} (mem : (req, p) ∈ s.atTarget)
    (reqs : Nat → Request n) :
    req ::ₘ { s with atTarget := s.atTarget.erase (req, p), reqs := reqs }.leaves = s.leaves := by
  have taken : req ::ₘ (↑((s.atTarget.erase (req, p)).map Prod.fst) : Multiset Nat) =
      ↑(s.atTarget.map Prod.fst) :=
    Multiset.coe_eq_coe.mpr ((List.perm_cons_erase mem).map Prod.fst).symm
  unfold leaves
  rw [← taken, Multiset.add_cons]

/-- A request that leaves a router stays on its way. -/
theorem eq_nil_of_leaves (none : s.leaves = 0) : s.moving = [] ∧ s.atTarget = [] := by
  rw [leaves, Multiset.coe_add, Multiset.coe_eq_zero] at none
  obtain ⟨moving, atTarget⟩ := List.append_eq_nil_iff.mp none
  exact ⟨List.map_eq_nil_iff.mp moving, List.map_eq_nil_iff.mp atTarget⟩

theorem leaves_pass (hop : Hop) : (s.pass req b hop).leaves = req ::ₘ s.leaves := by
  have last : ∀ ids : List Nat, (↑(ids ++ [req]) : Multiset Nat) = req ::ₘ ↑ids := fun ids =>
    Multiset.coe_eq_coe.mpr (List.perm_append_singleton _ _)
  cases hop with
  | target p =>
    have ids : (s.atTarget ++ [(req, p)]).map Prod.fst = s.atTarget.map Prod.fst ++ [req] :=
      List.map_append
    unfold leaves pass
    rw [ids, last, Multiset.add_cons]
  | router p =>
    have ids : (s.moving ++ [(req, Item.input p b)]).map Prod.fst =
        s.moving.map Prod.fst ++ [req] :=
      List.map_append
    unfold leaves pass
    rw [ids, last, Multiset.cons_add]

end

/-! ## Where the requests go -/

/-- Every item is in order; the copies of the prior content and the branchings to come are those of
the tree; and every selected cluster has been served, or is handed a request, or is covered by
exactly one item. -/
structure Routed (M : Mesh) (c : Collective) (moving : List (Nat × Item))
    (atTarget : List (Nat × Pos)) (gen : Nat) (done : Multiset Pos) : Prop where
  ok : ∀ q ∈ moving, Item.Ok M c q.2
  branchings : gen + (moving.map fun q => q.2.branchings M c).sum = c.start.branchings M c
  served : ∀ p, done.count p + (atTarget.map Prod.snd).count p +
    (moving.map fun q => q.2.covers M c p).sum = if c.Selects M p then 1 else 0

end Reduction

/-- The branchings of an item are its own and those of what it becomes. -/
theorem branchings_handle {i : Item} (ok : Item.Ok M c i) :
    i.branchings M c =
      i.branching M c + ((handle M c free i).1.map (Item.branchings M c)).sum := by
  have smaller := fun i (ok : Item.Ok M c i) j (hj : j ∈ (handle M c free i).1) =>
    And.intro ((handle_conserve (p := c.src) ok).1 j hj) (rank_handle ok j hj)
  unfold Item.branchings
  rw [expandCount]
  refine congrArg (fun js => i.branching M c + js.sum) (List.map_congr_left fun j hj => ?_)
  have below := (smaller i ok j hj).2
  exact expandCount_eq (Item.branching M c) (Item.Ok M c) (Item.rank M) smaller
    (smaller i ok j hj).1 below (Nat.lt_succ_self _)

namespace Reduction

/-- An item that is examined and what it becomes. -/
theorem Routed.examine {moving new : List (Nat × Item)} {atTarget out : List (Nat × Pos)}
    {gen : Nat} {done : Multiset Pos} {req : Nat} {i : Item}
    (h : Routed M c moving atTarget gen done) (mem : (req, i) ∈ moving)
    (hnew : new.map Prod.snd = (handle M c free i).1)
    (hout : out.map Prod.snd = (handle M c free i).2) :
    Routed M c (moving.erase (req, i) ++ new) (atTarget ++ out) (gen + i.branching M c) done := by
  have ok : Item.Ok M c i := h.ok _ mem
  have sums : ∀ w : Item → Nat, (new.map fun q => w q.2).sum =
      ((handle M c free i).1.map w).sum := by
    intro w
    rw [← hnew, List.map_map]
    rfl
  have taken : ∀ w : Item → Nat, (moving.map fun q => w q.2).sum =
      w i + ((moving.erase (req, i)).map fun q => w q.2).sum :=
    fun w => Pool.sum_map_erase (fun q => w q.2) mem
  refine ⟨fun q hq => ?_, ?_, fun p => ?_⟩
  · rcases List.mem_append.mp hq with old | fresh
    · exact h.ok q (List.mem_of_mem_erase old)
    · refine (handle_conserve (p := c.src) ok).1 q.2 ?_
      rw [← hnew]
      exact List.mem_map_of_mem fresh
  · have before := h.branchings
    have split := branchings_handle ok
    rw [taken (Item.branchings M c)] at before
    rw [List.map_append, List.sum_append, sums]
    omega
  · have before := h.served p
    have split := (handle_conserve (p := p) ok).2
    rw [taken (Item.covers M c p)] at before
    rw [List.map_append, List.map_append, List.sum_append, sums, List.count_append, hout]
    omega

/-- A target that completes its request has been served. -/
theorem Routed.complete {moving : List (Nat × Item)} {atTarget : List (Nat × Pos)} {gen : Nat}
    {done : Multiset Pos} {req : Nat} {p : Pos} (h : Routed M c moving atTarget gen done)
    (mem : (req, p) ∈ atTarget) :
    Routed M c moving (atTarget.erase (req, p)) gen (p ::ₘ done) := by
  refine ⟨h.ok, h.branchings, fun q => ?_⟩
  have before := h.served q
  have taken := ((List.perm_cons_erase mem).map Prod.snd).count_eq q
  rw [List.map_cons, List.count_cons] at taken
  rw [Multiset.count_cons]
  by_cases same : q = p
  · subst same
    rw [if_pos (beq_self_eq_true q)] at taken
    rw [if_pos rfl]
    omega
  · rw [if_neg fun eq => same (eq_of_beq eq).symm] at taken
    rw [if_neg same]
    omega

end Reduction

/-! ## The invariant -/

/-- The state before the answer. -/
structure ReductionInv (M : Mesh) (c : Collective) (t : CollType) (held : Pos → Buffer n)
    (prior : Buffer n) (s : Reduction n) (W : Multiset Nat) (gen : Nat) (done : Multiset Pos) :
    Prop where
  merging : Merging t held prior s.reqs s.fresh s.leaves W gen done
  root : 0 ∈ s.leaves + W
  unanswered : s.answers = []
  routed : Routed M c s.moving s.atTarget gen done

/-- The examination of `req` takes it off the routers and adds what `i` becomes. -/
def Examined (M : Mesh) (c : Collective) (s : Reduction n) (req : Nat) (i : Item)
    (s' : Reduction n) : Prop :=
  ∃ new out, s'.moving = s.moving.erase (req, i) ++ new ∧
    new.map Prod.snd = (handle M c free i).1 ∧ s'.atTarget = s.atTarget ++ out ∧
      out.map Prod.snd = (handle M c free i).2

section

variable {s s' : Reduction n} {W : Multiset Nat} {gen req : Nat} {done : Multiset Pos} {i : Item}

theorem Examined.routed (h : Routed M c s.moving s.atTarget gen done) (mem : (req, i) ∈ s.moving)
    (examined : Examined M c s req i s') :
    Routed M c s'.moving s'.atTarget (gen + i.branching M c) done := by
  obtain ⟨new, out, moving, hnew, atTarget, hout⟩ := examined
  rw [moving, atTarget]
  exact h.examine mem hnew hout

/-- An item that leaves its router. -/
theorem reductionInv_pass {b : Momentum} {hop : Hop}
    (inv : ReductionInv M c t held prior s W gen done) (mem : (req, i) ∈ s.moving)
    (passes : handle M c free i = arrive b hop) (still : i.branching M c = 0) :
    let s' := { s with moving := s.moving.erase (req, i) }.pass req b hop
    Examined M c s req i s' ∧
      ReductionInv M c t held prior s' W (gen + i.branching M c) done := by
  intro s'
  have examined : Examined M c s req i s' := by
    refine ⟨(arrive b hop).1.map fun j => (req, j), (arrive b hop).2.map fun p => (req, p),
      ?_, ?_, ?_, ?_⟩
    · exact congrArg Reduction.moving (pass_eq hop)
    · rw [passes, List.map_map]
      exact List.map_id _
    · exact congrArg Reduction.atTarget (pass_eq hop)
    · rw [passes, List.map_map]
      exact List.map_id _
  have leaves : s'.leaves = s.leaves := (leaves_pass hop).trans (leaves_take_moving mem)
  have reqs : s'.reqs = s.reqs := by cases hop <;> rfl
  have fresh : s'.fresh = s.fresh := by cases hop <;> rfl
  have answers : s'.answers = s.answers := by cases hop <;> rfl
  refine ⟨examined, ?_, ?_, ?_, examined.routed inv.routed mem⟩
  · rw [reqs, fresh, leaves, still]
    exact inv.merging
  · rw [leaves]
    exact inv.root
  · rw [answers]
    exact inv.unanswered

/-- An item that branches. -/
theorem reductionInv_generate {r : Pos} {b : Momentum} {bs : List Momentum}
    (inv : ReductionInv M c t held prior s W gen done) (mem : (req, i) ∈ s.moving)
    (branches : handle M c free i = ((b :: bs).map fun b => .generated r b, []))
    (marked : i.branching M c = 1) :
    let s' := { s with moving := s.moving.erase (req, i) }.generate req r (b :: bs)
    Examined M c s req i s' ∧
      ReductionInv M c t held prior s' (req ::ₘ W) (gen + i.branching M c) done := by
  intro s'
  have examined : Examined M c s req i s' := by
    obtain ⟨new, moving, items⟩ :
        ∃ new, s'.moving = s.moving.erase (req, i) ++ new ∧ _ := generate_moving (b :: bs)
    refine ⟨new, [], moving, ?_, ?_, ?_⟩
    · rw [items, branches]
    · exact (generate_atTarget _).trans (List.append_nil _).symm
    · rw [branches]
      rfl
  have before := inv.merging
  rw [← leaves_take_moving mem] at before
  have here := before.leaf req (Multiset.mem_cons_self _ _)
  -- the first kid makes the request wait, the others join it
  have first := before.spawn_first
  rw [← leaves_spawn (s := { s with moving := s.moving.erase (req, i) }) (r := r) (b := b)] at first
  have all := merging_generate (s := { s with moving := s.moving.erase (req, i) }.spawn req r b)
    (r := r) bs first (Multiset.mem_cons_self _ _)
    ((congrArg Request.data TreeInv.spawned_self).trans here)
  refine ⟨examined, ?_, ?_, ?_, examined.routed inv.routed mem⟩
  · rw [marked]
    exact all
  · by_contra noRoot
    have empty := (all.tree.eq_zero_of_no_root noRoot).2
    exact Multiset.cons_ne_zero empty
  · exact (generate_answers _).trans inv.unanswered

/-- An examination keeps the invariant. -/
theorem reductionInv_examine (inv : ReductionInv M c t held prior s W gen done)
    (mem : (req, i) ∈ s.moving) :
    ∃ s' W', s.examine M c t req i = some s' ∧ Examined M c s req i s' ∧
      ReductionInv M c t held prior s' W' (gen + i.branching M c) done := by
  cases i with
  | generated r b =>
    have passes : handle M c free (.generated r b) = arrive b (route M r (r.move b)) := rfl
    obtain ⟨examined, inv'⟩ := reductionInv_pass inv mem passes rfl
    exact ⟨_, W, rfl, examined, inv'⟩
  | input r m =>
    rcases branches : collectiveAnalyze M c m r with _ | ⟨b, _ | ⟨b', bs⟩⟩
    · exact absurd branches (inv.routed.ok _ mem).2.2.2
    · have passes : handle M c free (.input r m) = arrive b (branchHop M r b) :=
        handle_single branches
      have still : (Item.input r m).branching M c = 0 := by
        rw [Item.branching, branches]
        rfl
      obtain ⟨examined, inv'⟩ := reductionInv_pass inv mem passes still
      exact ⟨_, W, by rw [examine, branches], examined, inv'⟩
    · have spreads : handle M c free (.input r m) =
          ((b :: b' :: bs).map fun b => .generated r b, []) := by
        rw [handle_many branches, branches]
      have marked : (Item.input r m).branching M c = 1 := by
        rw [Item.branching, branches]
        exact if_pos (Nat.le_add_left 2 bs.length)
      obtain ⟨examined, inv'⟩ := reductionInv_generate inv mem spreads marked
      exact ⟨_, req ::ₘ W, by rw [examine, branches], examined, inv'⟩

end

/-! ## The targets -/

theorem mem_targets {p : Pos} : p ∈ c.targets M ↔ c.Selects M p := by
  unfold Collective.targets
  rw [List.mem_filter, decide_eq_true_eq, and_iff_right_iff_imp]
  intro selects
  obtain ⟨x1, x2, y1, y2⟩ := selects.1
  refine List.mem_map.mpr ⟨(p.x, p.y), ?_, rfl⟩
  rw [List.mem_product, List.mem_range'_1, List.mem_range'_1]
  omega

theorem targets_nodup : (c.targets M).Nodup := by
  have pairs : (List.range' 1 M.nbX ×ˢ List.range' 1 M.nbY).Nodup :=
    List.Nodup.product List.nodup_range' List.nodup_range'
  refine List.Nodup.filter _ (pairs.map ?_)
  rintro ⟨x, y⟩ ⟨x', y'⟩ same
  cases same
  rfl

/-- When nothing is on its way, the served targets are the selected clusters, and every branching
request has kept a copy of the prior content. -/
theorem Reduction.Routed.finished {gen : Nat} {done : Multiset Pos}
    (h : Routed M c [] [] gen done) :
    gen = c.start.branchings M c ∧ done = ↑(c.targets M) := by
  refine ⟨h.branchings, Multiset.ext.mpr fun p => ?_⟩
  have served := h.served p
  rw [Multiset.coe_count, targets_nodup.count]
  simp only [mem_targets]
  exact served

/-! ## The answer -/

/-- The answer: the merge over the targets, with the copies of the prior content. -/
def answer (M : Mesh) (c : Collective) (t : CollType) (held : Pos → Buffer n) (prior : Buffer n) :
    Buffer n :=
  processCollectiveOperations t (merged t (Multiset.replicate (c.start.branchings M c) prior))
    (merged t ↑((c.targets M).map held))

/-- The initiator has been answered and nothing is on its way. -/
structure Answered (M : Mesh) (c : Collective) (t : CollType) (held : Pos → Buffer n)
    (prior : Buffer n) (s : Reduction n) : Prop where
  moving : s.moving = []
  atTarget : s.atTarget = []
  answers : s.answers = [answer M c t held prior]

section

variable {s : Reduction n} {W : Multiset Nat} {gen req : Nat} {done : Multiset Pos} {p : Pos}

/-- A completion keeps the invariant or is the last and answers the initiator. -/
theorem reductionInv_complete (inv : ReductionInv M c t held prior s W gen done)
    (mem : (req, p) ∈ s.atTarget) :
    ∃ s', s.complete t held req p = some s' ∧ s'.moving = s.moving ∧
      s'.atTarget = s.atTarget.erase (req, p) ∧
      ((∃ W', ReductionInv M c t held prior s' W' gen (p ::ₘ done)) ∨
        Answered M c t held prior s') := by
  obtain ⟨reqs, hreqs⟩ : ∃ reqs, reqs = Function.update s.reqs req
    ⟨(s.reqs req).parent, (s.reqs req).pendKids, held p⟩ := ⟨_, rfl⟩
  obtain ⟨taken, htaken⟩ : ∃ taken : Reduction n, taken =
    { s with atTarget := s.atTarget.erase (req, p), reqs := reqs } := ⟨_, rfl⟩
  have other : ∀ u, u ≠ req → reqs u = s.reqs u := fun u hu => by
    rw [hreqs, Function.update_of_ne hu]
  have here : (reqs req).data = held p := by rw [hreqs, Function.update_self]
  have split : req ::ₘ taken.leaves = s.leaves := by
    rw [htaken]
    exact leaves_take_target mem reqs
  have before := inv.merging
  rw [← split] at before
  have tree : TreeInv reqs s.fresh (req ::ₘ taken.leaves) W := by
    refine before.tree.set_data (fun u => ?_) fun u => ?_
    · by_cases same : u = req
      · rw [hreqs, same, Function.update_self]
      · rw [other u same]
    · by_cases same : u = req
      · rw [hreqs, same, Function.update_self]
      · rw [other u same]
  have apart : ∀ u ∈ taken.leaves + W, u ≠ req := by
    rintro u hu rfl
    have twice := tree.nodup
    rw [Multiset.cons_add, Multiset.nodup_cons] at twice
    exact twice.1 hu
  have waits : waiting t reqs W = waiting t s.reqs W := waiting_congr fun u hu => by
    rw [other u (apart u (Multiset.mem_add.mpr (Or.inr hu)))]
  have routed := inv.routed.complete mem
  obtain ⟨reqs', answers', run, frame, result⟩ :=
    handleRequestEnd_spec s.answers tree (tree.lt_fresh req (by simp))
  rw [waits, before.merges, here, process_assoc, process_comm _ (held p), ← merged_cons,
    ← Multiset.map_cons, inv.unanswered] at result
  refine ⟨{ taken with reqs := reqs', answers := answers' }, ?_, ?_, ?_, ?_⟩
  · rw [Reduction.complete]
    rw [← hreqs, ← htaken, finish]
    have same : handleRequestEnd t taken.fresh taken.reqs taken.answers req =
        some (reqs', answers') := by
      rw [htaken]
      exact run
    rw [same]
    rfl
  · rw [htaken]
  · rw [htaken]
  · rcases result with ⟨unanswered, W', tree', root, merges⟩ | ⟨none, answered⟩
    · refine Or.inl ⟨W', ⟨?_, fun u hu => ?_, merges⟩, root, unanswered, ?_⟩
      · rw [htaken]
        rw [htaken] at tree'
        exact tree'
      · have notW : u ∉ W := by
          have disjoint := (Multiset.nodup_add.mp tree.nodup).2.2
          exact Multiset.disjoint_left.mp disjoint (Multiset.mem_cons_of_mem hu)
        show (reqs' u).data = prior
        rw [frame u notW, other u (apart u (Multiset.mem_add.mpr (Or.inl hu)))]
        exact before.leaf u (Multiset.mem_cons_of_mem hu)
      · rw [htaken]
        exact routed
    · -- the last request: everything has been served
      obtain ⟨moving, atTarget⟩ := eq_nil_of_leaves none
      have final : Routed M c taken.moving taken.atTarget gen (p ::ₘ done) := by
        rw [htaken]
        exact routed
      rw [moving, atTarget] at final
      obtain ⟨rfl, all⟩ := final.finished
      refine Or.inr ⟨moving, atTarget, ?_⟩
      rw [answered, all]
      rfl

/-! ## Runs -/

/-- Before the answer or after it. -/
def Running (M : Mesh) (c : Collective) (t : CollType) (held : Pos → Buffer n) (prior : Buffer n)
    (s : Reduction n) : Prop :=
  (∃ W gen done, ReductionInv M c t held prior s W gen done) ∨ Answered M c t held prior s

theorem running_init (hs : M.HasRouter c.src) :
    Running M c t held prior (Reduction.init c prior) := by
  refine Or.inl ⟨0, 0, 0, ⟨⟨?_, fun _ _ => rfl, ?_⟩, ?_, rfl, ?_⟩⟩
  · refine ⟨?_, fun v hv => ?_, fun v hv => ?_, fun p hp => ?_, fun _ _ => rfl⟩
    · exact Multiset.nodup_singleton 0
    · rw [Multiset.mem_singleton.mp hv]
      exact Nat.zero_lt_one
    · exact Or.inl ⟨Multiset.mem_singleton.mp hv, rfl⟩
    · cases Multiset.notMem_zero p hp
  · exact (process_unit _).symm
  · exact Multiset.mem_singleton_self 0
  · refine ⟨fun q hq => ?_, ?_, fun p => ?_⟩
    · rw [List.mem_singleton.mp hq]
      exact start_ok hs
    · exact Nat.zero_add _
    · rw [← covers_start]
      exact Nat.zero_add _

theorem running_step {s' : Reduction n} (run : Running M c t held prior s)
    (step : Step M c t held s s') : Running M c t held prior s' := by
  cases step with
  | examine mem examined =>
    rcases run with ⟨W, gen, done, inv⟩ | answered
    · obtain ⟨s'', W', result, -, inv'⟩ := reductionInv_examine inv mem
      rw [examined] at result
      cases result
      exact Or.inl ⟨W', _, done, inv'⟩
    · rw [answered.moving] at mem
      cases mem
  | complete mem completed =>
    rcases run with ⟨W, gen, done, inv⟩ | answered
    · obtain ⟨s'', result, -, -, inv'⟩ := reductionInv_complete inv mem
      rw [completed] at result
      cases result
      exact inv'.imp (fun ⟨W', inv'⟩ => ⟨W', gen, _, inv'⟩) id
    · rw [answered.atTarget] at mem
      cases mem

/-- Before the answer something is on its way. -/
theorem ReductionInv.busy (inv : ReductionInv M c t held prior s W gen done) :
    s.moving ≠ [] ∨ s.atTarget ≠ [] := by
  by_contra idle
  obtain ⟨moving, atTarget⟩ := not_or.mp idle
  have leaves : s.leaves = 0 := by
    unfold leaves
    rw [not_not.mp moving, not_not.mp atTarget]
    rfl
  have tree := inv.merging.tree
  have root := inv.root
  rw [leaves] at tree root
  rw [tree.eq_zero_of_no_leaf] at root
  exact Multiset.notMem_zero 0 root

/-- What is left to do. -/
def Reduction.work (M : Mesh) (s : Reduction n) : Nat :=
  2 * (s.moving.map fun q => 6 ^ q.2.rank M).sum + s.atTarget.length

theorem work_examined {s' : Reduction n} {i : Item} (ok : Item.Ok M c i) (mem : (req, i) ∈ s.moving)
    (examined : Examined M c s req i s') : s'.work M < s.work M := by
  obtain ⟨new, out, moving, hnew, atTarget, hout⟩ := examined
  have few : new.length < 6 := by
    rw [← List.length_map Prod.snd, hnew]
    exact handle_length i
  have one : out.length ≤ 1 := by
    rw [← List.length_map Prod.snd, hout]
    exact handle_out_length i
  have smaller : ∀ q ∈ new, q.2.rank M < i.rank M := fun q hq => by
    refine rank_handle ok q.2 ?_
    rw [← hnew]
    exact List.mem_map_of_mem hq
  have shrinks : ((s.moving.erase (req, i) ++ new).map fun q => 6 ^ q.2.rank M).sum <
      (s.moving.map fun q => 6 ^ q.2.rank M).sum :=
    Pool.size_replace_lt (s := ⟨s.moving, s.atTarget⟩) (r := (new, out)) mem few smaller
  unfold work
  rw [moving, atTarget, List.length_append]
  omega

/-- Every run can be completed. -/
theorem exists_answer (run : Running M c t held prior s) :
    ∃ s', Relation.ReflTransGen (Step M c t held) s s' ∧ Running M c t held prior s' ∧
      s'.moving = [] ∧ s'.atTarget = [] := by
  refine exists_run_to_goal (fun s => s.moving = [] ∧ s.atTarget = []) (Reduction.work M) ?_ s run
  intro s run unfinished
  rcases run with ⟨W, gen, done, inv⟩ | answered
  · rcases inv.busy with moving | waiting
    · obtain ⟨⟨req, i⟩, mem⟩ := List.exists_mem_of_ne_nil _ moving
      obtain ⟨s', W', result, examined, inv'⟩ := reductionInv_examine inv mem
      exact ⟨s', .examine mem result, Or.inl ⟨W', _, done, inv'⟩,
        work_examined (inv.routed.ok _ mem) mem examined⟩
    · obtain ⟨⟨req, p⟩, mem⟩ := List.exists_mem_of_ne_nil _ waiting
      obtain ⟨s', result, moving, atTarget, inv'⟩ := reductionInv_complete inv mem
      refine ⟨s', .complete mem result, inv'.imp (fun ⟨W', inv'⟩ => ⟨W', gen, _, inv'⟩) id, ?_⟩
      unfold work
      rw [moving, atTarget, List.length_erase_of_mem mem]
      have pos := List.length_pos_of_mem mem
      omega
  · exact absurd ⟨answered.moving, answered.atTarget⟩ unfinished

end

/-! ## When the answer is right -/

/-- The prior content of the read buffer cannot be seen in the result. -/
def Harmless (M : Mesh) (c : Collective) (t : CollType) (held : Pos → Buffer n)
    (prior : Buffer n) : Prop :=
  match t with
  | .addUint16 | .addInt16 => ∀ i, BitVec.ofNat 16 (c.start.branchings M c) * prior i = 0
  | .maxUint16 | .maxInt16 =>
      c.start.branchings M c = 0 ∨ ∀ i, ∃ p ∈ c.targets M, t.key (prior i) ≤ t.key (held p i)

/-- The merge over the selected clusters, in any order, is their fold. -/
theorem merged_targets : merged t ↑((c.targets M).map held) = reduce M c t held := by
  funext i
  unfold reduce
  induction c.targets M with
  | nil => rfl
  | cons p ps ih =>
    rw [List.map_cons, ← Multiset.cons_coe, merged_cons, List.map_cons, List.foldr_cons, ← ih]
    rfl

theorem merged_replicate_add (add : t.combine = fun a b => a + b) (k : Nat) (i : Fin n) :
    merged t (Multiset.replicate k prior) i = BitVec.ofNat 16 k * prior i := by
  have unit : t.unit = 0 := by
    have := t.combine_unit 0
    rw [add] at this
    exact (BitVec.zero_add _).symm.trans this
  induction k with
  | zero =>
    show t.unit = _
    rw [unit]
    exact (BitVec.zero_mul).symm
  | succ k ih =>
    rw [Multiset.replicate_succ, merged_cons]
    show t.combine (prior i) _ = _
    rw [ih, add, BitVec.ofNat_add, BitVec.add_mul, BitVec.add_comm]
    congr 1
    exact (BitVec.one_mul _).symm

theorem merged_replicate_max (isMax : t.IsMax) (k : Nat) :
    merged t (Multiset.replicate (k + 1) prior) = prior := by
  induction k with
  | zero =>
    rw [Multiset.replicate_succ, merged_cons]
    exact process_unit prior
  | succ k ih =>
    rw [Multiset.replicate_succ, merged_cons, ih]
    refine funext fun i => t.key_injective ?_
    show t.key (t.combine (prior i) (prior i)) = _
    rw [CollType.key_combine isMax, max_self]

/-- Below a maximum means below one of the elements. -/
theorem le_key_foldr (isMax : t.IsMax) (k : Int) (as : List (BitVec 16)) :
    k ≤ t.key (as.foldr t.combine t.unit) ↔ k ≤ t.key t.unit ∨ ∃ a ∈ as, k ≤ t.key a := by
  induction as with
  | nil => simp
  | cons a as ih =>
    rw [List.foldr_cons, CollType.key_combine isMax, le_max_iff, ih]
    simp only [List.mem_cons, exists_eq_or_imp]
    exact or_left_comm

/-- Below the maximum of the targets means below one of the targets. -/
theorem le_key_reduce (isMax : t.IsMax) (hs : M.HasRouter c.src) (k : Int) (i : Fin n) :
    k ≤ t.key (reduce M c t held i) ↔ ∃ p ∈ c.targets M, k ≤ t.key (held p i) := by
  unfold reduce
  rw [le_key_foldr isMax]
  simp only [List.mem_map, exists_exists_and_eq_and]
  refine or_iff_right_of_imp fun below => ?_
  have source : c.src ∈ c.targets M := mem_targets.mpr ⟨hs, checkTarget_iff.mpr ⟨rfl, rfl⟩⟩
  exact ⟨c.src, source, below.trans (CollType.key_unit_le isMax _)⟩

theorem answer_eq_iff (hs : M.HasRouter c.src) :
    answer M c t held prior = reduce M c t held ↔ Harmless M c t held prior := by
  unfold answer
  rw [merged_targets]
  -- a sum is right when the copies add up to zero
  have sum : t.combine = (fun a b => a + b) →
      (processCollectiveOperations t
          (merged t (Multiset.replicate (c.start.branchings M c) prior)) (reduce M c t held) =
        reduce M c t held ↔ ∀ i, BitVec.ofNat 16 (c.start.branchings M c) * prior i = 0) := by
    intro add
    rw [funext_iff]
    refine forall_congr' fun i => ?_
    show t.combine _ _ = _ ↔ _
    rw [merged_replicate_add add, add]
    exact BitVec.add_left_eq_self
  -- a maximum is right when there is no copy or it is not above the targets
  have maximum : t.IsMax →
      (processCollectiveOperations t
          (merged t (Multiset.replicate (c.start.branchings M c) prior)) (reduce M c t held) =
        reduce M c t held ↔ c.start.branchings M c = 0 ∨
          ∀ i, ∃ p ∈ c.targets M, t.key (prior i) ≤ t.key (held p i)) := by
    intro isMax
    cases c.start.branchings M c with
    | zero =>
      refine iff_of_true ?_ (Or.inl rfl)
      rw [Multiset.replicate_zero, merged_zero, process_comm, process_unit]
    | succ k =>
      rw [merged_replicate_max isMax, funext_iff]
      simp only [Nat.add_one_ne_zero, false_or]
      refine forall_congr' fun i => ?_
      rw [← le_key_reduce isMax hs, ← max_eq_right_iff]
      show t.combine (prior i) _ = _ ↔ _
      rw [← CollType.key_combine isMax]
      exact ⟨congrArg t.key, t.key_injective⟩
  cases t with
  | addUint16 | addInt16 => exact sum rfl
  | maxUint16 => exact maximum (Or.inl rfl)
  | maxInt16 => exact maximum (Or.inr rfl)

/-- In every run the initiator is answered at most once, and not before everything has completed;
every run can be completed; and when it is, the initiator has been answered once, with the fold over
the selected clusters if and only if the prior content of its buffer is harmless. -/
theorem reduction_answer_iff (M : Mesh) (c : Collective) (t : CollType) (held : Pos → Buffer n)
    (prior : Buffer n) (hs : M.HasRouter c.src) (s : Reduction n) (run : Run M c t held prior s) :
    (s.answers = [] ∨ s.answers.length = 1 ∧ s.moving = [] ∧ s.atTarget = []) ∧
      (s.moving = [] → s.atTarget = [] → s.answers.length = 1 ∧
        (s.answers = [reduce M c t held] ↔ Harmless M c t held prior)) ∧
      ∃ s', Relation.ReflTransGen (Step M c t held) s s' ∧ s'.moving = [] ∧ s'.atTarget = [] := by
  have running : Running M c t held prior s :=
    invariant_of_run (Running M c t held prior) (fun _ _ => running_step) (running_init hs) run
  refine ⟨?_, fun moving atTarget => ?_, ?_⟩
  · rcases running with ⟨W, gen, done, inv⟩ | answered
    · exact Or.inl inv.unanswered
    · exact Or.inr ⟨by rw [answered.answers]; rfl, answered.moving, answered.atTarget⟩
  · rcases running with ⟨W, gen, done, inv⟩ | answered
    · exact absurd (inv.busy) (not_or.mpr ⟨not_not.mpr moving, not_not.mpr atTarget⟩)
    · rw [answered.answers, ← answer_eq_iff hs, List.cons_eq_cons, and_iff_left rfl]
      exact ⟨rfl, Iff.rfl⟩
  · obtain ⟨s', rest, -, finished⟩ := exists_answer running
    exact ⟨s', rest, finished⟩

/-- Every cluster holds its column. -/
def columns (p : Pos) (_ : Fin 1) : BitVec 16 := BitVec.ofNat 16 p.x

/-- Two clusters that hold 1 and 2 are added up, with an empty read buffer. -/
theorem reduction_answer_iff_columns :
    ∃ s, Run ⟨2, 1⟩ ⟨⟨1, 1⟩, 0, 0⟩ .addUint16 columns (fun _ => 0) s ∧ s.answers = [fun _ => 3] ∧
      Harmless ⟨2, 1⟩ ⟨⟨1, 1⟩, 0, 0⟩ .addUint16 columns fun _ => 0 := by
  have look : ∀ {s s' : Reduction 1} (req : Nat) (i : Item), (req, i) ∈ s.moving →
      s.examine ⟨2, 1⟩ ⟨⟨1, 1⟩, 0, 0⟩ .addUint16 req i = some s' →
      Step ⟨2, 1⟩ ⟨⟨1, 1⟩, 0, 0⟩ .addUint16 columns s s' := fun _ _ => .examine
  have serve : ∀ {s s' : Reduction 1} (req : Nat) (p : Pos), (req, p) ∈ s.atTarget →
      s.complete .addUint16 columns req p = some s' →
      Step ⟨2, 1⟩ ⟨⟨1, 1⟩, 0, 0⟩ .addUint16 columns s s' := fun _ _ => .complete
  obtain ⟨s, run, moving, atTarget, answers⟩ : ∃ s,
      Run ⟨2, 1⟩ ⟨⟨1, 1⟩, 0, 0⟩ .addUint16 columns (fun _ => 0) s ∧
        s.moving = [] ∧ s.atTarget = [] ∧ s.answers = [fun _ => 3] :=
    ⟨_,
      .head (look 0 (.input ⟨1, 1⟩ .zero) (by decide) rfl) <|
      .head (look 2 (.generated ⟨1, 1⟩ .right) (by decide) rfl) <|
      .head (look 1 (.generated ⟨1, 1⟩ .zero) (by decide) rfl) <|
      .head (look 2 (.input ⟨2, 1⟩ .right) (by decide) rfl) <|
      .head (serve 1 ⟨1, 1⟩ (by decide) rfl) <|
      .single (serve 2 ⟨2, 1⟩ (by decide) rfl),
      rfl, rfl, rfl⟩
  obtain ⟨-, final, -⟩ :=
    reduction_answer_iff ⟨2, 1⟩ ⟨⟨1, 1⟩, 0, 0⟩ .addUint16 columns _ (by decide) s run
  refine ⟨s, run, answers, (final moving atTarget).2.mp ?_⟩
  rw [answers]
  exact congrArg (· :: []) (funext (by decide))

/-- Two clusters that both hold 0 are added up, and the read buffer of the initiator holds 1: the
answer is 1. -/
theorem reduction_prior_fails :
    ∃ s, Run ⟨2, 1⟩ ⟨⟨1, 1⟩, 0, 0⟩ .addUint16 (fun _ _ => 0) (fun _ : Fin 1 => 1) s ∧
      s.moving = [] ∧ s.atTarget = [] ∧ s.answers = [fun _ => 1] ∧
        s.answers ≠ [reduce ⟨2, 1⟩ ⟨⟨1, 1⟩, 0, 0⟩ .addUint16 fun _ _ => 0] := by
  have look : ∀ {s s' : Reduction 1} (req : Nat) (i : Item), (req, i) ∈ s.moving →
      s.examine ⟨2, 1⟩ ⟨⟨1, 1⟩, 0, 0⟩ .addUint16 req i = some s' →
      Step ⟨2, 1⟩ ⟨⟨1, 1⟩, 0, 0⟩ .addUint16 (fun _ _ => 0) s s' := fun _ _ => .examine
  have serve : ∀ {s s' : Reduction 1} (req : Nat) (p : Pos), (req, p) ∈ s.atTarget →
      s.complete .addUint16 (fun _ _ => 0) req p = some s' →
      Step ⟨2, 1⟩ ⟨⟨1, 1⟩, 0, 0⟩ .addUint16 (fun _ _ => 0) s s' := fun _ _ => .complete
  -- the right kid is handed over last and completes last
  exact ⟨_,
    .head (look 0 (.input ⟨1, 1⟩ .zero) (by decide) rfl) <|
    .head (look 2 (.generated ⟨1, 1⟩ .right) (by decide) rfl) <|
    .head (look 1 (.generated ⟨1, 1⟩ .zero) (by decide) rfl) <|
    .head (look 2 (.input ⟨2, 1⟩ .right) (by decide) rfl) <|
    .head (serve 1 ⟨1, 1⟩ (by decide) rfl) <|
    .single (serve 2 ⟨2, 1⟩ (by decide) rfl),
    rfl, rfl, rfl, fun same => absurd (congrFun (List.cons.inj same).1 0) (by decide)⟩

end SoftHier.Noc
