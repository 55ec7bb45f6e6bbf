import SoftHier.Lib.Transition
import SoftHier.Noc.Coverage

/-!
# Multicast under back-pressure

The state of a collective request in the network is the pool of its requests and kids, together with
the targets already served.  In a step any one of them is examined, with any of the output queues of
its router stalled.  A request whose only branch is the local one has its momentum set to zero
before the stall is noticed, and analysed again it branches in every direction; `Calm` says that
this does not happen.

* `handle_stalled_conserve`: a calm step keeps what is covered.
* `stalled_multicast`: along every run of calm steps no node is served too often, nothing is lost,
  and the request can always be completed.
* `multicast_stall_fails`: a run with a step that is not calm serves a cluster twice.
-/

namespace SoftHier.Noc

/-- The pool of a collective request as it is injected. -/
def Collective.init (c : Collective) : Pool Item Pos := ⟨[c.start], []⟩

/-- One examination, under any pattern of stalled queues. -/
def Step (M : Mesh) (c : Collective) (s t : Pool Item Pos) : Prop :=
  ∃ i ∈ s.items, ∃ stalled, t = s.replace i (handle M c stalled i)

/-- The local queue is not stalled when a request that came from another router is examined and has
the local branch only. -/
def Calm (M : Mesh) (c : Collective) (stalled : Momentum → Bool) : Item → Prop
  | .input r m => m ≠ .zero → collectiveAnalyze M c m r = [.zero] → stalled .zero = false
  | .generated _ _ => True

/-- One examination that is calm. -/
def CalmStep (M : Mesh) (c : Collective) (s t : Pool Item Pos) : Prop :=
  ∃ i ∈ s.items, ∃ stalled, Calm M c stalled i ∧ t = s.replace i (handle M c stalled i)

section

variable {M : Mesh} {c : Collective} {stalled : Momentum → Bool} {i : Item}

/-- A calm examination either finds its queue stalled and leaves the item as it is, or does what an
unstalled one does. -/
theorem handle_of_calm (ok : Item.Ok M c i) (calm : Calm M c stalled i) :
    handle M c stalled i = ([i], []) ∨ handle M c stalled i = handle M c free i := by
  cases i with
  | generated r b =>
    by_cases waits : stalled b = true
    · exact Or.inl (if_pos waits)
    · exact Or.inr (if_neg waits)
  | input r m =>
    rcases branches : collectiveAnalyze M c m r with _ | ⟨b, _ | ⟨b', bs⟩⟩
    · exact Or.inr (by rw [handle_none branches, handle_none branches])
    · rw [handle_single branches, handle_single branches]
      by_cases waits : stalled b = true
      · have same : b = m := by
          rcases single_branch ok branches with same | zero
          · exact same
          · subst zero
            by_contra other
            rw [calm (Ne.symm other) branches] at waits
            exact Bool.false_ne_true waits
        subst same
        exact Or.inl (if_pos waits)
      · exact Or.inr (by rw [if_neg waits]; rfl)
    · exact Or.inr (by rw [handle_many branches, handle_many branches])

/-- A calm examination hands on what an item covers. -/
theorem handle_stalled_conserve (ok : Item.Ok M c i) (calm : Calm M c stalled i) (p : Pos) :
    (∀ j ∈ (handle M c stalled i).1, Item.Ok M c j) ∧
      i.covers M c p = ((handle M c stalled i).1.map (Item.covers M c p)).sum +
        (handle M c stalled i).2.count p := by
  rcases handle_of_calm ok calm with waits | moves
  · rw [waits]
    exact ⟨fun j hj => List.mem_singleton.mp hj ▸ ok, rfl⟩
  · rw [moves]
    exact handle_conserve ok

end

/-- What holds along runs of calm steps. -/
structure StallInv (M : Mesh) (c : Collective) (s : Pool Item Pos) : Prop where
  ok : ∀ i ∈ s.items, Item.Ok M c i
  total : ∀ p, s.total (Item.covers M c p) p = if c.Selects M p then 1 else 0

section

variable {M : Mesh} {c : Collective} {s t : Pool Item Pos}

theorem stallInv_init (hs : M.HasRouter c.src) : StallInv M c c.init where
  ok := fun _ hi => List.mem_singleton.mp hi ▸ start_ok hs
  total := fun _ => covers_start

theorem stallInv_step (inv : StallInv M c s) (step : CalmStep M c s t) : StallInv M c t := by
  obtain ⟨i, hi, stalled, calm, rfl⟩ := step
  have ok := inv.ok i hi
  refine ⟨fun j hj => ?_, fun p => ?_⟩
  · rcases Pool.mem_replace hj with old | new
    · exact inv.ok j old
    · exact (handle_stalled_conserve ok calm c.src).1 j new
  · rw [← inv.total p]
    exact Pool.total_replace hi (handle_stalled_conserve ok calm p).2

/-- From every state of a calm run unstalled steps complete the request. -/
theorem exists_completion (inv : StallInv M c s) :
    ∃ t, Relation.ReflTransGen (CalmStep M c) s t ∧ StallInv M c t ∧ t.items = [] := by
  refine exists_run_to_goal (fun t => t.items = []) (Pool.size 6 (Item.rank M)) ?_ s inv
  intro s inv unfinished
  obtain ⟨i, hi⟩ := List.exists_mem_of_ne_nil _ unfinished
  have calm : Calm M c free i := by
    cases i with
    | input r m => exact fun _ _ => rfl
    | generated r b => exact trivial
  have step : CalmStep M c s (s.replace i (handle M c free i)) := ⟨i, hi, free, calm, rfl⟩
  exact ⟨_, step, stallInv_step inv step,
    Pool.size_replace_lt hi (handle_length i) (rank_handle (inv.ok i hi))⟩

end

/-- In every state of a run of calm steps no selected cluster has been served twice and no other
node at all; once nothing is on its way every selected cluster has been served; and this can always
be reached. -/
theorem stalled_multicast (M : Mesh) (c : Collective) (hs : M.HasRouter c.src)
    (s : Pool Item Pos) (run : Relation.ReflTransGen (CalmStep M c) c.init s) :
    (∀ p, s.out.count p ≤ if c.Selects M p then 1 else 0) ∧
      (s.items = [] → ∀ p, s.out.count p = if c.Selects M p then 1 else 0) ∧
      ∃ t, Relation.ReflTransGen (CalmStep M c) s t ∧ t.items = [] := by
  have inv : StallInv M c s :=
    invariant_of_run (StallInv M c) (fun _ _ => stallInv_step) (stallInv_init hs) run
  refine ⟨fun p => ?_, fun finished p => ?_, ?_⟩
  · rw [← inv.total p]
    exact Nat.le_add_left _ _
  · rw [← inv.total p, Pool.total, finished]
    exact (Nat.zero_add _).symm
  · obtain ⟨t, rest, -, finished⟩ := exists_completion inv
    exact ⟨t, rest, finished⟩

/-- The left cluster has been served and the right one not yet. -/
theorem stalled_multicast_half :
    ∃ s, Relation.ReflTransGen (CalmStep ⟨2, 1⟩ ⟨⟨1, 1⟩, 0, 0⟩) (Collective.init ⟨⟨1, 1⟩, 0, 0⟩) s ∧
      s.out = [⟨1, 1⟩] ∧
      (∀ p, s.out.count p ≤ if (Collective.mk ⟨1, 1⟩ 0 0).Selects ⟨2, 1⟩ p then 1 else 0) ∧
      (s.items = [] →
        ∀ p, s.out.count p = if (Collective.mk ⟨1, 1⟩ 0 0).Selects ⟨2, 1⟩ p then 1 else 0) ∧
      ∃ t, Relation.ReflTransGen (CalmStep ⟨2, 1⟩ ⟨⟨1, 1⟩, 0, 0⟩) s t ∧ t.items = [] := by
  have run : Relation.ReflTransGen (CalmStep ⟨2, 1⟩ ⟨⟨1, 1⟩, 0, 0⟩)
      (Collective.init ⟨⟨1, 1⟩, 0, 0⟩) ⟨[.input ⟨2, 1⟩ .right], [⟨1, 1⟩]⟩ := by
    refine .head (b := ⟨[.generated ⟨1, 1⟩ .zero, .generated ⟨1, 1⟩ .right], []⟩)
      ⟨.input ⟨1, 1⟩ .zero, by decide, free, fun _ _ => rfl, by decide⟩ ?_
    refine .head (b := ⟨[.generated ⟨1, 1⟩ .right], [⟨1, 1⟩]⟩)
      ⟨.generated ⟨1, 1⟩ .zero, by decide, free, trivial, by decide⟩ ?_
    exact .single ⟨.generated ⟨1, 1⟩ .right, by decide, free, trivial, by decide⟩
  exact ⟨_, run, rfl, stalled_multicast ⟨2, 1⟩ ⟨⟨1, 1⟩, 0, 0⟩ (by decide) _ run⟩

/-- Two clusters in a row, all selected, source the left one: the right cluster finds its local
queue stalled when it first examines the request, and the left cluster is served twice. -/
theorem multicast_stall_fails :
    ∃ s, Relation.ReflTransGen (Step ⟨2, 1⟩ ⟨⟨1, 1⟩, 0, 0⟩) (Collective.init ⟨⟨1, 1⟩, 0, 0⟩) s ∧
      s.items = [] ∧ s.out = [⟨1, 1⟩, ⟨2, 1⟩, ⟨1, 1⟩] ∧
      ¬ ∀ p, s.out.count p ≤ if (Collective.mk ⟨1, 1⟩ 0 0).Selects ⟨2, 1⟩ p then 1 else 0 := by
  refine ⟨⟨[], [⟨1, 1⟩, ⟨2, 1⟩, ⟨1, 1⟩]⟩, ?_, rfl, rfl, fun all => ?_⟩
  · have step : ∀ {s t : Pool Item Pos} (i : Item) (stalled : Momentum → Bool), i ∈ s.items →
        t = s.replace i (handle ⟨2, 1⟩ ⟨⟨1, 1⟩, 0, 0⟩ stalled i) →
        Step ⟨2, 1⟩ ⟨⟨1, 1⟩, 0, 0⟩ s t := fun i stalled hi eq => ⟨i, hi, stalled, eq⟩
    -- the source spawns a local kid and one to the right
    refine .head (b := ⟨[.generated ⟨1, 1⟩ .zero, .generated ⟨1, 1⟩ .right], []⟩)
      (step (.input ⟨1, 1⟩ .zero) free (by decide) (by decide)) ?_
    refine .head (b := ⟨[.generated ⟨1, 1⟩ .right], [⟨1, 1⟩]⟩)
      (step (.generated ⟨1, 1⟩ .zero) free (by decide) (by decide)) ?_
    refine .head (b := ⟨[.input ⟨2, 1⟩ .right], [⟨1, 1⟩]⟩)
      (step (.generated ⟨1, 1⟩ .right) free (by decide) (by decide)) ?_
    -- the right cluster finds its local queue stalled and keeps the request with momentum zero
    refine .head (b := ⟨[.input ⟨2, 1⟩ .zero], [⟨1, 1⟩]⟩)
      (step (.input ⟨2, 1⟩ .right) (fun d => decide (d = .zero)) (by decide) (by decide)) ?_
    -- analysed again it also branches to the left
    refine .head (b := ⟨[.generated ⟨2, 1⟩ .zero, .generated ⟨2, 1⟩ .left], [⟨1, 1⟩]⟩)
      (step (.input ⟨2, 1⟩ .zero) free (by decide) (by decide)) ?_
    refine .head (b := ⟨[.generated ⟨2, 1⟩ .left], [⟨1, 1⟩, ⟨2, 1⟩]⟩)
      (step (.generated ⟨2, 1⟩ .zero) free (by decide) (by decide)) ?_
    refine .head (b := ⟨[.input ⟨1, 1⟩ .left], [⟨1, 1⟩, ⟨2, 1⟩]⟩)
      (step (.generated ⟨2, 1⟩ .left) free (by decide) (by decide)) ?_
    exact .single (step (.input ⟨1, 1⟩ .left) free (by decide) (by decide))
  · exact absurd (all ⟨1, 1⟩) (by decide)

end SoftHier.Noc
