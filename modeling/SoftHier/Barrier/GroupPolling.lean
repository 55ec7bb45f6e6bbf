import SoftHier.Barrier.Geometry
import SoftHier.Barrier.Polling

/-!
# The polling barrier of the groups

`grid_sync_group_barrier_xy_polling` as the dm cores of all clusters execute it: every cluster takes
the addresses of its words and the numbers of clusters from its `GridSyncGroupInfo`, and all of them
work on one memory.  Each group makes its own number of calls.

* `GroupPolling`: the state, `GroupPolling.exec` the next access of a cluster.
* `GroupPolling.start`: the memory after the stores of `grid_sync_group_init`.
* `GroupPolling.view`: what a group sees, a state of the polling barrier of its own mesh.
* `view_exec`, `view_exec_of_ne`: an access is one of the barrier of its group, and no other group
  sees it.
* `group_polling`: what the barrier promises, group by group, and in any order of the accesses.
-/

namespace SoftHier.Barrier

/-- The dm cores and the words of the synchronisation memories, by their addresses; `releases`
counts the increments of the iteration words. -/
structure GroupPolling (M : GroupMachine) where
  core : M.Clusters → PollingCore
  word : Nat → BitVec 32
  releases : Nat → Nat

namespace GroupPolling

variable {M : GroupMachine} (L : SyncMemory)

/-- A core changes. -/
def put (s : GroupPolling M) (c : M.Clusters) (me : PollingCore) : GroupPolling M :=
  { s with core := Function.update s.core c me }

/-- A word changes. -/
def store (s : GroupPolling M) (a : Nat) (w : BitVec 32) : GroupPolling M :=
  { s with word := Function.update s.word a w }

/-- An iteration word is incremented. -/
def release (s : GroupPolling M) (a : Nat) : GroupPolling M :=
  { s.store a (amoFetchAdd (s.word a)) with
    releases := Function.update s.releases a (s.releases a + 1) }

/-- The next access of the dm core of `c`, if it has not left its last call. -/
def exec (rounds : Group M → Nat) (s : GroupPolling M) (c : M.Clusters) :
    Option (GroupPolling M) :=
  let me := s.core c
  let info := M.info c
  let syncXPoint := L.point c .syncXPoint
  let syncXPiter := L.point c .syncXPiter
  let syncYPoint := L.point c .syncYPoint
  let syncYPiter := L.point c .syncYPiter
  match me.pc with
  | .out => if me.calls < rounds (.of c) then some (s.put c { me with pc := .readIx }) else none
  | .readIx => some (s.put c { me with pc := .readIy, prevX := s.word syncXPiter })
  | .readIy => some (s.put c { me with pc := .amoX, prevY := s.word syncYPiter })
  | .amoX =>
      let pc := if isLast info.thisGridClusterNumX (s.word syncXPoint) then .resetX else .pollIx
      some ((s.put c { me with pc := pc }).store syncXPoint (amoFetchAdd (s.word syncXPoint)))
  | .resetX => some ((s.put c { me with pc := .amoY }).store syncXPoint 0)
  | .amoY =>
      let pc := if isLast info.thisGridClusterNumY (s.word syncYPoint) then .resetY else .pollIy
      some ((s.put c { me with pc := pc }).store syncYPoint (amoFetchAdd (s.word syncYPoint)))
  | .resetY => some ((s.put c { me with pc := .amoIy }).store syncYPoint 0)
  | .amoIy => some ((s.put c { me with pc := .amoIx }).release syncYPiter)
  | .pollIy =>
      some (if s.word syncYPiter = me.prevY then s else s.put c { me with pc := .amoIx })
  | .amoIx =>
      some ((s.put c { me with pc := .out, calls := me.calls + 1 }).release syncXPiter)
  | .pollIx =>
      some (if s.word syncXPiter = me.prevX then s
        else s.put c { me with pc := .out, calls := me.calls + 1 })

/-- The two stores of `grid_sync_group_init` in cluster `c`. -/
def resetPoints (memory : Nat → BitVec 32) (c : M.Clusters) : Nat → BitVec 32 :=
  Function.update (Function.update memory (L.word (clusterIndex M.toGrid c.1 c.2) 24) 0)
    (L.word (clusterIndex M.toGrid c.1 c.2) 32) 0

/-- All clusters have gone through `grid_sync_group_init`, one after the other in `order`. -/
def start (memory : Nat → BitVec 32) (order : List M.Clusters) : GroupPolling M where
  core := fun _ => ⟨.out, 0, 0, 0⟩
  word := order.foldl (resetPoints L) memory
  releases := fun _ => 0

/-- Some core makes its next access. -/
def Step (rounds : Group M → Nat) (s s' : GroupPolling M) : Prop := ∃ c, s.exec L rounds c = some s'

/-- The calls a cluster has entered. -/
def entered (s : GroupPolling M) (c : M.Clusters) : Nat :=
  (s.core c).calls + if (s.core c).pc = .out then 0 else 1

/-- A cluster has left its last call. -/
def Done (rounds : Group M → Nat) (s : GroupPolling M) (c : M.Clusters) : Prop :=
  (s.core c).pc = .out ∧ (s.core c).calls = rounds (.of c)

end GroupPolling

/-! ## The words of a group -/

namespace Group

variable {M : GroupMachine} {L : SyncMemory} {g h : Group M} {k l : GroupPoint}

/-- The address of a word, as the first cluster of row `y` of the group has computed it. -/
def point (g : Group M) (L : SyncMemory) (y : Fin g.grid.numY) (k : GroupPoint) : Nat :=
  L.point (g.embed (⟨0, g.grid.numX_pos⟩, y)) k

/-- The first row. -/
def first (g : Group M) : Fin g.grid.numY := ⟨0, g.grid.numY_pos⟩

theorem sameGroup_embed (d e : g.machine.Clusters) : M.SameGroup (g.embed d) (g.embed e) :=
  of_eq_iff.mp ((of_embed d).trans (of_embed e).symm)

/-- The other clusters of the row have computed the same. -/
theorem point_embed (d : g.machine.Clusters) (k : GroupPoint) :
    L.point (g.embed d) k = g.point L d.2 k :=
  point_eq_iff.mpr ⟨rfl, sameGroup_embed _ _, fun _ => rfl⟩

/-- And those of the other rows the same words of the second level. -/
theorem point_column (d : g.machine.Clusters) (level : k.rowLevel = false) :
    L.point (g.embed d) k = g.point L g.first k := by
  refine point_eq_iff.mpr ⟨rfl, sameGroup_embed _ _, fun row => ?_⟩
  rw [level] at row
  cases row

theorem point_ne_of_ne {y : Fin g.grid.numY} {y' : Fin h.grid.numY} (differ : k ≠ l ∨ g ≠ h) :
    g.point L y k ≠ h.point L y' l := by
  intro same
  obtain ⟨names, group, -⟩ := point_eq_iff.mp same
  rcases differ with other | other
  · exact other names
  · rw [← of_eq_iff, of_embed, of_embed] at group
    exact other group

theorem point_row {y y' : Fin g.grid.numY} (row : k.rowLevel = true)
    (same : g.point L y k = g.point L y' k) : y = y' :=
  g.row_injective ((point_eq_iff.mp same).2.2 row)

end Group

/-! ## What a state of the barrier promises -/

namespace PollingInv

variable {G : Grid} {rounds : Nat} {ix : Fin G.numY → BitVec 32} {iy : BitVec 32} {s : Polling G}
  {c d : Cluster G}

theorem calls_le_entered (inv : PollingInv rounds ix iy s) : (s.core c).calls ≤ s.entered d := by
  refine (inv.abs.done_le c d).trans ?_
  unfold Polling.entered
  show (s.core d).calls + _ ≤ _
  by_cases between : (s.core d).pc = .out
  · have idle : s.abs.phase d = .idle := congrArg PollingPc.phase between
    rw [if_pos between, if_pos idle]
  · rw [if_neg between]
    split <;> omega

theorem pollIx (inv : PollingInv rounds ix iy s) (pc : (s.core c).pc = .pollIx) :
    s.releasesX c.2 ≤ (s.core c).calls + 1 ∧
      ((s.core c).calls < s.releasesX c.2 → s.barrierIx c.2 ≠ (s.core c).prevX) := by
  refine ⟨?_, fun late => (exec_moves_pollIx inv pc late).1⟩
  rcases (inv.core c).round with same | ⟨next, -⟩ <;> omega

theorem pollIy (inv : PollingInv rounds ix iy s) (pc : (s.core c).pc = .pollIy) :
    s.releasesY ≤ (s.core c).calls + 1 ∧
      ((s.core c).calls < s.releasesY → s.barrierIy ≠ (s.core c).prevY) := by
  refine ⟨?_, fun late => (exec_moves_pollIy inv pc late).1⟩
  have round : (s.core c).calls = s.releasesY ∨ (s.core c).calls + 1 = s.releasesY :=
    (inv.abs.round c).imp id And.left
  omega

end PollingInv

namespace GroupPolling

/-! ## What a group sees -/

section

variable {M : GroupMachine} {L : SyncMemory} {rounds : Group M → Nat} {s s' : GroupPolling M}
  {g h : Group M} {c : M.Clusters} {me : PollingCore} {k : GroupPoint} {w : BitVec 32}

/-- The polling barrier of a group. -/
def view (L : SyncMemory) (s : GroupPolling M) (g : Group M) : Polling g.grid where
  core := fun d => s.core (g.embed d)
  barrierX := fun y => s.word (g.point L y .syncXPoint)
  barrierIx := fun y => s.word (g.point L y .syncXPiter)
  barrierY := s.word (g.point L g.first .syncYPoint)
  barrierIy := s.word (g.point L g.first .syncYPiter)
  releasesX := fun y => s.releases (g.point L y .syncXPiter)
  releasesY := s.releases (g.point L g.first .syncYPiter)

theorem view_put (d : Cluster g.grid) :
    (s.put (g.embed d) me).view L g = (s.view L g).put d me := by
  have core : (fun e => Function.update s.core (g.embed d) me (g.embed e)) =
      Function.update (fun e => s.core (g.embed e)) d me :=
    Function.update_comp_eq_of_injective s.core g.embed_injective d me
  unfold view Polling.put
  simp only [put, core]

/-- A change at the word of a row, seen by the rows. -/
theorem update_row {α : Type*} (f : Nat → α) (row : k.rowLevel = true) (y : Fin g.grid.numY)
    (a : α) : (fun y' => Function.update f (g.point L y k) a (g.point L y' k)) =
      Function.update (fun y' => f (g.point L y' k)) y a :=
  Function.update_comp_eq_of_injective f (fun _ _ same => Group.point_row row same) y a

/-- A change at another word. -/
theorem update_other {α : Type*} (f : Nat → α) {l : GroupPoint} (differ : l ≠ k)
    (y y' : Fin g.grid.numY) (a : α) :
    Function.update f (g.point L y k) a (g.point L y' l) = f (g.point L y' l) :=
  Function.update_of_ne (Group.point_ne_of_ne (Or.inl differ)) a f

theorem view_store_x (y : Fin g.grid.numY) :
    (s.store (g.point L y .syncXPoint) w).view L g =
      { s.view L g with barrierX := Function.update (s.view L g).barrierX y w } := by
  have row := update_row (L := L) (k := .syncXPoint) s.word rfl y w
  simp [view, store, row, update_other]

theorem view_store_y :
    (s.store (g.point L g.first .syncYPoint) w).view L g = { s.view L g with barrierY := w } := by
  simp [view, store, update_other]

theorem view_release_x (y : Fin g.grid.numY) :
    (s.release (g.point L y .syncXPiter)).view L g =
      { s.view L g with
        barrierIx := Function.update (s.view L g).barrierIx y
          (amoFetchAdd ((s.view L g).barrierIx y))
        releasesX := Function.update (s.view L g).releasesX y
          ((s.view L g).releasesX y + 1) } := by
  have row := update_row (L := L) (k := .syncXPiter) s.word rfl y
    (amoFetchAdd (s.word (g.point L y .syncXPiter)))
  have count := update_row (L := L) (k := .syncXPiter) s.releases rfl y
    (s.releases (g.point L y .syncXPiter) + 1)
  simp [view, store, release, row, count, update_other]

theorem view_release_y :
    (s.release (g.point L g.first .syncYPiter)).view L g =
      { s.view L g with
        barrierIy := amoFetchAdd (s.view L g).barrierIy
        releasesY := (s.view L g).releasesY + 1 } := by
  simp [view, store, release, update_other]

/-- An access of a cluster of the group is the access of the barrier of the group. -/
theorem view_exec (d : Cluster g.grid) :
    (s.exec L rounds (g.embed d)).map (view L · g) = (s.view L g).exec (rounds g) d := by
  have core : (s.view L g).core d = s.core (g.embed d) := rfl
  have group : Group.of (g.embed d) = g := Group.of_embed d
  obtain ⟨-, -, numX, numY, -, -⟩ := Group.info_embed (g := g) d
  have xPoint := Group.point_embed (L := L) (g := g) d .syncXPoint
  have xPiter := Group.point_embed (L := L) (g := g) d .syncXPiter
  have yPoint := Group.point_column (L := L) (g := g) (k := .syncYPoint) d rfl
  have yPiter := Group.point_column (L := L) (g := g) (k := .syncYPiter) d rfl
  unfold exec Polling.exec
  simp only [core, group, numX, numY, xPoint, xPiter, yPoint, yPiter]
  cases (s.core (g.embed d)).pc with
  | out =>
    dsimp only
    rw [apply_ite (Option.map _)]
    simp only [Option.map_some, Option.map_none, view_put]
  | readIx | readIy =>
    simp only [Option.map_some, view_put]
    rfl
  | resetY => simp only [Option.map_some, view_store_y, view_put]
  | amoX | resetX =>
    simp only [Option.map_some, view_store_x, view_put]
    rfl
  | amoY =>
    simp only [Option.map_some, view_store_y, view_put]
    rfl
  | amoIx =>
    simp only [Option.map_some, view_release_x, view_put]
    rfl
  | amoIy =>
    simp only [Option.map_some, view_release_y, view_put]
    rfl
  | pollIy | pollIx =>
    simp only [Option.map_some, apply_ite (view L · g), view_put]
    rfl

/-! ## What it does not see -/

/-- Only the core of `c` and the words it has the addresses of change. -/
structure Frame (L : SyncMemory) (s s' : GroupPolling M) (c : M.Clusters) : Prop where
  core : ∀ d, d ≠ c → s'.core d = s.core d
  word : ∀ a, (∀ k, a ≠ L.point c k) → s'.word a = s.word a
  releases : ∀ a, (∀ k, a ≠ L.point c k) → s'.releases a = s.releases a

theorem frame_put (s : GroupPolling M) (c : M.Clusters) (me : PollingCore) :
    Frame L s (s.put c me) c where
  core := fun _ other => Function.update_of_ne other _ _
  word := fun _ _ => rfl
  releases := fun _ _ => rfl

theorem Frame.store (h : Frame L s s' c) (k : GroupPoint) (w : BitVec 32) :
    Frame L s (s'.store (L.point c k) w) c where
  core := h.core
  word := fun a other => (Function.update_of_ne (other k) _ _).trans (h.word a other)
  releases := h.releases

theorem Frame.release (h : Frame L s s' c) (k : GroupPoint) :
    Frame L s (s'.release (L.point c k)) c where
  core := h.core
  word := (h.store k _).word
  releases := fun a other => (Function.update_of_ne (other k) _ _).trans (h.releases a other)

theorem frame_of_exec (ran : s.exec L rounds c = some s') : Frame L s s' c := by
  cases pc : (s.core c).pc with
  | out =>
    rw [exec, pc] at ran
    dsimp only at ran
    split at ran
    · exact Option.some.inj ran ▸ frame_put s c _
    · cases ran
  | readIx | readIy =>
    rw [exec, pc] at ran
    exact Option.some.inj ran ▸ frame_put s c _
  | amoX | resetX | amoY | resetY =>
    rw [exec, pc] at ran
    exact Option.some.inj ran ▸ (frame_put s c _).store _ _
  | amoIy | amoIx =>
    rw [exec, pc] at ran
    exact Option.some.inj ran ▸ (frame_put s c _).release _
  | pollIy | pollIx =>
    rw [exec, pc] at ran
    obtain rfl := Option.some.inj ran
    split
    · exact ⟨fun _ _ => rfl, fun _ _ => rfl, fun _ _ => rfl⟩
    · exact frame_put s c _

/-- The other groups do not see the access. -/
theorem view_exec_of_ne (ran : s.exec L rounds c = some s') (other : Group.of c ≠ g) :
    s'.view L g = s.view L g := by
  have frame := frame_of_exec ran
  have away : ∀ (y : Fin g.grid.numY) (k l : GroupPoint), g.point L y k ≠ L.point c l := by
    intro y k l
    obtain ⟨h, d, rfl⟩ := Group.exists_embed c
    rw [Group.of_embed] at other
    rw [Group.point_embed]
    exact Group.point_ne_of_ne (Or.inr (Ne.symm other))
  have core : ∀ d, s'.core (g.embed d) = s.core (g.embed d) := by
    intro d
    apply frame.core
    rintro rfl
    exact other (Group.of_embed d)
  have word : ∀ y k, s'.word (g.point L y k) = s.word (g.point L y k) :=
    fun y k => frame.word _ (away y k)
  have releases : ∀ y k, s'.releases (g.point L y k) = s.releases (g.point L y k) :=
    fun y k => frame.releases _ (away y k)
  simp only [view, core, word, releases]

/-! ## After `grid_sync_group_init` -/

theorem resetPoints_apply (memory : Nat → BitVec 32) (c : M.Clusters) (a : Nat) :
    resetPoints L memory c a =
      if a = L.word (clusterIndex M.toGrid c.1 c.2) 24 ∨
        a = L.word (clusterIndex M.toGrid c.1 c.2) 32
      then 0 else memory a := by
  unfold resetPoints
  simp only [Function.update_apply]
  split
  · rename_i second
    rw [if_pos (Or.inr second)]
  · rename_i second
    simp only [second, or_false]

/-- The counters of both levels are zero in every cluster of `order`, and no other word changes. -/
theorem foldl_resetPoints (order : List M.Clusters) (memory : Nat → BitVec 32) (a : Nat) :
    order.foldl (resetPoints L) memory a =
      if ∃ c ∈ order, a = L.word (clusterIndex M.toGrid c.1 c.2) 24 ∨
        a = L.word (clusterIndex M.toGrid c.1 c.2) 32 then 0 else memory a := by
  induction order generalizing memory with
  | nil => simp
  | cons c order ih =>
    rw [List.foldl_cons, ih, resetPoints_apply]
    simp only [List.mem_cons, exists_eq_or_imp]
    split <;> split <;> simp_all

theorem start_point {order : List M.Clusters} (all : ∀ c, c ∈ order) (memory : Nat → BitVec 32)
    (c : M.Clusters) : (start L memory order).word (L.point c .syncXPoint) = 0 ∧
      (start L memory order).word (L.point c .syncYPoint) = 0 := by
  constructor
  · refine (foldl_resetPoints order memory _).trans (if_pos ⟨_, all (Group.home c .syncXPoint), ?_⟩)
    exact Or.inl point_eq
  · refine (foldl_resetPoints order memory _).trans (if_pos ⟨_, all (Group.home c .syncYPoint), ?_⟩)
    exact Or.inr point_eq

/-- Every group starts its barrier, with whatever its iteration words hold. -/
theorem view_start {order : List M.Clusters} (all : ∀ c, c ∈ order) (memory : Nat → BitVec 32)
    (g : Group M) : (start L memory order).view L g = Polling.init
      (fun y => (start L memory order).word (g.point L y .syncXPiter))
      ((start L memory order).word (g.point L g.first .syncYPiter)) := by
  have zero : ∀ c : M.Clusters, (start L memory order).word (L.point c .syncXPoint) = 0 ∧
      (start L memory order).word (L.point c .syncYPoint) = 0 := start_point all memory
  unfold view Polling.init Group.point
  simp only [(zero _).1, (zero _).2]
  rfl

/-! ## All groups -/

/-- Every group is in a state of its barrier. -/
def Inv (L : SyncMemory) (rounds : Group M → Nat) (memory : Nat → BitVec 32)
    (s : GroupPolling M) : Prop :=
  ∀ g, PollingInv (rounds g) (fun y => memory (g.point L y .syncXPiter))
    (memory (g.point L g.first .syncYPiter)) (s.view L g)

theorem inv_start {order : List M.Clusters} (all : ∀ c, c ∈ order) (memory : Nat → BitVec 32) :
    Inv L rounds (start L memory order).word (start L memory order) := by
  intro g
  rw [view_start all memory g]
  exact pollingInv_init

variable {memory : Nat → BitVec 32}

theorem inv_exec (inv : Inv L rounds memory s) (ran : s.exec L rounds c = some s') :
    Inv L rounds memory s' := by
  intro h
  by_cases mine : Group.of c = h
  · obtain ⟨d, rfl⟩ := (Group.exists_embed_iff h c).mpr mine
    apply pollingInv_exec (c := d) (inv h)
    rw [← view_exec, ran]
    rfl
  · rw [view_exec_of_ne ran mine]
    exact inv h

/-- An access of the barrier of the group is one of a cluster of the group. -/
theorem exists_exec {d : Cluster g.grid} {t : Polling g.grid}
    (ran : (s.view L g).exec (rounds g) d = some t) :
    ∃ s', s.exec L rounds (g.embed d) = some s' ∧ s'.view L g = t := by
  rw [← view_exec] at ran
  exact Option.map_eq_some_iff.mp ran

/-- What is left to do. -/
def work (rounds : Group M → Nat) (s : GroupPolling M) : Nat :=
  ∑ c, (s.core c).work (rounds (.of c))

theorem work_lt {d : Cluster g.grid} (inv : Inv L rounds memory s)
    (ran : s.exec L rounds (g.embed d) = some s')
    (moves : ((s'.view L g).core d).pc ≠ ((s.view L g).core d).pc) :
    s'.work rounds < s.work rounds := by
  have frame := frame_of_exec ran
  have group : Group.of (g.embed d) = g := Group.of_embed d
  have less : (s'.view L g).work (rounds g) < (s.view L g).work (rounds g) := by
    apply Barrier.exec_work (c := d) (inv g) _ moves
    rw [← view_exec, ran]
    rfl
  -- the others of the group do as before
  obtain ⟨e, -, here⟩ := Finset.exists_lt_of_sum_lt less
  have same : e = d := by
    by_contra other
    have core : s'.core (g.embed e) = s.core (g.embed e) :=
      frame.core _ fun eq => other (g.embed_injective eq)
    have eq : (s'.view L g).core e = (s.view L g).core e := core
    rw [eq] at here
    exact lt_irrefl _ here
  subst same
  refine Finset.sum_lt_sum (fun c _ => ?_) ⟨g.embed e, Finset.mem_univ _, ?_⟩
  · by_cases mine : c = g.embed e
    · rw [mine, group]
      exact here.le
    · rw [frame.core c mine]
  · rw [group]
    exact here

/-- While a cluster has calls left some core of its group moves on. -/
theorem progress (inv : Inv L rounds memory s) (unfinished : ¬ s.Done rounds c) :
    ∃ d s', M.SameGroup c d ∧ s.exec L rounds d = some s' ∧ s'.work rounds < s.work rounds := by
  obtain ⟨g, d, rfl⟩ := Group.exists_embed c
  have group : Group.of (g.embed d) = g := Group.of_embed d
  have open' : ¬ (s.view L g).Final (rounds g) := by
    intro final
    apply unfinished
    unfold Done
    rw [group]
    exact final d
  obtain ⟨e, t, ran, moves⟩ := polling_progress (inv g) open'
  obtain ⟨s', ran', rfl⟩ := exists_exec ran
  exact ⟨g.embed e, s', Group.sameGroup_embed d e, ran', work_lt inv ran' moves⟩

/-- Every state of a run can be completed. -/
theorem completion (inv : Inv L rounds memory s) :
    ∃ s', Relation.ReflTransGen (Step L rounds) s s' ∧ Inv L rounds memory s' ∧
      ∀ c, s'.Done rounds c := by
  refine exists_run_to_goal (fun s => ∀ c, s.Done rounds c) (work rounds) ?_ s inv
  intro s inv unfinished
  obtain ⟨c, more⟩ := not_forall.mp unfinished
  obtain ⟨d, s', -, ran, less⟩ := progress inv more
  exact ⟨s', ⟨d, ran⟩, inv_exec inv ran, less⟩

/-- No access changes a word of the global barriers. -/
theorem exec_global (ran : s.exec L rounds c = some s') (v : GlobalWord M.toGrid) :
    s'.word (L.global v) = s.word (L.global v) := by
  apply (frame_of_exec ran).word
  intro k same
  rcases point_apart_global (L := L) (c := c) (k := k) v with before | after <;> omega

theorem start_global (order : List M.Clusters) (memory : Nat → BitVec 32)
    (v : GlobalWord M.toGrid) : (start L memory order).word (L.global v) = memory (L.global v) := by
  obtain ⟨cluster, low, offset, early, place⟩ := global_eq (L := L) v
  refine (foldl_resetPoints order memory _).trans (if_neg ?_)
  rintro ⟨c, -, same⟩
  have index : clusterIndex M.toGrid c.1 c.2 < 2 ^ 16 := clusterIndex_lt c.1.isLt c.2.isLt
  have inside : offset + 4 ≤ 40 := by omega
  have level1 :=
    SyncMemory.word_apart (L := L) low index inside (GroupPoint.offset_bounds .syncXPoint).2
    (Or.inr (Or.inl early))
  have level2 :=
    SyncMemory.word_apart (L := L) low index inside (GroupPoint.offset_bounds .syncYPoint).2
    (Or.inr (Or.inl (early.trans (Nat.le_add_right 24 8))))
  simp only [GroupPoint.offset] at level1 level2
  rw [place] at same
  omega

end

end GroupPolling

open GroupPolling in
/-- In every run, whatever the calls of the groups: no cluster leaves its n-th call before every
cluster of its group has entered its n-th call; a poller whose word has been incremented in its
round sees another value than the one it remembers, and the word is at most one increment ahead; an
access changes nothing for a cluster of another group, and no word of a global barrier; while a
cluster has calls left some core of its own group can move on, and every run can be completed. -/
theorem group_polling (M : GroupMachine) (L : SyncMemory) (rounds : Group M → Nat)
    (memory : Nat → BitVec 32) (order : List M.Clusters) (all : ∀ c, c ∈ order)
    (s : GroupPolling M) (run : Relation.ReflTransGen (Step L rounds) (start L memory order) s) :
    (∀ c d, M.SameGroup c d → (s.core c).calls ≤ s.entered d) ∧
      (∀ c, (s.core c).pc = .pollIx →
        s.releases (L.point c .syncXPiter) ≤ (s.core c).calls + 1 ∧
          ((s.core c).calls < s.releases (L.point c .syncXPiter) →
            s.word (L.point c .syncXPiter) ≠ (s.core c).prevX)) ∧
      (∀ c, (s.core c).pc = .pollIy →
        s.releases (L.point c .syncYPiter) ≤ (s.core c).calls + 1 ∧
          ((s.core c).calls < s.releases (L.point c .syncYPiter) →
            s.word (L.point c .syncYPiter) ≠ (s.core c).prevY)) ∧
      (∀ c s', s.exec L rounds c = some s' → ∀ d, ¬ M.SameGroup c d →
        s'.core d = s.core d ∧ ∀ k, s'.word (L.point d k) = s.word (L.point d k)) ∧
      (∀ v : GlobalWord M.toGrid, s.word (L.global v) = memory (L.global v)) ∧
      (∀ c, ¬ s.Done rounds c → ∃ d s', M.SameGroup c d ∧ s.exec L rounds d = some s' ∧ s' ≠ s) ∧
      ∃ s', Relation.ReflTransGen (Step L rounds) s s' ∧ ∀ c, s'.Done rounds c := by
  have inv : Inv L rounds (start L memory order).word s :=
    invariant_of_run (Inv L rounds (start L memory order).word)
      (fun _ _ inv ⟨_, ran⟩ => inv_exec inv ran) (inv_start all memory) run
  refine ⟨fun c d same => ?_, fun c pc => ?_, fun c pc => ?_,
    fun c s' ran d other => ⟨?_, fun k => ?_⟩, fun v => ?_, fun c unfinished => ?_, ?_⟩
  · obtain ⟨g, e, rfl⟩ := Group.exists_embed c
    obtain ⟨f, rfl⟩ := (Group.exists_embed_iff g d).mpr
      ((Group.of_eq_iff.mpr same).symm.trans (Group.of_embed e))
    exact (inv g).calls_le_entered (c := e) (d := f)
  · obtain ⟨g, e, rfl⟩ := Group.exists_embed c
    rw [Group.point_embed]
    exact (inv g).pollIx (c := e) pc
  · obtain ⟨g, e, rfl⟩ := Group.exists_embed c
    rw [Group.point_column e rfl]
    exact (inv g).pollIy (c := e) pc
  · refine (frame_of_exec ran).core d ?_
    rintro rfl
    exact other ⟨rfl, rfl⟩
  · refine (frame_of_exec ran).word _ fun l same => other ?_
    obtain ⟨-, group, -⟩ := point_eq_iff.mp same
    exact ⟨group.1.symm, group.2.symm⟩
  · exact invariant_of_run (fun s : GroupPolling M => s.word (L.global v) = memory (L.global v))
      (fun _ _ kept ⟨_, ran⟩ => (exec_global ran v).trans kept) (start_global order memory v) run
  · obtain ⟨d, s', same, ran, less⟩ := progress inv unfinished
    exact ⟨d, s', same, ran, fun eq => absurd less (eq ▸ lt_irrefl _)⟩
  · obtain ⟨s', rest, -, done⟩ := completion inv
    exact ⟨s', rest, done⟩

open GroupPolling SyncMemory

/-- The clusters in some order. -/
def unevenOrder : List unevenMachine.Clusters := (List.finRange 3).product (List.finRange 1)

/-- The iteration words are about to wrap, and the counters hold rubbish. -/
def unevenStart : GroupPolling unevenMachine := start flexClusterArch (fun _ => -1) unevenOrder

/-- Two calls in the first group, one in the second. -/
def unevenCalls (g : Group unevenMachine) : Nat := 2 - g.x

/-- Each cluster has made nine accesses. -/
def unevenLater : GroupPolling unevenMachine :=
  tryEach (exec flexClusterArch unevenCalls) unevenStart (List.replicate 9 unevenOrder).flatten

/-- The only cluster of the second group has left its last call, and the first one of the first
group polls its word. -/
theorem group_polling_row :
    unevenLater.Done unevenCalls unevenLast ∧
    (unevenLater.core unevenMachine.first).pc = .pollIx ∧
    (∀ c d, unevenMachine.SameGroup c d → (unevenLater.core c).calls ≤ unevenLater.entered d) ∧
      (∀ c, (unevenLater.core c).pc = .pollIx →
        unevenLater.releases (flexClusterArch.point c .syncXPiter) ≤
            (unevenLater.core c).calls + 1 ∧
          ((unevenLater.core c).calls <
              unevenLater.releases (flexClusterArch.point c .syncXPiter) →
            unevenLater.word (flexClusterArch.point c .syncXPiter) ≠
              (unevenLater.core c).prevX)) ∧
      (∀ c, (unevenLater.core c).pc = .pollIy →
        unevenLater.releases (flexClusterArch.point c .syncYPiter) ≤
            (unevenLater.core c).calls + 1 ∧
          ((unevenLater.core c).calls <
              unevenLater.releases (flexClusterArch.point c .syncYPiter) →
            unevenLater.word (flexClusterArch.point c .syncYPiter) ≠
              (unevenLater.core c).prevY)) ∧
      (∀ c s', unevenLater.exec flexClusterArch unevenCalls c = some s' → ∀ d,
        ¬ unevenMachine.SameGroup c d → s'.core d = unevenLater.core d ∧
          ∀ k, s'.word (flexClusterArch.point d k) =
            unevenLater.word (flexClusterArch.point d k)) ∧
      (∀ v : GlobalWord unevenMachine.toGrid, unevenLater.word (flexClusterArch.global v) = -1) ∧
      (∀ c, ¬ unevenLater.Done unevenCalls c → ∃ d s', unevenMachine.SameGroup c d ∧
        unevenLater.exec flexClusterArch unevenCalls d = some s' ∧ s' ≠ unevenLater) ∧
      ∃ s', Relation.ReflTransGen (Step flexClusterArch unevenCalls) unevenLater s' ∧
        ∀ c, s'.Done unevenCalls c :=
  ⟨⟨by decide +kernel, by decide +kernel⟩, by decide +kernel,
    group_polling unevenMachine flexClusterArch unevenCalls (fun _ => -1) unevenOrder
      (fun c => List.mem_product.mpr ⟨List.mem_finRange c.1, List.mem_finRange c.2⟩) unevenLater
      (run_tryEach (fun _ c _ ran => ⟨c, ran⟩) _ _)⟩

end SoftHier.Barrier
