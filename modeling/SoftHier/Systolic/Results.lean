import SoftHier.Systolic.Dataflow

/-!
# The results of the systolic product

Where RedMule starts after the transfers of its cluster in the iterations in which a tile of Z is
stored and cleared, the results do not depend on the order of the tasks.

* `Plan.after`: the tile of Y after the first jobs.
* `Results`: what the clusters hold and have stored before an iteration; `results_succ`.
* `stored_results`: the tiles of Z that the program with stores leaves in the HBM.
* `noStore_results`: the tiles of Y that the other one leaves in the clusters.
-/

namespace SoftHier.Systolic

open Dma (FlexPosition)
open Program

/-- Whether a tile of Z ends. -/
def Work.isTurn : Work → Bool
  | .turn _ => true
  | _ => false

namespace Args

variable (A : Arch) (G : Args) {β : Type*} (m : Place → β) (pos : FlexPosition)

/-- The tile of Y of a cluster. -/
def yTile : List β := (List.range G.tileY).map fun k => m (.l1 pos (4 * G.tileX + k))

/-- A cleared tile. -/
def cleared : List β := (List.range G.tileY).map fun k => m (.zomem pos k)

/-- A tile of Z in the HBM. -/
def zTile (z : Nat) : List β := (List.range G.tileY).map fun k => m (G.result A pos z k)

end Args

section

variable {A : Arch} {G : Args} {P : Program} (plan : Plan A G P) {β : Type*} (K : Kernel β)
  (start : Place → β) (pos : FlexPosition)

/-- The tile of Y after the first jobs. -/
def Plan.after : Nat → List β
  | 0 => G.yTile start pos
  | n + 1 => K.job (G.xTile A start pos.y n) (G.wTile A start pos.x n)
      (if (plan.work pos (pos.x + pos.y + plan.slot n + 1)).isTurn then G.cleared start pos
        else Plan.after n)

theorem Plan.after_succ (n : Nat) : plan.after K start pos (n + 1) =
    K.job (G.xTile A start pos.y n) (G.wTile A start pos.x n)
      (if (plan.work pos (pos.x + pos.y + plan.slot n + 1)).isTurn then G.cleared start pos
        else plan.after K start pos n) := rfl

/-- The tiles of Y before an iteration, and those that have been stored. -/
structure Results (m : Place → β) (iter : Nat) : Prop where
  y : ∀ pos, A.toDma.Inside pos → ∀ n ≤ G.zTiles A pos * G.length,
    (∀ l, n = l + 1 → pos.x + pos.y + plan.slot l + 1 < iter) →
    (n < G.zTiles A pos * G.length → iter ≤ pos.x + pos.y + plan.slot n + 1) →
      G.yTile m pos = plan.after K start pos n
  stored : ∀ pos, A.toDma.Inside pos → ∀ st, ∀ i < iter,
    plan.work pos i = .turn st ∨ plan.work pos i = .last st →
      G.zTile A m pos (st - 1) = plan.after K start pos (st * G.length)

end

section

variable {A : Arch} {G : Args} {P : Program} {plan : Plan A G P} {β : Type*} {K : Kernel β}
  {Strict : Nat → Task → Task → Prop} {start m : Place → β} {pos : FlexPosition} {iter n k st : Nat}
  {ts : List Task} {t : Task} {p : MemOp Place β}

/-- What a job leaves in the tile of Y. -/
theorem Plan.yTile_job (plan : Plan A G P) (inside : A.toDma.Inside pos) (m : Place → β) (n : Nat) :
    G.yTile ((P.jobOf K pos n).run m) pos = K.job (loads m (tile pos (G.bufX n) G.tileX))
      (loads m (tile pos (G.bufX n + G.tileX) G.tileX)) (G.yTile m pos) := by
  have known := plan.known pos inside
  have localX : (P.info pos).localX n = G.bufX n := known.localX n
  have localW : (P.info pos).localW n = G.bufX n + G.tileX := known.localW n
  have y : ∀ m : Place → β, G.yTile m pos = loads m (tile pos (4 * G.tileX) G.tileY) := fun m =>
    loads_tile.symm
  have op : (P.jobOf K pos n).run m = stores m (tile pos (4 * G.tileX) G.tileY)
      (K.job (loads m (tile pos (G.bufX n) G.tileX))
        (loads m (tile pos (G.bufX n + G.tileX) G.tileX)) (G.yTile m pos)) := by
    unfold Program.jobOf MemOp.run jobOp redmuleOn
    simp only [known.redmuleX, known.redmuleW, known.redmuleY, known.yOffset, localX, localW,
      loads_append]
    rw [List.take_left' (by simp), List.drop_left' (by simp), List.take_left' (by simp),
      List.drop_left' (by simp), ← y]
  rw [y, op, loads_stores tile_nodup (by rw [K.length_job, y]; simp)]

/-- The jobs of a cluster come one at a time, and a turn comes with a job. -/
theorem Plan.y_kept (plan : Plan A G P) (doing : Doing plan K iter t p)
    (inside : A.toDma.Inside t.pos)
    (before : ∀ l, n = l + 1 → pos.x + pos.y + plan.slot l + 1 < iter)
    (until' : n < G.zTiles A pos * G.length → iter ≤ pos.x + pos.y + plan.slot n) :
    .l1 pos (4 * G.tileX + k) ∉ p.writes := by
  intro written
  have job : ∃ l < G.zTiles A pos * G.length, iter = pos.x + pos.y + plan.slot l + 1 := by
    obtain ⟨-, ⟨-, l, job⟩ | ⟨st, -, -, work, -⟩⟩ :=
      doing.writes_y written inside (Nat.le_add_right _ _)
    · exact ⟨l, (plan.job_iff pos iter l).mp job⟩
    · obtain ⟨-, -, less, at'⟩ := plan.turn_spec pos iter st work
      exact ⟨st * G.length, (Nat.mul_lt_mul_right plan.fits.length_pos).mpr less, at'⟩
  obtain ⟨l, hl, at'⟩ := job
  rcases Nat.lt_or_ge l n with earlier | later
  · obtain ⟨n, rfl⟩ := Nat.exists_eq_succ_of_ne_zero (show n ≠ 0 by omega)
    have le := plan.slot_strictMono.monotone (Nat.le_of_lt_succ earlier)
    have := before n rfl
    omega
  · have le := plan.slot_strictMono.monotone later
    have := until' (Nat.lt_of_le_of_lt later hl)
    omega

/-- In an iteration with a job, RedMule finds the tile of Y after the jobs before, or cleared. -/
theorem Results.job_finds (results : Results plan K start m iter) (fed : Fed plan start m iter)
    {After : Task → Task → Prop} {before : List Task} (inside : A.toDma.Inside pos)
    (job : plan.job pos iter = some n) (schedule : Schedule (· ∈ before) After before)
    (earlier : ∀ s ∈ before, P.Busy A iter s ∧ s ≠ ⟨pos, .redmule, 0⟩)
    (clears : (plan.work pos iter).isTurn → ∀ k, P.Busy A iter ⟨pos, .dma2, k⟩ →
      ⟨pos, .dma2, k⟩ ∈ before) :
    G.yTile (runTasks (P.op A K iter) before m) pos =
      if (plan.work pos iter).isTurn then G.cleared start pos else plan.after K start pos n := by
  obtain ⟨hn, at'⟩ := (plan.job_iff pos iter n).mp job
  have writer : ∀ s ∈ before, ∀ k, .l1 pos (4 * G.tileX + k) ∈ (P.op A K iter s).writes →
      s = ⟨pos, .dma2, k⟩ ∧ (plan.work pos iter).isTurn := by
    intro s mem k written
    obtain ⟨busy, other⟩ := earlier s mem
    obtain ⟨-, ⟨rfl, -⟩ | ⟨st, k', rfl, work, same⟩⟩ :=
      (plan.doing busy).writes_y written busy.1 (Nat.le_add_right _ _)
    · exact absurd rfl other
    · rw [Nat.add_left_cancel same, work]
      exact ⟨rfl, rfl⟩
  split
  · rename_i turn
    refine List.map_congr_left fun k mem => ?_
    have less := List.mem_range.mp mem
    cases work : plan.work pos iter with
    | turn st =>
      have doing : Doing plan K iter ⟨pos, .dma2, k⟩ _ := .clear work less
      have op := doing.op_eq inside
      have here : .l1 pos (4 * G.tileX + k) ∈ (P.op A K iter ⟨pos, .dma2, k⟩).writes := by
        rw [op]
        exact List.mem_cons_self
      rw [schedule.runTasks_at (clears turn k (doing.busy inside)) here, op, copyByte_run,
        fed.zomem]
      · intro s mem other _ r read written
        rw [op] at read
        obtain rfl := List.mem_singleton.mp read
        obtain ⟨busy, -⟩ := earlier s mem
        exact (plan.doing busy).writes_zomem busy.1 written
      · intro s mem other _ written
        exact other (writer s mem k written).1
    | idle | load | last =>
      rw [work] at turn
      cases turn
  · rename_i noTurn
    have kept : G.yTile (runTasks (P.op A K iter) before m) pos = G.yTile m pos :=
      List.map_congr_left fun k _ => runTasks_of_notMem fun s mem written =>
        noTurn (writer s mem k written).2
    rw [kept]
    refine results.y pos inside n (Nat.le_of_lt hn) (fun l same => ?_) fun _ => Nat.le_of_eq at'
    have less := plan.slot_strictMono (show l < n by omega)
    omega

/-- Only one iteration stores a tile of Z. -/
theorem Plan.store_iter (plan : Plan A G P) (inside : A.toDma.Inside pos)
    (work : plan.work pos iter = .turn st ∨ plan.work pos iter = .last st) :
    G.StoreFits A ∧ 0 < st ∧ st ≤ G.zTiles A pos ∧
      iter = pos.x + pos.y + plan.slot (st * G.length) + 1 := by
  rcases work with work | work
  · obtain ⟨stores, some, less, at'⟩ := plan.turn_spec pos iter st work
    exact ⟨stores, some, Nat.le_of_lt less, at'⟩
  · obtain ⟨stores, some, all, at'⟩ := plan.last_spec pos iter st inside work
    exact ⟨stores, some, Nat.le_of_eq all, at'⟩

/-- A store finds the tile of Z that is complete. -/
theorem Results.store_finds (results : Results plan K start m iter) {After : Task → Task → Prop}
    (schedule : Schedule (P.Busy A iter) After ts) (inside : A.toDma.Inside pos)
    (waits : ∀ s t, P.After iter s t → After s t)
    (last : (plan.work pos iter).isTurn → ∀ s t, s.pos = pos → RedmuleLast s t → After s t)
    (work : plan.work pos iter = .turn st ∨ plan.work pos iter = .last st) :
    G.zTile A (runTasks (P.op A K iter) ts m) pos (st - 1) =
      plan.after K start pos (st * G.length) := by
  obtain ⟨stores, some, le, at'⟩ := plan.store_iter inside work
  have found := results.y pos inside (st * G.length) (Nat.mul_le_mul_right _ le)
    (fun l same => by
      have less := plan.slot_strictMono (show l < st * G.length by omega)
      omega) fun _ => Nat.le_of_eq at'
  rw [← found]
  refine List.map_congr_left fun k mem => ?_
  have less := List.mem_range.mp mem
  have doing : Doing plan K iter ⟨pos, .dma1, k⟩ _ := .store work less
  have op := doing.op_eq inside
  have here : G.result A pos (st - 1) k ∈ (P.op A K iter ⟨pos, .dma1, k⟩).writes := by
    rw [op]
    exact List.mem_cons_self
  rw [schedule.runTasks_at (doing.busy inside) here, op, copyByte_run]
  · intro s busy other free r read written
    rw [op] at read
    obtain rfl := List.mem_singleton.mp read
    obtain ⟨-, ⟨rfl, n, job⟩ | ⟨st', k', rfl, turn, -⟩⟩ :=
      (plan.doing busy).writes_y written busy.1 (Nat.le_add_right _ _)
    · rcases work with work | work
      · exact free (last (by rw [work]; rfl) _ _ rfl ⟨rfl, rfl, fun same => by cases same⟩)
      · cases (plan.last_job inside work).symm.trans job
    · refine free (waits _ _ ⟨rfl, ?_, rfl, rfl⟩)
      rw [plan.dma_eq pos inside, turn]
      rfl
  · intro s busy other _ written
    obtain ⟨-, st', k', same, work', hz, hk, place⟩ := (plan.doing busy).writes_hbm busy.1 written
    obtain ⟨here, -, rfl⟩ :=
      result_injective plan.fits stores inside busy.1 (by omega) hz less hk place
    exact other (same.trans (by rw [← here]))

theorem results_zero (plan : Plan A G P) (K : Kernel β) (start : Place → β) :
    Results plan K start start 0 where
  y pos _ n _ before _ := by
    cases n with
    | zero => rfl
    | succ n => exact absurd (before n rfl) (Nat.not_lt_zero _)
  stored _ _ _ i less := absurd less (Nat.not_lt_zero i)

theorem results_succ (results : Results plan K start m iter) (fed : Fed plan start m iter)
    {After : Task → Task → Prop} (schedule : Schedule (P.Busy A iter) After ts)
    (waits : ∀ s t, P.After iter s t → After s t)
    (last : ∀ pos, (plan.work pos iter).isTurn → ∀ s t, s.pos = pos → RedmuleLast s t → After s t) :
    Results plan K start (runTasks (P.op A K iter) ts m) (iter + 1) where
  y pos inside n le before until' := by
    rcases Classical.em (∃ l, n = l + 1 ∧ iter = pos.x + pos.y + plan.slot l + 1) with
      ⟨l, rfl, at'⟩ | rest
    · have job : plan.job pos iter = some l := (plan.job_iff pos iter l).mpr ⟨le, at'⟩
      have doing : Doing plan K iter ⟨pos, .redmule, 0⟩ _ := .job job
      have op := doing.op_eq inside
      obtain ⟨pre, order, earlier, among, result⟩ :=
        schedule.split (P.op A K iter) m (doing.busy inside)
      have clears : (plan.work pos iter).isTurn → ∀ k, P.Busy A iter ⟨pos, .dma2, k⟩ →
          ⟨pos, .dma2, k⟩ ∈ pre := fun turn k busy =>
        among _ busy (fun same => by cases same)
          (last pos turn _ _ rfl ⟨rfl, rfl, fun same => by cases same⟩)
      have found := results.job_finds fed inside job order
        (fun s mem => ⟨(earlier s mem).1, (earlier s mem).2.1⟩) clears
      obtain ⟨x, w⟩ := fed.job inside job
      have kept : ∀ j < 2 * G.tileX, runTasks (P.op A K iter) pre m (.l1 pos (G.bufX l + j)) =
          m (.l1 pos (G.bufX l + j)) := fun j hj =>
        runTasks_of_notMem fun s mem =>
          (plan.doing (earlier s mem).1).buffers_kept (earlier s mem).1.1 job hj
      have x' : loads (runTasks (P.op A K iter) pre m) (tile pos (G.bufX l) G.tileX) =
          G.xTile A start pos.y l := by
        rw [← x, loads_tile, loads_tile]
        refine List.map_congr_left fun k mem => kept k ?_
        have := List.mem_range.mp mem
        omega
      have w' : loads (runTasks (P.op A K iter) pre m) (tile pos (G.bufX l + G.tileX) G.tileX) =
          G.wTile A start pos.x l := by
        rw [← w, loads_tile, loads_tile]
        refine List.map_congr_left fun k mem => ?_
        have := List.mem_range.mp mem
        rw [Nat.add_assoc]
        exact kept (G.tileX + k) (by omega)
      have now : G.yTile (runTasks (P.op A K iter) ts m) pos =
          G.yTile ((P.jobOf K pos l).run (runTasks (P.op A K iter) pre m)) pos := by
        refine List.map_congr_left fun k mem => ?_
        rw [← op]
        refine result _ ?_ fun s busy other notFirst written => ?_
        · rw [op]
          exact (mem_jobOf_writes plan inside).mpr ⟨k, List.mem_range.mp mem, rfl⟩
        · obtain ⟨-, ⟨rfl, -⟩ | ⟨st, k', rfl, work, -⟩⟩ :=
            (plan.doing busy).writes_y written busy.1 (Nat.le_add_right _ _)
          · exact other rfl
          · exact notFirst
              (last pos (by rw [work]; rfl) _ _ rfl ⟨rfl, rfl, fun same => by cases same⟩)
      rw [now, plan.yTile_job inside, x', w', found, at']
      rfl
    · have before' : ∀ l, n = l + 1 → pos.x + pos.y + plan.slot l + 1 < iter := by
        intro l same
        have := before l same
        have : iter ≠ pos.x + pos.y + plan.slot l + 1 := fun at' => rest ⟨l, same, at'⟩
        omega
      have kept : G.yTile (runTasks (P.op A K iter) ts m) pos = G.yTile m pos :=
        List.map_congr_left fun k _ => schedule.runTasks_kept fun s busy =>
          plan.y_kept (plan.doing busy) busy.1 before' fun less => by
            have := until' less
            omega
      rw [kept]
      exact results.y pos inside n le before' fun less => Nat.le_of_succ_le (until' less)
  stored pos inside st i less work := by
    rcases Nat.lt_succ_iff_lt_or_eq.mp less with earlier | rfl
    · rw [← results.stored pos inside st i earlier work]
      refine List.map_congr_left fun k mem => schedule.runTasks_kept fun s busy written => ?_
      obtain ⟨stores, st', k', -, work', hz, hk, place⟩ :=
        (plan.doing busy).writes_hbm busy.1 written
      obtain ⟨-, some, le, at'⟩ := plan.store_iter inside work
      obtain ⟨-, some', le', at''⟩ := plan.store_iter busy.1 work'
      obtain ⟨same, number, -⟩ := result_injective plan.fits stores inside busy.1 (by omega) hz
        (List.mem_range.mp mem) hk place
      obtain rfl : st = st' := by omega
      rw [← same] at at''
      omega
    · exact results.store_finds schedule inside waits (last pos) work

theorem Plan.results (plan : Plan A G P)
    (last : ∀ pos i, (plan.work pos i).isTurn → ∀ s t, s.pos = pos → RedmuleLast s t → Strict i s t)
    (reaches : P.Reaches A K Strict start iter m) : Results plan K start m iter := by
  induction reaches with
  | start => exact results_zero plan K start
  | next before schedule ih =>
    exact results_succ ih (plan.fed before) schedule (fun s t => .inl)
      fun pos turn s t same order => .inr (last pos _ turn s t same order)

end

/-! ## The two programs -/

section

variable {A : Arch} {G : Args} {β : Type*} {K : Kernel β} {start m : Place → β} {pos : FlexPosition}
  {n z c : Nat}

theorem plain_noTurn (fits : G.Fits A 0) (pos : FlexPosition) (i : Nat) :
    ((plainPlan fits).work pos i).isTurn = false := by
  show (plainWork G.length (G.zTiles A pos) (pos.x + pos.y) i).isTurn = false
  unfold plainWork
  split <;> rfl

/-- The jobs of the program without stores add up. -/
theorem plain_after (fits : G.Fits A 0) (n : Nat) : (plainPlan fits).after K start pos n =
    (List.range n).foldl (fun y l => K.job (G.xTile A start pos.y l) (G.wTile A start pos.x l) y)
      (G.yTile start pos) := by
  induction n with
  | zero => rfl
  | succ n ih =>
    rw [List.range_succ, List.foldl_append, ← ih, Plan.after_succ, plain_noTurn fits]
    rfl

/-- In the program with stores the tile of Y starts anew with each tile of Z but the first one. -/
theorem store_turn_iff (fits : G.Fits A 1) (stores : G.StoreFits A) (hz : z < G.zTiles A pos)
    (hc : c < G.length) :
    ((storePlan fits stores).work pos
        (pos.x + pos.y + (storePlan fits stores).slot (z * G.length + c) + 1)).isTurn = true ↔
      0 < z ∧ c = 0 := by
  show (storeWork G.length (G.zTiles A pos) (pos.x + pos.y)
    (pos.x + pos.y + slot G.length (z * G.length + c) + 1)).isTurn = true ↔ _
  constructor
  · intro turn
    cases work : storeWork G.length (G.zTiles A pos) (pos.x + pos.y)
        (pos.x + pos.y + slot G.length (z * G.length + c) + 1) with
    | turn st =>
      obtain ⟨some, -, at'⟩ := (storeWork_turn_iff fits.length_pos).mp work
      rw [← slot_mul fits.length_pos] at at'
      have same : z * G.length + c = st * G.length + 0 :=
        (slot_strictMono fits.length_pos).injective (by rw [Nat.add_zero]; omega)
      obtain ⟨rfl, rfl⟩ := block_inj hc fits.length_pos same
      exact ⟨some, rfl⟩
    | idle | load | last =>
      rw [work] at turn
      cases turn
  · rintro ⟨some, rfl⟩
    have work : storeWork G.length (G.zTiles A pos) (pos.x + pos.y)
        (pos.x + pos.y + slot G.length (z * G.length + 0) + 1) = .turn z := by
      refine (storeWork_turn_iff fits.length_pos).mpr ⟨some, hz, ?_⟩
      rw [Nat.add_zero (z * G.length), slot_mul fits.length_pos]
    rw [work]
    rfl

/-- The jobs of a tile of Z add up. -/
theorem store_after (fits : G.Fits A 1) (stores : G.StoreFits A) (hz : z < G.zTiles A pos)
    (le : c < G.length) :
    (storePlan fits stores).after K start pos (z * G.length + (c + 1)) =
      (List.range (c + 1)).foldl (fun y j => K.job (G.xTile A start pos.y (z * G.length + j))
          (G.wTile A start pos.x (z * G.length + j)) y)
        (if z = 0 then G.yTile start pos else G.cleared start pos) := by
  induction c with
  | zero =>
    have first := store_turn_iff fits stores hz le
    rw [Nat.add_zero (z * G.length)] at first
    rw [← Nat.add_assoc, Nat.add_zero (z * G.length), Plan.after_succ, List.range_one,
      List.foldl_cons, List.foldl_nil, Nat.add_zero (z * G.length)]
    congr 1
    rcases Nat.eq_zero_or_pos z with rfl | some
    · rw [if_neg fun turn => Nat.lt_irrefl 0 (first.mp turn).1, if_pos rfl, Nat.zero_mul]
      exact rfl
    · rw [if_pos (first.mpr ⟨some, rfl⟩), if_neg (Nat.ne_of_gt some)]
  | succ c ih =>
    rw [List.range_succ, List.foldl_append, ← ih (Nat.lt_of_succ_lt le), ← Nat.add_assoc,
      Plan.after_succ,
      if_neg fun turn => Nat.succ_ne_zero c ((store_turn_iff fits stores hz le).mp turn).2,
      List.foldl_cons, List.foldl_nil]

/-- Every run of the program with stores in which RedMule waits for the transfers of its cluster
leaves in the HBM, for each tile of Z of each cluster, the sum of its jobs. -/
theorem stored_results (fits : G.Fits A 1) (stores : G.StoreFits A) (K : Kernel β)
    (inside : A.toDma.Inside pos)
    (reaches : (gemmSystolicWise A G).Reaches A K (fun _ => RedmuleLast) start
      ((gemmSystolicWise A G).info pos).totalIter m) (hz : z < G.zTiles A pos) :
    G.zTile A m pos z = (List.range G.length).foldl (fun y j =>
        K.job (G.xTile A start pos.y (z * G.length + j))
          (G.wTile A start pos.x (z * G.length + j)) y)
      (if z = 0 then G.yTile start pos else G.cleared start pos) := by
  let plan := storePlan fits stores
  have results : Results plan K start m _ := plan.results (fun _ _ _ _ _ _ order => order) reaches
  have end' : pos.x + pos.y + G.zTiles A pos * (G.length + 1) + 1 <
      ((gemmSystolicWise A G).info pos).totalIter := iter_lt_totalIter fits inside
  have tiles : (z + 1) * (G.length + 1) ≤ G.zTiles A pos * (G.length + 1) :=
    Nat.mul_le_mul_right _ (Nat.succ_le_of_lt hz)
  have work : plan.work pos (pos.x + pos.y + (z + 1) * (G.length + 1) + 1) = .turn (z + 1) ∨
      plan.work pos (pos.x + pos.y + (z + 1) * (G.length + 1) + 1) = .last (z + 1) := by
    rcases Nat.lt_or_eq_of_le (Nat.succ_le_of_lt hz) with more | last
    · exact .inl ((storeWork_turn_iff fits.length_pos).mpr ⟨Nat.succ_pos z, more, rfl⟩)
    · exact .inr ((storeWork_last_iff fits.length_pos).mpr ⟨last, by rw [← last]⟩)
  have stored := results.stored pos inside (z + 1) _ (by omega) work
  obtain ⟨c, same⟩ := Nat.exists_eq_succ_of_ne_zero (Nat.ne_of_gt fits.length_pos)
  rw [Nat.add_sub_cancel, Nat.succ_mul] at stored
  rw [stored]
  conv_lhs => rw [show z * G.length + G.length = z * G.length + (c + 1) by omega]
  rw [store_after fits stores hz (by omega), same]

/-- The second tile of Z of the second cluster. -/
theorem stored_results_pair : ∃ m, (gemmSystolicWise pairArch pairArgs).Reaches pairArch sumKernel
      (fun _ => RedmuleLast) addresses
      ((gemmSystolicWise pairArch pairArgs).info ⟨1, 0⟩).totalIter m ∧
    pairArgs.zTile pairArch m ⟨1, 0⟩ 1 =
      List.replicate 2 (68 * 148 + 69 * 149 + 70 * 150 + 71 * 151) := by
  obtain ⟨m, reaches⟩ :=
    Program.exists_reaches (gemmSystolicWise pairArch pairArgs) pairArch sumKernel
    addresses ((gemmSystolicWise pairArch pairArgs).info ⟨1, 0⟩).totalIter
  have inside : pairArch.toDma.Inside ⟨1, 0⟩ := ⟨Nat.one_lt_two, Nat.one_pos⟩
  refine ⟨m, reaches, ?_⟩
  rw [stored_results (pairArgs_fits (Nat.le_refl 1)) pairArgs_stores sumKernel inside reaches
    (by decide)]
  decide

/-- Every run of the program without stores leaves in each cluster the sum of all its jobs. -/
theorem noStore_results (fits : G.Fits A 0) (K : Kernel β) (Strict : Nat → Task → Task → Prop)
    (inside : A.toDma.Inside pos) (reaches : (NoStore.gemmSystolicWise A G).Reaches A K Strict start
      ((NoStore.gemmSystolicWise A G).info pos).totalIter m) :
    G.yTile m pos = (List.range (G.zTiles A pos * G.length)).foldl (fun y n =>
      K.job (G.xTile A start pos.y n) (G.wTile A start pos.x n) y) (G.yTile start pos) := by
  let plan := plainPlan fits
  have results : Results plan K start m _ := plan.results (fun pos i turn _ _ _ _ =>
    absurd ((plain_noTurn fits pos i).symm.trans turn) Bool.false_ne_true) reaches
  have end' : pos.x + pos.y + G.zTiles A pos * (G.length + 0) + 1 <
      ((NoStore.gemmSystolicWise A G).info pos).totalIter := iter_lt_totalIter fits inside
  rw [results.y pos inside (G.zTiles A pos * G.length) (Nat.le_refl _) ?_ fun less =>
    absurd less (Nat.lt_irrefl _), plain_after fits]
  intro l last
  show pos.x + pos.y + l + 1 < _
  rw [Nat.add_zero G.length] at end'
  omega

/-- The tile of Y of the second cluster. -/
theorem noStore_results_pair :
    ∃ m, (NoStore.gemmSystolicWise pairArch pairArgs).Reaches pairArch sumKernel
      (fun _ => RedmuleLast) addresses
      ((NoStore.gemmSystolicWise pairArch pairArgs).info ⟨1, 0⟩).totalIter m ∧
    pairArgs.yTile m ⟨1, 0⟩ = List.replicate 2 (64 * 144 + 65 * 145 + 66 * 146 + 67 * 147 +
      68 * 148 + 69 * 149 + 70 * 150 + 71 * 151) := by
  obtain ⟨m, reaches⟩ :=
    Program.exists_reaches (NoStore.gemmSystolicWise pairArch pairArgs) pairArch
    sumKernel addresses ((NoStore.gemmSystolicWise pairArch pairArgs).info ⟨1, 0⟩).totalIter
  have inside : pairArch.toDma.Inside ⟨1, 0⟩ := ⟨Nat.one_lt_two, Nat.one_pos⟩
  refine ⟨m, reaches, ?_⟩
  rw [noStore_results (pairArgs_fits (Nat.zero_le 1)) sumKernel _ inside reaches]
  decide

end

end SoftHier.Systolic
