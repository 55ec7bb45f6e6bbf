import SoftHier.Systolic.Conflicts

/-!
# The dataflow of the systolic product

Whatever the order of the tasks in an iteration, the pairs of tiles travel through the clusters
unchanged.

* `Fed`: the streams and the buffers before an iteration.
* `Plan.fed`: what they hold in every run.
* `Plan.job_tiles`: RedMule multiplies each pair of tiles once, in their order, and no other data.
* `Program.exists_reaches`: there are runs of every length.
* `totalIter_eq`: the program has enough iterations for all pairs of tiles.
* `dataflow`: the program with stores.
-/

namespace SoftHier.Systolic

open Dma (FlexPosition)
open Program

section

variable {A : Arch} {G : Args} {P : Program} {plan : Plan A G P} {β : Type*} {K : Kernel β}
  {Strict : Nat → Task → Task → Prop} {start m : Place → β} {pos : FlexPosition} {iter n k : Nat}
  {ts : List Task} {t : Task}

/-- The streams and the zero memories as they were, and in the buffers the pairs of tiles that came
last. -/
structure Fed (plan : Plan A G P) (start m : Place → β) (iter : Nat) : Prop where
  west : ∀ pos, A.toDma.Inside pos → ∀ n < G.zTiles A pos * G.length, ∀ k < G.tileX,
    m (G.westStream A pos.y n k) = start (G.westStream A pos.y n k)
  south : ∀ pos, A.toDma.Inside pos → ∀ n < G.zTiles A pos * G.length, ∀ k < G.tileX,
    m (G.southStream A pos.x n k) = start (G.southStream A pos.x n k)
  zomem : ∀ pos k, m (.zomem pos k) = start (.zomem pos k)
  x : ∀ pos, A.toDma.Inside pos → ∀ n < G.zTiles A pos * G.length, ∀ k < G.tileX,
    pos.x + pos.y + plan.slot n < iter → iter ≤ pos.x + pos.y + plan.slot (n + 2) →
      m (.l1 pos (G.bufX n + k)) = start (G.westStream A pos.y n k)
  w : ∀ pos, A.toDma.Inside pos → ∀ n < G.zTiles A pos * G.length, ∀ k < G.tileX,
    pos.x + pos.y + plan.slot n < iter → iter ≤ pos.x + pos.y + plan.slot (n + 2) →
      m (.l1 pos (G.bufX n + G.tileX + k)) = start (G.southStream A pos.x n k)

theorem fed_zero (plan : Plan A G P) (start : Place → β) : Fed plan start start 0 where
  west _ _ _ _ _ _ := rfl
  south _ _ _ _ _ _ := rfl
  zomem _ _ := rfl
  x _ _ _ _ _ _ before := absurd before (Nat.not_lt_zero _)
  w _ _ _ _ _ _ before := absurd before (Nat.not_lt_zero _)

/-- Nothing conflicts with the loads. -/
theorem Plan.load_free (plan : Plan A G P) (work : plan.work t.pos iter = .load n)
    (busy : P.Busy A iter t) {s : Task} (busy' : P.Busy A iter s) (other : s ≠ t) :
    ¬ (P.op A K iter t).Conflict (P.op A K iter s) := by
  intro conflict
  obtain ⟨-, ⟨st, turn⟩, -⟩ := plan.turns_of_conflict busy busy' other.symm conflict
  cases work.symm.trans turn

/-- A buffer keeps its tile until the tile after the next one comes. -/
theorem Plan.buffer_kept (plan : Plan A G P) {p : MemOp Place β} (doing : Doing plan K iter t p)
    (inside : A.toDma.Inside t.pos) (before : pos.x + pos.y + plan.slot n < iter)
    (until' : iter + 1 ≤ pos.x + pos.y + plan.slot (n + 2)) {j : Nat} (hj : j < 2 * G.tileX) :
    .l1 pos (G.bufX n + j) ∉ p.writes := by
  intro written
  obtain ⟨-, m, j', work, hj', same, -⟩ := doing.writes_buffer inside written (bufX_add_lt hj)
  obtain ⟨-, at'⟩ := (plan.load_iff pos iter m).mp work
  have later : n < m := plan.slot_strictMono.lt_iff_lt.mp (by omega)
  have sooner : m < n + 2 := plan.slot_strictMono.lt_iff_lt.mp (by omega)
  obtain rfl : m = n + 1 := by omega
  exact bufX_succ_ne hj' hj same.symm

/-- A byte that comes. -/
theorem Plan.load_at (plan : Plan A G P) {After : Task → Task → Prop}
    (schedule : Schedule (P.Busy A iter) After ts) {src dst : Place}
    (doing : Doing plan K iter t (copyByte src dst)) (inside : A.toDma.Inside t.pos)
    (work : plan.work t.pos iter = .load n) : runTasks (P.op A K iter) ts m dst = m src := by
  have busy := doing.busy inside
  have op := doing.op_eq inside
  have here : dst ∈ (P.op A K iter t).writes := by
    rw [op]
    exact List.mem_cons_self
  rw [schedule.runTasks_at_of_free busy here fun s busy' other =>
    plan.load_free work busy busy' other, op]
  exact copyByte_run

theorem fed_succ (fed : Fed plan start m iter) {After : Task → Task → Prop}
    (schedule : Schedule (P.Busy A iter) After ts) :
    Fed plan start (runTasks (P.op A K iter) ts m) (iter + 1) where
  west pos inside n hn k hk := by
    rw [schedule.runTasks_kept fun s busy written => ?_]
    · exact fed.west pos inside n hn k hk
    · obtain ⟨-, st, k', -, -, -, -, same⟩ := (plan.doing busy).writes_hbm busy.1 written
      exact result_ne_west plan.fits inside hn hk same.symm
  south pos inside n hn k hk := by
    rw [schedule.runTasks_kept fun s busy written => ?_]
    · exact fed.south pos inside n hn k hk
    · obtain ⟨stores, st, k', -, -, hz, hk', same⟩ := (plan.doing busy).writes_hbm busy.1 written
      exact result_ne_south plan.fits stores inside busy.1 hn hz hk hk' same.symm
  zomem pos k := by
    rw [schedule.runTasks_kept fun s busy => (plan.doing busy).writes_zomem busy.1]
    exact fed.zomem pos k
  x pos inside n hn k hk before until' := by
    rcases Nat.lt_succ_iff_lt_or_eq.mp before with before | now
    · rw [schedule.runTasks_kept fun s busy =>
        plan.buffer_kept (plan.doing busy) busy.1 before until' (show k < 2 * G.tileX by omega)]
      exact fed.x pos inside n hn k hk before (Nat.le_of_succ_le until')
    · have work := (plan.load_iff pos iter n).mpr ⟨hn, now.symm⟩
      rw [plan.load_at schedule (.loadX work hk) inside work]
      unfold Args.sourceX
      split
      · exact fed.west pos inside n hn k hk
      · have left : A.toDma.Inside ⟨pos.x - 1, pos.y⟩ :=
          ⟨Nat.lt_of_le_of_lt (Nat.sub_le _ _) inside.1, inside.2⟩
        have more := Nat.mul_le_mul_right G.length
          (zTiles_le ⟨pos.x - 1, pos.y⟩ plan.fits inside (Nat.sub_le _ _) (Nat.le_refl _))
        have later := plan.slot_strictMono (show n < n + 2 by omega)
        exact fed.x _ left n (Nat.lt_of_lt_of_le hn more) k hk (by simp only; omega)
          (by simp only; omega)
  w pos inside n hn k hk before until' := by
    rcases Nat.lt_succ_iff_lt_or_eq.mp before with before | now
    · rw [Nat.add_assoc, schedule.runTasks_kept fun s busy =>
        plan.buffer_kept (plan.doing busy) busy.1 before until'
          (show G.tileX + k < 2 * G.tileX by omega),
        ← Nat.add_assoc]
      exact fed.w pos inside n hn k hk before (Nat.le_of_succ_le until')
    · have work := (plan.load_iff pos iter n).mpr ⟨hn, now.symm⟩
      rw [plan.load_at schedule (.loadW work hk) inside work]
      unfold Args.sourceW
      split
      · exact fed.south pos inside n hn k hk
      · have bottom : A.toDma.Inside ⟨pos.x, pos.y - 1⟩ :=
          ⟨inside.1, Nat.lt_of_le_of_lt (Nat.sub_le _ _) inside.2⟩
        have more := Nat.mul_le_mul_right G.length
          (zTiles_le ⟨pos.x, pos.y - 1⟩ plan.fits inside (Nat.le_refl _) (Nat.sub_le _ _))
        have later := plan.slot_strictMono (show n < n + 2 by omega)
        exact fed.w _ bottom n (Nat.lt_of_lt_of_le hn more) k hk (by simp only; omega)
          (by simp only; omega)

theorem Plan.fed (plan : Plan A G P) (reaches : P.Reaches A K Strict start iter m) :
    Fed plan start m iter := by
  induction reaches with
  | start => exact fed_zero plan start
  | next before schedule ih => exact fed_succ ih schedule

end

/-! ## The jobs -/

namespace Args

variable (A : Arch) (G : Args) {β : Type*} (start : Place → β)

/-- A tile of X of a row. -/
def xTile (y n : Nat) : List β := (List.range G.tileX).map fun k => start (G.westStream A y n k)

/-- A tile of W of a column. -/
def wTile (x n : Nat) : List β := (List.range G.tileX).map fun k => start (G.southStream A x n k)

end Args

section

variable {A : Arch} {G : Args} {P : Program} {plan : Plan A G P} {β : Type*} {K : Kernel β}
  {Strict : Nat → Task → Task → Prop} {start m : Place → β} {pos : FlexPosition} {iter n : Nat}

/-- The buffers of a job hold its pair of tiles. -/
theorem Fed.job (fed : Fed plan start m iter) (inside : A.toDma.Inside pos)
    (job : plan.job pos iter = some n) :
    loads m (tile pos (G.bufX n) G.tileX) = G.xTile A start pos.y n ∧
      loads m (tile pos (G.bufX n + G.tileX) G.tileX) = G.wTile A start pos.x n := by
  obtain ⟨hn, at'⟩ := (plan.job_iff pos iter n).mp job
  have later := plan.slot_strictMono (show n < n + 2 by omega)
  rw [loads_tile, loads_tile]
  constructor
  · exact List.map_congr_left fun k mem =>
      fed.x pos inside n hn k (List.mem_range.mp mem) (by omega) (by omega)
  · exact List.map_congr_left fun k mem =>
      fed.w pos inside n hn k (List.mem_range.mp mem) (by omega) (by omega)

/-- The buffers RedMule is given hold a pair of tiles, that of the iteration. -/
theorem Plan.job_tiles (plan : Plan A G P) (reaches : P.Reaches A K Strict start iter m)
    (inside : A.toDma.Inside pos) {a : RedmuleAction} (action : P.redmule pos iter = some a) :
    ∃ n < G.zTiles A pos * G.length, iter = pos.x + pos.y + plan.slot n + 1 ∧
      loads m (tile pos a.x (P.info pos).tileSizeByteX) = G.xTile A start pos.y n ∧
      loads m (tile pos a.w (P.info pos).tileSizeByteW) = G.wTile A start pos.x n := by
  have known := plan.known pos inside
  rw [plan.redmule_eq pos inside] at action
  obtain ⟨n, job, rfl⟩ := Option.map_eq_some_iff.mp action
  obtain ⟨hn, at'⟩ := (plan.job_iff pos iter n).mp job
  have tiles := (plan.fed reaches).job inside job
  refine ⟨n, hn, at', ?_⟩
  unfold redmuleOn
  rw [known.localX, known.localW, known.tileSizeByteX, known.tileSizeByteW]
  exact tiles

/-- Every pair of tiles has its job. -/
theorem Plan.job_some (plan : Plan A G P) (inside : A.toDma.Inside pos)
    (hn : n < G.zTiles A pos * G.length) :
    (P.redmule pos (pos.x + pos.y + plan.slot n + 1)).isSome := by
  rw [plan.redmule_eq pos inside, (plan.job_iff pos _ n).mpr ⟨hn, rfl⟩]
  rfl

end

/-! ## The number of iterations -/

section

variable {A : Arch} {G : Args} {stall : Nat} {pos : FlexPosition}

/-- The first cluster of a row or column has its share of the tiles, rounded up. -/
theorem tilesOf_eq {tiles stride : Nat} (fits : tiles + stride ≤ 2 ^ 32) (some : 0 < stride) :
    tilesOf tiles stride = countTiles stride 0 tiles tiles 0 := by
  have sum : sub32 (u32 (tiles + stride)) 1 = tiles + stride - 1 := by
    unfold u32
    rcases Nat.lt_or_eq_of_le fits with less | wrap
    · rw [Nat.mod_eq_of_lt less]
      exact sub32_of_le (by omega) less
    · rw [wrap]
      rfl
  unfold tilesOf
  rw [sum]
  apply Nat.le_antisymm
  · refine Nat.le_of_lt_succ (Nat.div_lt_of_lt_mul ?_)
    have stop :=
      (not_congr (lt_countTiles_iff fits some)).mp
      (Nat.lt_irrefl (countTiles stride 0 tiles tiles 0))
    rw [Nat.mul_comm, Nat.succ_mul]
    omega
  · rw [Nat.le_div_iff_mul_le some]
    rcases Nat.eq_zero_or_pos (countTiles stride 0 tiles tiles 0) with none | more
    · rw [none, Nat.zero_mul]
      exact Nat.zero_le _
    · have inside := (lt_countTiles_iff fits some).mp (Nat.sub_lt more Nat.one_pos)
      rw [Nat.sub_mul, Nat.one_mul] at inside
      omega

theorem totalIter_eq (fits : G.Fits A stall) : (analysis A G stall pos).totalIter =
    G.zTiles A ⟨0, 0⟩ * (G.length + stall) + A.numClusterX + A.numClusterY := by
  have iterations := fits.iter_lt
  have length := fits.length_pos
  have enough : G.zTiles A ⟨0, 0⟩ ≤ G.zTiles A ⟨0, 0⟩ * (G.length + stall) :=
    Nat.le_mul_of_pos_right _ (by omega)
  have tiles : tilesOf (tilesOf G.kSize G.tileDimensionK) A.numClusterX *
      tilesOf (tilesOf G.mSize G.tileDimensionM) A.numClusterY = G.zTiles A ⟨0, 0⟩ := by
    rw [tilesOf_eq fits.columns_le A.numClusterX_pos, tilesOf_eq fits.rows_le A.numClusterY_pos]
    rfl
  have period : u32 (G.length + stall) = G.length + stall := by
    rcases Nat.eq_zero_or_pos (G.zTiles A ⟨0, 0⟩) with none | some
    · have small := length_lt fits
      have pause := fits.stall_le
      exact u32_of_lt (by omega)
    · have one := Nat.le_mul_of_pos_left (G.length + stall) some
      exact u32_of_lt (by omega)
  unfold analysis
  simp only [tiles]
  rw [u32_of_lt (n := G.zTiles A ⟨0, 0⟩) (by omega)]
  show u32 (u32 (G.zTiles A ⟨0, 0⟩ * u32 (G.length + stall)) + A.numClusterX + A.numClusterY) = _
  rw [period, u32_of_lt (n := G.zTiles A ⟨0, 0⟩ * (G.length + stall)) (by omega),
    u32_of_lt (by omega)]

/-- The iteration after the last tile of Z of a cluster is among them. -/
theorem iter_lt_totalIter (fits : G.Fits A stall) (inside : A.toDma.Inside pos) :
    pos.x + pos.y + G.zTiles A pos * (G.length + stall) + 1 <
      (analysis A G stall pos).totalIter := by
  have le := Nat.mul_le_mul_right (G.length + stall)
    (zTiles_le ⟨0, 0⟩ fits inside (Nat.zero_le _) (Nat.zero_le _))
  obtain ⟨hx, hy⟩ := inside
  rw [totalIter_eq fits]
  omega

end

/-! ## Runs -/

/-- RedMule waits for the transfers of its cluster. -/
def RedmuleLast (s t : Task) : Prop := s.pos = t.pos ∧ s.engine = .redmule ∧ t.engine ≠ .redmule

section

variable (P : Program) (A : Arch)

/-- The bytes of a transfer. -/
def Program.bytes (pos : FlexPosition) (e : Engine) (c : Option Gemm.Copy) : List Task :=
  (List.range ((c.map Gemm.Copy.size).getD 0)).map fun k => ⟨pos, e, k⟩

/-- The tasks of a cluster, the transfers first. -/
def Program.clusterTasks (iter : Nat) (pos : FlexPosition) : List Task :=
  bytes pos .dma1 (P.dma pos iter).dma1 ++ (bytes pos .dma2 (P.dma pos iter).dma2 ++
    if (P.redmule pos iter).isSome then [⟨pos, .redmule, 0⟩] else [])

/-- The tasks of an iteration, cluster by cluster. -/
def Program.tasks (iter : Nat) : List Task :=
  (List.range A.toDma.numCluster).flatMap fun c => P.clusterTasks iter (A.getPos c)

variable {P A} {iter : Nat} {pos : FlexPosition} {s t : Task}

theorem Program.mem_bytes {e : Engine} {c : Option Gemm.Copy} :
    t ∈ bytes pos e c ↔ t.pos = pos ∧ t.engine = e ∧ ∃ d ∈ c, t.byte < d.size := by
  unfold bytes
  rw [List.mem_map]
  constructor
  · rintro ⟨k, mem, rfl⟩
    refine ⟨rfl, rfl, ?_⟩
    cases c with
    | none => cases mem
    | some d => exact ⟨d, rfl, List.mem_range.mp mem⟩
  · rintro ⟨rfl, rfl, d, rfl, less⟩
    exact ⟨t.byte, List.mem_range.mpr less, rfl⟩

theorem Program.mem_clusterTasks (inside : A.toDma.Inside pos) :
    t ∈ P.clusterTasks iter pos ↔ t.pos = pos ∧ P.Busy A iter t := by
  obtain ⟨pos', e, byte⟩ := t
  unfold clusterTasks
  rw [List.mem_append, List.mem_append, mem_bytes, mem_bytes]
  constructor
  · rintro (⟨rfl, rfl, some⟩ | ⟨rfl, rfl, some⟩ | job)
    · exact ⟨rfl, inside, some⟩
    · exact ⟨rfl, inside, some⟩
    · split at job
      · rename_i isSome
        cases List.mem_singleton.mp job
        exact ⟨rfl, inside, isSome, rfl⟩
      · cases job
  · rintro ⟨rfl, -, enabled⟩
    cases e with
    | dma1 => exact .inl ⟨rfl, rfl, enabled⟩
    | dma2 => exact .inr (.inl ⟨rfl, rfl, enabled⟩)
    | redmule =>
      obtain ⟨isSome, rfl⟩ := enabled
      rw [if_pos isSome]
      exact .inr (.inr List.mem_cons_self)

theorem Program.mem_tasks : t ∈ P.tasks A iter ↔ P.Busy A iter t := by
  unfold tasks
  rw [List.mem_flatMap]
  constructor
  · rintro ⟨c, mem, task⟩
    exact ((mem_clusterTasks (Dma.getPos_inside (List.mem_range.mp mem))).mp task).2
  · intro busy
    have inside := busy.1
    have same : A.toDma.getPos (A.toDma.index t.pos) = t.pos :=
      Dma.index_injective (Nat.mod_lt _ A.numClusterX_pos) inside.1 (Dma.index_getPos _)
    refine ⟨A.toDma.index t.pos, List.mem_range.mpr (Dma.index_lt inside), ?_⟩
    rw [show A.getPos (A.toDma.index t.pos) = t.pos from same]
    exact (mem_clusterTasks inside).mpr ⟨rfl, busy⟩

/-- The place of an engine in the order of a cluster. -/
def Engine.rank : Engine → Nat
  | .dma1 => 0
  | .dma2 => 1
  | .redmule => 2

theorem Engine.rank_lt {e : Engine} (transfer : e ≠ .redmule) : e.rank < Engine.redmule.rank := by
  cases e with
  | dma1 => exact Nat.two_pos
  | dma2 => exact Nat.one_lt_two
  | redmule => exact absurd rfl transfer

theorem Program.bytes_pairwise (pos : FlexPosition) (e : Engine) (c : Option Gemm.Copy) :
    (bytes pos e c).Pairwise fun s t =>
      s ≠ t ∧ (s.pos = t.pos → s.engine.rank ≤ t.engine.rank) := by
  unfold bytes
  rw [List.pairwise_map]
  refine List.nodup_range.imp fun other => ⟨fun same => other ?_, fun _ => Nat.le_refl _⟩
  exact congrArg Task.byte same

theorem Program.clusterTasks_pairwise (P : Program) (iter : Nat) (pos : FlexPosition) :
    (P.clusterTasks iter pos).Pairwise fun s t =>
      s ≠ t ∧ (s.pos = t.pos → s.engine.rank ≤ t.engine.rank) := by
  have lower : ∀ s t : Task, s.engine.rank < t.engine.rank →
      s ≠ t ∧ (s.pos = t.pos → s.engine.rank ≤ t.engine.rank) := by
    intro s t less
    refine ⟨fun same => ?_, fun _ => Nat.le_of_lt less⟩
    rw [same] at less
    exact Nat.lt_irrefl _ less
  have job : ∀ t ∈ (if (P.redmule pos iter).isSome then [(⟨pos, .redmule, 0⟩ : Task)] else []),
      t.engine = .redmule := by
    intro t mem
    split at mem
    · rw [List.mem_singleton.mp mem]
    · cases mem
  unfold clusterTasks
  refine List.pairwise_append.mpr ⟨bytes_pairwise _ _ _, List.pairwise_append.mpr
    ⟨bytes_pairwise _ _ _, ?_, fun s hs t ht => lower s t ?_⟩, fun s hs t ht => lower s t ?_⟩
  · split
    · exact List.pairwise_singleton _ _
    · exact List.Pairwise.nil
  · rw [(mem_bytes.mp hs).2.1, job t ht]
    exact Nat.lt_succ_self 1
  · rw [(mem_bytes.mp hs).2.1]
    rcases List.mem_append.mp ht with ht | ht
    · rw [(mem_bytes.mp ht).2.1]
      exact Nat.one_pos
    · rw [job t ht]
      exact Nat.two_pos

/-- The tasks, cluster by cluster, keep the order of the transfers, also where RedMule waits for
them. -/
theorem Program.tasks_schedule (P : Program) (A : Arch) (iter : Nat) :
    Schedule (P.Busy A iter) (fun s t => P.After iter s t ∨ RedmuleLast s t) (P.tasks A iter) := by
  have pairs : (P.tasks A iter).Pairwise fun s t =>
      s ≠ t ∧ (s.pos = t.pos → s.engine.rank ≤ t.engine.rank) := by
    unfold tasks
    rw [List.pairwise_flatMap]
    refine ⟨fun c _ => P.clusterTasks_pairwise iter _, ?_⟩
    refine List.pairwise_lt_range.imp_of_mem fun {c d} hc hd less s hs t ht => ?_
    have first := ((mem_clusterTasks (Dma.getPos_inside (List.mem_range.mp hc))).mp hs).1
    have second := ((mem_clusterTasks (Dma.getPos_inside (List.mem_range.mp hd))).mp ht).1
    have apart : s.pos ≠ t.pos := by
      rw [first, second]
      intro same
      have index := congrArg A.toDma.index same
      rw [Dma.index_getPos, Dma.index_getPos] at index
      exact Nat.ne_of_lt less index
    exact ⟨fun same => apart (congrArg Task.pos same), fun same => absurd same apart⟩
  refine ⟨pairs.imp fun h => h.1, fun t => mem_tasks, pairs.imp fun h after => ?_⟩
  rcases after with ⟨pos, -, second, first⟩ | ⟨pos, last, other⟩
  · have le := h.2 pos
    rw [second, first] at le
    exact absurd le (Nat.not_lt.mpr (Nat.zero_le _))
  · have le := h.2 pos
    rw [last] at le
    exact absurd le (Nat.not_le.mpr (Engine.rank_lt other))

/-- There are runs in which RedMule waits, of every length. -/
theorem Program.exists_reaches (P : Program) (A : Arch) {β : Type*} (K : Kernel β)
    (start : Place → β) (iter : Nat) : ∃ m, P.Reaches A K (fun _ => RedmuleLast) start iter m := by
  induction iter with
  | zero => exact ⟨start, .start⟩
  | succ iter ih =>
    obtain ⟨m, before⟩ := ih
    exact ⟨_, before.next (P.tasks_schedule A iter)⟩

end

/-! ## The program with stores -/

section

variable {A : Arch} {G : Args} {β : Type*} {iter : Nat} {pos : FlexPosition} {start m : Place → β}

/-- In every run, RedMule of each cluster works on the pairs of tiles of its row and column, in
their order, each once, and before the program ends. -/
theorem dataflow (fits : G.Fits A 1) (stores : G.StoreFits A) (K : Kernel β)
    (Strict : Nat → Task → Task → Prop)
    (reaches : (gemmSystolicWise A G).Reaches A K Strict start iter m)
    (inside : A.toDma.Inside pos) :
    (∀ a, (gemmSystolicWise A G).redmule pos iter = some a →
      ∃ n < G.zTiles A pos * G.length, iter = pos.x + pos.y + slot G.length n + 1 ∧
        loads m (tile pos a.x ((gemmSystolicWise A G).info pos).tileSizeByteX) =
          G.xTile A start pos.y n ∧
        loads m (tile pos a.w ((gemmSystolicWise A G).info pos).tileSizeByteW) =
          G.wTile A start pos.x n) ∧
    StrictMono (slot G.length) ∧
    ∀ n < G.zTiles A pos * G.length,
      ((gemmSystolicWise A G).redmule pos (pos.x + pos.y + slot G.length n + 1)).isSome ∧
        pos.x + pos.y + slot G.length n + 1 < ((gemmSystolicWise A G).info pos).totalIter := by
  let plan := storePlan fits stores
  refine ⟨fun a action => plan.job_tiles reaches inside action, plan.slot_strictMono,
    fun n hn => ?_⟩
  have last : pos.x + pos.y + G.zTiles A pos * (G.length + 1) + 1 <
      ((gemmSystolicWise A G).info pos).totalIter := iter_lt_totalIter fits inside
  have before := (slot_lt_iff fits.length_pos).mpr hn
  exact ⟨plan.job_some inside hn, by omega⟩

/-- The HBM of the pair holds its addresses. -/
def addresses : Place → Nat
  | .hbm addr => addr
  | _ => 0

/-- The second cluster before it takes its third pair of tiles. -/
theorem dataflow_pair : ∃ m, (gemmSystolicWise pairArch pairArgs).Reaches pairArch sumKernel
      (fun _ => RedmuleLast) addresses 5 m ∧
    loads m (tile ⟨1, 0⟩ 0 2) = [68, 69] ∧ loads m (tile ⟨1, 0⟩ 2 2) = [148, 149] := by
  obtain ⟨m, reaches⟩ :=
    Program.exists_reaches (gemmSystolicWise pairArch pairArgs) pairArch sumKernel addresses 5
  have inside : pairArch.toDma.Inside ⟨1, 0⟩ := ⟨Nat.one_lt_two, Nat.one_pos⟩
  obtain ⟨n, hn, at', x, w⟩ := (dataflow (pairArgs_fits (Nat.le_refl 1)) pairArgs_stores sumKernel
    (fun _ => RedmuleLast) reaches inside).1 ⟨0, 2, 8⟩ (by decide)
  have third : slot 2 2 = slot 2 n := by
    have delay : (5 : Nat) = 1 + 0 + slot 2 n + 1 := at'
    have here : slot 2 2 = 3 := by decide
    omega
  obtain rfl : 2 = n := (slot_strictMono Nat.two_pos).injective third
  exact ⟨m, reaches, x, w⟩

end

end SoftHier.Systolic
