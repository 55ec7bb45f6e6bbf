import SoftHier.Systolic.Conflicts

/-!
# The matrix product on one cluster

`example_one_cluster_gemm` multiplies matrices that lie in the HBM in tiles.  For each tile of Z
the DMA core fetches a tile of Y and the first pair of tiles of X and W; then, while RedMule
multiplies one pair, the DMA fetches the next one into the other two buffers; after the last job
the tile is stored.  The cores meet at the barrier of the cluster in between; from one barrier to
the next the bytes of the transfers and the job come in any order.

* `Tiling`, `exampleOneClusterGemm`: the constants, and the program as its phases between two
  barriers.
* `Runs`: what a sequence of phases may leave, whatever the order in each.
* `Phase.Clean`: no two tasks of a phase conflict.
* `Pairs`: the buffers and the accumulated tile before a phase.
* `one_cluster_gemm`: the results; the last job takes the second pair of buffers, in which the last
  pair of tiles is only if the number of tiles is even.
-/

namespace SoftHier.OneCluster

open Dma (FlexPosition)
open Gemm (Copy hbmAddr)
open Systolic (Arch Place Kernel RedmuleAction)
open Systolic.Program (tile copyByte nop)

/-- `TILE_DIMENSION`, `GEMM_DIMENSION / TILE_DIMENSION` and `ELEM_SIZE`. -/
structure Tiling where
  tileDimension : Nat
  tilesPerDim : Nat
  elemSize : Nat
  deriving DecidableEq, Repr

namespace Tiling

variable (S : Tiling)

def gemmDimension : Nat := S.tilesPerDim * S.tileDimension

def gemmSizeByte : Nat := S.gemmDimension * S.gemmDimension * S.elemSize

def tileSizeByte : Nat := S.tileDimension * S.tileDimension * S.elemSize

def xHbmOffset : Nat := 0

def wHbmOffset : Nat := xHbmOffset + S.gemmSizeByte

def yHbmOffset : Nat := S.wHbmOffset + S.gemmSizeByte

def zHbmOffset : Nat := S.yHbmOffset + S.gemmSizeByte

def xL1Offset1 : Nat := 0

def wL1Offset1 : Nat := xL1Offset1 + S.tileSizeByte

def xL1Offset2 : Nat := S.wL1Offset1 + S.tileSizeByte

def wL1Offset2 : Nat := S.xL1Offset2 + S.tileSizeByte

def yzL1Offset : Nat := S.wL1Offset2 + S.tileSizeByte

/-- What the program needs of the architecture: the tiles fit into the TCDM, and the offsets, which
are computed as `int`, into the HBM. -/
structure Fits (A : Arch) : Prop where
  l1 : 5 * S.tileSizeByte ≤ A.tcdmSize
  hbm : 4 * S.gemmSizeByte < 2 ^ 31

end Tiling

/-! ## The program -/

/-- What happens between two barriers: the transfers that are started and waited for, and the job of
RedMule. -/
structure Phase where
  transfers : List Copy
  redmule : Option RedmuleAction
  deriving DecidableEq, Repr

section

variable (S : Tiling) (A : Arch)

/-- The loop over `i`, from one `i` on. -/
def inner : Nat → Nat → Nat → Nat → List Phase
  | 0, _, _, _ => []
  | steps + 1, i, xHbmAddr, wHbmAddr =>
    let xHbmAddr := u32 (xHbmAddr + S.tileSizeByte)
    let wHbmAddr := u32 (wHbmAddr + S.tilesPerDim * S.tileSizeByte)
    let phase : Phase :=
      if i % 2 = 0 then
        { transfers :=
            [⟨A.localAddr S.xL1Offset2, hbmAddr A.hbmStartBase xHbmAddr, S.tileSizeByte⟩,
              ⟨A.localAddr S.wL1Offset2, hbmAddr A.hbmStartBase wHbmAddr, S.tileSizeByte⟩]
          redmule := some ⟨Tiling.xL1Offset1, S.wL1Offset1, S.yzL1Offset⟩ }
      else
        { transfers :=
            [⟨A.localAddr Tiling.xL1Offset1, hbmAddr A.hbmStartBase xHbmAddr, S.tileSizeByte⟩,
              ⟨A.localAddr S.wL1Offset1, hbmAddr A.hbmStartBase wHbmAddr, S.tileSizeByte⟩]
          redmule := some ⟨S.xL1Offset2, S.wL1Offset2, S.yzL1Offset⟩ }
    phase :: inner steps (i + 1) xHbmAddr wHbmAddr

/-- The body of the loops over `row` and `col`. -/
def tilePhases (row col : Nat) : List Phase :=
  let xHbmAddr := u32 (Tiling.xHbmOffset + row * S.tilesPerDim * S.tileSizeByte)
  let wHbmAddr := u32 (S.wHbmOffset + col * S.tileSizeByte)
  let yHbmAddr := u32 (S.yHbmOffset + row * S.tilesPerDim * S.tileSizeByte + col * S.tileSizeByte)
  let zHbmAddr := u32 (S.zHbmOffset + row * S.tilesPerDim * S.tileSizeByte + col * S.tileSizeByte)
  { transfers :=
      [⟨A.localAddr S.yzL1Offset, hbmAddr A.hbmStartBase yHbmAddr, S.tileSizeByte⟩,
        ⟨A.localAddr Tiling.xL1Offset1, hbmAddr A.hbmStartBase xHbmAddr, S.tileSizeByte⟩,
        ⟨A.localAddr S.wL1Offset1, hbmAddr A.hbmStartBase wHbmAddr, S.tileSizeByte⟩]
    redmule := none } ::
  inner S A (S.tilesPerDim - 1) 0 xHbmAddr wHbmAddr ++
  [{ transfers := [], redmule := some ⟨S.xL1Offset2, S.wL1Offset2, S.yzL1Offset⟩ },
    { transfers := [⟨hbmAddr A.hbmStartBase zHbmAddr, A.localAddr S.yzL1Offset, S.tileSizeByte⟩]
      redmule := none }]

/-- `example_one_cluster_gemm`, the part of cluster 0. -/
def exampleOneClusterGemm : List Phase :=
  (List.range S.tilesPerDim).flatMap fun row => (List.range S.tilesPerDim).flatMap fun col =>
    tilePhases S A row col

end

/-! ## Runs -/

/-- A byte of a transfer of a phase, or the job of RedMule. -/
inductive Task where
  | byte (transfer byte : Nat)
  | job
  deriving DecidableEq, Repr

/-- Cluster 0. -/
def cluster : FlexPosition := ⟨0, 0⟩

/-- A job of RedMule on tiles of one size. -/
def jobOp {β : Type*} (K : Kernel β) (size : Nat) (a : RedmuleAction) : MemOp Place β where
  reads := tile cluster a.x size ++ (tile cluster a.w size ++ tile cluster a.y size)
  writes := tile cluster a.y size
  value xs := K.job (xs.take size) ((xs.drop size).take size) ((xs.drop size).drop size)
  length_value xs len := by
    rw [K.length_job, List.length_drop, List.length_drop, len]
    simp only [List.length_append, Systolic.Program.length_tile]
    omega

namespace Phase

variable (p : Phase)

/-- The tasks of a phase. -/
def Busy : Task → Prop
  | .byte i k => ∃ c ∈ p.transfers[i]?, k < c.size
  | .job => p.redmule.isSome

/-- The operation of a task. -/
def op (S : Tiling) (A : Arch) {β : Type*} (K : Kernel β) : Task → MemOp Place β
  | .byte i k => ((p.transfers[i]?).map fun c =>
      copyByte (A.place cluster (c.src + k)) (A.place cluster (c.dst + k))).getD nop
  | .job => (p.redmule.map (jobOp K S.tileSizeByte)).getD nop

/-- No two tasks of a phase conflict. -/
def Clean (S : Tiling) (A : Arch) {β : Type*} (K : Kernel β) : Prop :=
  ∀ s t, p.Busy s → p.Busy t → s ≠ t → ¬ (p.op S A K s).Conflict (p.op S A K t)

end Phase

/-- The memories before and after some phases; in each the tasks come in some order. -/
inductive Runs (S : Tiling) (A : Arch) {β : Type*} (K : Kernel β) :
    List Phase → (Place → β) → (Place → β) → Prop where
  | nil (m : Place → β) : Runs S A K [] m m
  | cons {p : Phase} {ps : List Phase} {m m' : Place → β} {ts : List Task}
      (schedule : Schedule p.Busy (fun _ _ => False) ts)
      (rest : Runs S A K ps (runTasks (p.op S A K) ts m) m') : Runs S A K (p :: ps) m m'

/-! ## Blocks of the TCDM and tiles of the HBM -/

namespace Tiling

variable (S : Tiling)

/-- One of the five blocks for tiles in the TCDM. -/
def block (b : Nat) : List Place := tile cluster (b * S.tileSizeByte) S.tileSizeByte

/-- A tile of the HBM. -/
def hbmTile (A : Arch) (offset : Nat) : List Place :=
  (List.range S.tileSizeByte).map fun k => .hbm (A.hbmStartBase + offset + k)

/-- A phase that loads tiles into blocks, while RedMule multiplies two blocks. -/
def loadPhase (A : Arch) (fetches : List (Nat × Nat)) (job : Option (Nat × Nat)) : Phase where
  transfers := fetches.map fun f =>
    ⟨A.localAddr (f.1 * S.tileSizeByte), hbmAddr A.hbmStartBase f.2, S.tileSizeByte⟩
  redmule := job.map fun j => ⟨j.1 * S.tileSizeByte, j.2 * S.tileSizeByte, 4 * S.tileSizeByte⟩

/-- The phase that stores the accumulated tile. -/
def storePhase (A : Arch) (offset : Nat) : Phase where
  transfers := [⟨hbmAddr A.hbmStartBase offset, A.localAddr (4 * S.tileSizeByte), S.tileSizeByte⟩]
  redmule := none

end Tiling

section

variable {S : Tiling} {A : Arch} {β : Type*} {K : Kernel β} {b b' k offset : Nat} {a : Place}
  {m : Place → β} {ts : List Task} {fetches : List (Nat × Nat)} {job : Option (Nat × Nat)}

theorem mem_block : a ∈ S.block b ↔ ∃ k < S.tileSizeByte, a = .l1 cluster
    (b * S.tileSizeByte + k) :=
  Systolic.mem_tile

theorem mem_hbmTile :
    a ∈ S.hbmTile A offset ↔ ∃ k < S.tileSizeByte, a = .hbm (A.hbmStartBase + offset + k) := by
  unfold Tiling.hbmTile
  rw [List.mem_map]
  constructor
  · rintro ⟨k, less, rfl⟩
    exact ⟨k, List.mem_range.mp less, rfl⟩
  · rintro ⟨k, less, rfl⟩
    exact ⟨k, List.mem_range.mpr less, rfl⟩

/-- Different blocks are apart. -/
theorem block_unique (here : a ∈ S.block b) (there : a ∈ S.block b') : b = b' := by
  obtain ⟨k, hk, rfl⟩ := mem_block.mp here
  obtain ⟨k', hk', same⟩ := mem_block.mp there
  exact (block_inj hk hk' (Place.l1.inj same).2).1

theorem block_lt (fits : S.Fits A) (hb : b < 5) (hk : k < S.tileSizeByte) :
    b * S.tileSizeByte + k < A.tcdmSize := by
  have le := Nat.mul_le_mul_right S.tileSizeByte (Nat.succ_le_of_lt hb)
  have size := fits.l1
  rw [Nat.succ_mul] at le
  omega

theorem place_block (fits : S.Fits A) (hb : b < 5) (hk : k < S.tileSizeByte) :
    A.place cluster (A.localAddr (b * S.tileSizeByte) + k) = .l1 cluster (b * S.tileSizeByte + k) :=
  Systolic.Arch.place_local (block_lt fits hb hk)

theorem place_tile : A.place cluster (hbmAddr A.hbmStartBase offset + k) = .hbm
    (A.hbmStartBase + offset + k) :=
  Systolic.Arch.place_hbm (Nat.le_trans (Nat.le_add_right _ _) (Nat.le_add_right _ _))

/-! ## Loading while RedMule works -/

/-- The job of a phase works on other blocks than the transfers. -/
structure Apart (fetches : List (Nat × Nat)) (job : Option (Nat × Nat)) : Prop where
  nodup : (fetches.map Prod.fst).Nodup
  lt : ∀ f ∈ fetches, f.1 < 5
  other : ∀ j ∈ job, ∀ f ∈ fetches, f.1 ≠ j.1 ∧ f.1 ≠ j.2 ∧ f.1 ≠ 4

/-- The tasks of a phase that loads. -/
theorem busy_loadPhase (fits : S.Fits A) (apart : Apart fetches job) {t : Task}
    (busy : (S.loadPhase A fetches job).Busy t) :
    (∃ i k f, t = .byte i k ∧ fetches[i]? = some f ∧ k < S.tileSizeByte ∧
      (S.loadPhase A fetches job).op S A K t =
        copyByte (.hbm (A.hbmStartBase + f.2 + k)) (.l1 cluster (f.1 * S.tileSizeByte + k))) ∨
      ∃ j ∈ job, t = .job ∧ (S.loadPhase A fetches job).op S A K t = jobOp K S.tileSizeByte
        ⟨j.1 * S.tileSizeByte, j.2 * S.tileSizeByte, 4 * S.tileSizeByte⟩ := by
  cases t with
  | byte i k =>
      obtain ⟨c, found, hk⟩ := busy
      unfold Tiling.loadPhase at found
      rw [List.getElem?_map] at found
      obtain ⟨f, here, rfl⟩ := Option.map_eq_some_iff.mp found
      refine Or.inl ⟨i, k, f, rfl, here, hk, ?_⟩
      simp only [Phase.op, Tiling.loadPhase, List.getElem?_map, here, Option.map_some,
        Option.getD_some]
      rw [place_tile, place_block fits (apart.lt f (List.mem_of_getElem? here)) hk]
  | job =>
      obtain ⟨a, work⟩ := Option.isSome_iff_exists.mp busy
      obtain ⟨j, here, -⟩ := Option.map_eq_some_iff.mp work
      refine Or.inr ⟨j, here, rfl, ?_⟩
      simp only [Phase.op, Tiling.loadPhase, Option.mem_def.mp here, Option.map_some,
        Option.getD_some]

/-- What a transfer writes is not used by the job. -/
theorem byte_job (apart : Apart fetches job) {i k : Nat} {f j : Nat × Nat}
    (here : fetches[i]? = some f) (hk : k < S.tileSizeByte) (work : j ∈ job) :
    ¬ (copyByte (.hbm (A.hbmStartBase + f.2 + k)) (.l1 cluster (f.1 * S.tileSizeByte + k)) :
        MemOp Place β).Conflict (jobOp K S.tileSizeByte
          ⟨j.1 * S.tileSizeByte, j.2 * S.tileSizeByte, 4 * S.tileSizeByte⟩) := by
  obtain ⟨otherX, otherW, otherY⟩ := apart.other j work f (List.mem_of_getElem? here)
  have dst : Place.l1 cluster (f.1 * S.tileSizeByte + k) ∈ S.block f.1 := mem_block.mpr ⟨k, hk, rfl⟩
  rintro (⟨a, written, used⟩ | ⟨a, written, read⟩)
  · obtain rfl := List.mem_singleton.mp written
    rcases used with read | written
    · rcases List.mem_append.mp read with x | rest
      · exact otherX (block_unique dst x)
      · rcases List.mem_append.mp rest with w | y
        · exact otherW (block_unique dst w)
        · exact otherY (block_unique dst y)
    · exact otherY (block_unique dst written)
  · obtain rfl := List.mem_singleton.mp read
    obtain ⟨_, -, same⟩ := Systolic.mem_tile.mp written
    cases same

theorem clean_loadPhase (fits : S.Fits A) (apart : Apart fetches job) :
    (S.loadPhase A fetches job).Clean S A K := by
  intro s t busy busy' other
  rcases busy_loadPhase (K := K) fits apart busy with
    ⟨i, k, f, rfl, here, hk, op⟩ | ⟨j, work, rfl, op⟩ <;>
    rcases busy_loadPhase (K := K) fits apart busy' with
      ⟨i', k', f', rfl, here', hk', op'⟩ | ⟨j', work', rfl, op'⟩
  · rw [op, op']
    have dst : Place.l1 cluster (f.1 * S.tileSizeByte + k) ≠
        .l1 cluster (f'.1 * S.tileSizeByte + k') := by
      intro same
      obtain ⟨block, rfl⟩ := block_inj hk hk' (Place.l1.inj same).2
      have at' : (fetches.map Prod.fst)[i]? = some f.1 := by
        rw [List.getElem?_map, here, Option.map_some]
      have at'' : (fetches.map Prod.fst)[i']? = some f.1 := by
        rw [List.getElem?_map, here', Option.map_some, block]
      have inside := (List.getElem?_eq_some_iff.mp at').1
      have index := (List.getElem?_inj inside apart.nodup).mp (at'.trans at''.symm)
      exact other (by rw [index])
    rintro (⟨a, written, read | written'⟩ | ⟨a, written, read⟩)
    · obtain rfl := List.mem_singleton.mp written
      cases List.mem_singleton.mp read
    · exact dst ((List.mem_singleton.mp written).symm.trans (List.mem_singleton.mp written'))
    · obtain rfl := List.mem_singleton.mp written
      cases List.mem_singleton.mp read
  · rw [op, op']
    exact byte_job apart here hk work'
  · rw [op, op']
    exact fun conflict => byte_job apart here' hk' work conflict.symm
  · exact absurd rfl other

/-- What a job of RedMule leaves. -/
theorem jobOp_run (K : Kernel β) (m : Place → β) (size : Nat) (a : RedmuleAction) :
    loads ((jobOp K size a).run m) (tile cluster a.y size) = K.job (loads m (tile cluster a.x size))
      (loads m (tile cluster a.w size)) (loads m (tile cluster a.y size)) := by
  unfold MemOp.run jobOp
  simp only [loads_append]
  rw [List.take_left' (by simp), List.drop_left' (by simp), List.take_left' (by simp),
    List.drop_left' (by simp), loads_stores Systolic.tile_nodup (by rw [K.length_job]; simp)]

/-- What a phase that loads leaves. -/
structure Loaded (S : Tiling) (A : Arch) (K : Kernel β) (fetches : List (Nat × Nat))
    (job : Option (Nat × Nat)) (m m' : Place → β) : Prop where
  fetched : ∀ f ∈ fetches, loads m' (S.block f.1) = loads m (S.hbmTile A f.2)
  worked : ∀ j ∈ job, loads m' (S.block 4) =
    K.job (loads m (S.block j.1)) (loads m (S.block j.2)) (loads m (S.block 4))
  kept : ∀ b, b ∉ fetches.map Prod.fst → (b = 4 → job = none) →
    loads m' (S.block b) = loads m (S.block b)
  hbm : ∀ addr, m' (.hbm addr) = m (.hbm addr)

theorem loaded (fits : S.Fits A) (apart : Apart fetches job)
    (schedule : Schedule (S.loadPhase A fetches job).Busy (fun _ _ => False) ts) :
    Loaded S A K fetches job m (runTasks ((S.loadPhase A fetches job).op S A K) ts m) where
  fetched f mem := by
    obtain ⟨i, here⟩ := List.getElem?_of_mem mem
    unfold Tiling.block Tiling.hbmTile
    rw [Systolic.loads_tile]
    unfold loads
    rw [List.map_map]
    refine List.map_congr_left fun k inside => ?_
    have hk := List.mem_range.mp inside
    have busy : (S.loadPhase A fetches job).Busy (.byte i k) := by
      refine ⟨⟨A.localAddr (f.1 * S.tileSizeByte), hbmAddr A.hbmStartBase f.2, S.tileSizeByte⟩, ?_,
        hk⟩
      unfold Tiling.loadPhase
      rw [List.getElem?_map, here]
      rfl
    rcases busy_loadPhase (K := K) fits apart busy with
      ⟨i', k', f', same, here', -, op⟩ | ⟨j, -, same, -⟩
    · obtain ⟨rfl, rfl⟩ := Task.byte.inj same
      obtain rfl := Option.some.inj (here.symm.trans here')
      have written : Place.l1 cluster (f.1 * S.tileSizeByte + k) ∈
          ((S.loadPhase A fetches job).op S A K (.byte i k)).writes := by
        rw [op]
        exact List.mem_cons_self
      rw [schedule.runTasks_at_of_free busy written fun s busy' other =>
        clean_loadPhase fits apart _ _ busy busy' other.symm, op]
      exact Systolic.copyByte_run
    · cases same
  worked j work := by
    have busy : (S.loadPhase A fetches job).Busy .job := by
      unfold Phase.Busy Tiling.loadPhase
      rw [Option.mem_def.mp work]
      rfl
    rcases busy_loadPhase (K := K) fits apart busy with ⟨_, _, _, same, -⟩ | ⟨j', work', -, op⟩
    · cases same
    · obtain rfl := Option.some.inj ((Option.mem_def.mp work).symm.trans work')
      have after : loads (runTasks ((S.loadPhase A fetches job).op S A K) ts m) (S.block 4) =
          loads ((jobOp K S.tileSizeByte
            ⟨j.1 * S.tileSizeByte, j.2 * S.tileSizeByte, 4 * S.tileSizeByte⟩).run m)
              (S.block 4) := by
        refine List.map_congr_left fun a here => ?_
        have written : a ∈ ((S.loadPhase A fetches job).op S A K .job).writes := by
          rw [op]
          exact here
        rw [schedule.runTasks_at_of_free busy written fun s busy' other =>
          clean_loadPhase fits apart _ _ busy busy' other.symm, op]
      exact after.trans (jobOp_run K m _ _)
  kept b other idle := by
    refine List.map_congr_left fun a here => schedule.runTasks_kept fun t busy written => ?_
    rcases busy_loadPhase (K := K) fits apart busy with
      ⟨i, k, f, rfl, found, hk, op⟩ | ⟨j, work, rfl, op⟩
    · rw [op] at written
      obtain rfl := List.mem_singleton.mp written
      have same := block_unique here (mem_block.mpr ⟨k, hk, rfl⟩)
      exact other (same ▸ List.mem_map_of_mem (List.mem_of_getElem? found))
    · rw [op] at written
      have none := idle (block_unique here written)
      rw [none] at work
      cases work
  hbm addr := by
    refine schedule.runTasks_kept fun t busy written => ?_
    rcases busy_loadPhase (K := K) fits apart busy with
      ⟨i, k, f, rfl, -, -, op⟩ | ⟨j, -, rfl, op⟩
    · rw [op] at written
      cases List.mem_singleton.mp written
    · rw [op] at written
      obtain ⟨_, -, same⟩ := Systolic.mem_tile.mp written
      cases same

/-! ## Storing -/

theorem busy_storePhase (fits : S.Fits A) {t : Task} (busy : (S.storePhase A offset).Busy t) :
    ∃ k < S.tileSizeByte, t = .byte 0 k ∧ (S.storePhase A offset).op S A K t =
      copyByte (.l1 cluster (4 * S.tileSizeByte + k)) (.hbm (A.hbmStartBase + offset + k)) := by
  cases t with
  | byte i k =>
      obtain ⟨c, found, hk⟩ := busy
      cases i with
      | succ i => cases found
      | zero =>
          obtain rfl := Option.some.inj found
          refine ⟨k, hk, rfl, ?_⟩
          simp only [Phase.op, Tiling.storePhase, List.getElem?_cons_zero, Option.map_some,
            Option.getD_some]
          rw [place_tile, place_block fits (by omega) hk]
  | job => cases busy

theorem clean_storePhase (fits : S.Fits A) : (S.storePhase A offset).Clean S A K := by
  intro s t busy busy' other
  obtain ⟨k, hk, rfl, op⟩ := busy_storePhase (K := K) fits busy
  obtain ⟨k', hk', rfl, op'⟩ := busy_storePhase (K := K) fits busy'
  rw [op, op']
  rintro (⟨a, written, read | written'⟩ | ⟨a, written, read⟩)
  · obtain rfl := List.mem_singleton.mp written
    cases List.mem_singleton.mp read
  · have same := (List.mem_singleton.mp written).symm.trans (List.mem_singleton.mp written')
    have bytes := Place.hbm.inj same
    exact other (by rw [Nat.add_left_cancel bytes])
  · obtain rfl := List.mem_singleton.mp written
    cases List.mem_singleton.mp read

/-- What the store leaves. -/
structure Stored (S : Tiling) (A : Arch) (offset : Nat) (m m' : Place → β) : Prop where
  stored : loads m' (S.hbmTile A offset) = loads m (S.block 4)
  hbm : ∀ addr, .hbm addr ∉ S.hbmTile A offset → m' (.hbm addr) = m (.hbm addr)

theorem stored (fits : S.Fits A)
    (schedule : Schedule (S.storePhase A offset).Busy (fun _ _ => False) ts) :
    Stored S A offset m (runTasks ((S.storePhase A offset).op S A K) ts m) where
  stored := by
    unfold Tiling.block Tiling.hbmTile
    rw [Systolic.loads_tile]
    unfold loads
    rw [List.map_map]
    refine List.map_congr_left fun k inside => ?_
    have hk := List.mem_range.mp inside
    have busy : (S.storePhase A offset).Busy (.byte 0 k) := ⟨_, rfl, hk⟩
    obtain ⟨k', -, same, op⟩ := busy_storePhase (K := K) fits busy
    obtain ⟨-, rfl⟩ := Task.byte.inj same
    have written : Place.hbm (A.hbmStartBase + offset + k) ∈
        ((S.storePhase A offset).op S A K (.byte 0 k)).writes := by
      rw [op]
      exact List.mem_cons_self
    rw [Function.comp_apply, schedule.runTasks_at_of_free busy written fun s busy' other =>
      clean_storePhase fits _ _ busy busy' other.symm, op]
    exact Systolic.copyByte_run
  hbm addr outside := by
    refine schedule.runTasks_kept fun t busy written => outside ?_
    obtain ⟨k, hk, rfl, op⟩ := busy_storePhase (K := K) fits busy
    rw [op] at written
    exact mem_hbmTile.mpr ⟨k, hk, List.mem_singleton.mp written⟩

end

/-! ## The phases of a tile of Z -/

namespace Tiling

variable (S : Tiling)

/-- The offset of a tile of X. -/
def xAt (row k : Nat) : Nat := (row * S.tilesPerDim + k) * S.tileSizeByte

/-- The offset of a tile of W. -/
def wAt (k col : Nat) : Nat := S.gemmSizeByte + (k * S.tilesPerDim + col) * S.tileSizeByte

/-- The offset of a tile of Y. -/
def yAt (row col : Nat) : Nat := 2 * S.gemmSizeByte + (row * S.tilesPerDim + col) * S.tileSizeByte

/-- The offset of a tile of Z. -/
def zAt (row col : Nat) : Nat := 3 * S.gemmSizeByte + (row * S.tilesPerDim + col) * S.tileSizeByte

/-- The block of the tile of X of a pair; that of W is the next one. -/
def buffer (i : Nat) : Nat := i % 2 * 2

/-- The phase in which a pair is multiplied. -/
def pairPhase (A : Arch) (row col i : Nat) : Phase :=
  S.loadPhase A [(buffer (i + 1), S.xAt row (i + 1)), (buffer (i + 1) + 1, S.wAt (i + 1) col)]
    (some (buffer i, buffer i + 1))

theorem gemmSizeByte_eq : S.gemmSizeByte = S.tilesPerDim * S.tilesPerDim * S.tileSizeByte := by
  unfold gemmSizeByte gemmDimension tileSizeByte
  ring

/-- A tile lies in its matrix. -/
theorem tile_le {i j : Nat} (hi : i < S.tilesPerDim) (hj : j < S.tilesPerDim) :
    (i * S.tilesPerDim + j) * S.tileSizeByte + S.tileSizeByte ≤ S.gemmSizeByte := by
  have row := Nat.mul_le_mul_right S.tilesPerDim (Nat.succ_le_of_lt hi)
  rw [Nat.succ_mul] at row
  have all := Nat.mul_le_mul_right S.tileSizeByte
    (show i * S.tilesPerDim + j + 1 ≤ S.tilesPerDim * S.tilesPerDim by omega)
  rw [Nat.succ_mul, ← S.gemmSizeByte_eq] at all
  exact all

theorem l1Offsets : xL1Offset1 = 0 * S.tileSizeByte ∧ S.wL1Offset1 = 1 * S.tileSizeByte ∧
    S.xL1Offset2 = 2 * S.tileSizeByte ∧ S.wL1Offset2 = 3 * S.tileSizeByte ∧
    S.yzL1Offset = 4 * S.tileSizeByte := by
  unfold yzL1Offset wL1Offset2 xL1Offset2 wL1Offset1 xL1Offset1
  omega

end Tiling

section

variable {S : Tiling} {A : Arch} {β : Type*} {K : Kernel β} {row col i : Nat}

open Tiling

theorem inner_eq (fits : S.Fits A) (hrow : row < S.tilesPerDim) (hcol : col < S.tilesPerDim)
    (steps : Nat) :
    ∀ i, i + steps < S.tilesPerDim → inner S A steps i (S.xAt row i) (S.wAt i col) =
      (List.range' i steps).map (S.pairPhase A row col) := by
  induction steps with
  | zero => exact fun _ _ => rfl
  | succ steps ih =>
      intro i bound
      have size := fits.hbm
      have x : u32 (S.xAt row i + S.tileSizeByte) = S.xAt row (i + 1) := by
        have next : S.xAt row i + S.tileSizeByte = S.xAt row (i + 1) := by
          unfold xAt
          ring
        have le := S.tile_le hrow (show i + 1 < S.tilesPerDim by omega)
        rw [next]
        exact u32_of_lt (by unfold xAt; omega)
      have w : u32 (S.wAt i col + S.tilesPerDim * S.tileSizeByte) = S.wAt (i + 1) col := by
        have next : S.wAt i col + S.tilesPerDim * S.tileSizeByte = S.wAt (i + 1) col := by
          unfold wAt
          ring
        have le := S.tile_le (show i + 1 < S.tilesPerDim by omega) hcol
        rw [next]
        exact u32_of_lt (by unfold wAt; omega)
      obtain ⟨x1, w1, x2, w2, yz⟩ := S.l1Offsets
      unfold inner
      dsimp only
      rw [x, w, ih (i + 1) (by omega), List.range'_succ, List.map_cons, x1, w1, x2, w2, yz]
      congr 1
      unfold pairPhase loadPhase buffer
      rcases Nat.mod_two_eq_zero_or_one i with even | odd
      · have next : (i + 1) % 2 = 1 := by omega
        rw [if_pos even, even, next]
        rfl
      · have next : (i + 1) % 2 = 0 := by omega
        rw [if_neg (by omega), odd, next]
        rfl

/-- The phases of a tile of Z. -/
theorem tilePhases_eq (fits : S.Fits A) (hrow : row < S.tilesPerDim) (hcol : col < S.tilesPerDim) :
    tilePhases S A row col =
      S.loadPhase A [(4, S.yAt row col), (0, S.xAt row 0), (1, S.wAt 0 col)] none ::
        (List.range (S.tilesPerDim - 1)).map (S.pairPhase A row col) ++
      [S.loadPhase A [] (some (2, 3)), S.storePhase A (S.zAt row col)] := by
  have size := fits.hbm
  have some : 0 < S.tilesPerDim := Nat.zero_lt_of_lt hrow
  have tile := S.tile_le hrow hcol
  have first := S.tile_le hrow some
  have top := S.tile_le some hcol
  have x : u32 (xHbmOffset + row * S.tilesPerDim * S.tileSizeByte) = S.xAt row 0 := by
    have place : xHbmOffset + row * S.tilesPerDim * S.tileSizeByte = S.xAt row 0 := by
      unfold xHbmOffset xAt
      ring
    rw [place]
    exact u32_of_lt (by unfold xAt; omega)
  have w : u32 (S.wHbmOffset + col * S.tileSizeByte) = S.wAt 0 col := by
    have place : S.wHbmOffset + col * S.tileSizeByte = S.wAt 0 col := by
      unfold wHbmOffset xHbmOffset wAt
      ring
    rw [place]
    exact u32_of_lt (by unfold wAt; omega)
  have y : u32 (S.yHbmOffset + row * S.tilesPerDim * S.tileSizeByte + col * S.tileSizeByte) =
      S.yAt row col := by
    have place : S.yHbmOffset + row * S.tilesPerDim * S.tileSizeByte + col * S.tileSizeByte =
        S.yAt row col := by
      unfold yHbmOffset wHbmOffset xHbmOffset yAt
      ring
    rw [place]
    exact u32_of_lt (by unfold yAt; omega)
  have z : u32 (S.zHbmOffset + row * S.tilesPerDim * S.tileSizeByte + col * S.tileSizeByte) =
      S.zAt row col := by
    have place : S.zHbmOffset + row * S.tilesPerDim * S.tileSizeByte + col * S.tileSizeByte =
        S.zAt row col := by
      unfold zHbmOffset yHbmOffset wHbmOffset xHbmOffset zAt
      ring
    rw [place]
    exact u32_of_lt (by unfold zAt; omega)
  obtain ⟨x1, w1, x2, w2, yz⟩ := S.l1Offsets
  unfold tilePhases
  dsimp only
  rw [x, w, y, z, inner_eq fits hrow hcol _ 0 (by omega), ← List.range_eq_range', x1, w1, x2, w2,
    yz]
  rfl

end

/-! ## The accumulated tile -/

section

variable (S : Tiling) (A : Arch) {β : Type*} (K : Kernel β) (m : Place → β)

/-- A pair of tiles of a tile of Z, in the HBM. -/
def pair (row col k : Nat) : List β × List β :=
  (loads m (S.hbmTile A (S.xAt row k)), loads m (S.hbmTile A (S.wAt k col)))

/-- The tile of Y of a tile of Z with the jobs on some pairs. -/
def accumulated (row col : Nat) (ks : List Nat) : List β :=
  ks.foldl (fun y k => K.job (pair S A m row col k).1 (pair S A m row col k).2 y)
    (loads m (S.hbmTile A (S.yAt row col)))

/-- The pair in the second buffers at the end. -/
def lastPair : Nat := if S.tilesPerDim % 2 = 0 then S.tilesPerDim - 1 else S.tilesPerDim - 2

/-- The tile of Z. -/
def zTile (row col : Nat) : List β :=
  accumulated S A K m row col (List.range (S.tilesPerDim - 1) ++ [lastPair S])

end

section

variable {S : Tiling} {A : Arch} {β : Type*} {K : Kernel β} {row col i : Nat} {m m' m₀ : Place → β}

open Tiling

theorem accumulated_concat (ks : List Nat) (k : Nat) : accumulated S A K m row col (ks ++ [k]) =
    K.job (pair S A m row col k).1 (pair S A m row col k).2 (accumulated S A K m row col ks) := by
  unfold accumulated
  rw [List.foldl_append]
  rfl

theorem loads_hbmTile {offset : Nat} (same : ∀ addr, m' (.hbm addr) = m (.hbm addr)) :
    loads m' (S.hbmTile A offset) = loads m (S.hbmTile A offset) := by
  refine List.map_congr_left fun a mem => ?_
  obtain ⟨k, -, rfl⟩ := mem_hbmTile.mp mem
  exact same _

/-- Pair `i` is in its blocks, the one before it in the others, and the jobs on all pairs before it
are done. -/
structure Pairs (S : Tiling) (A : Arch) (K : Kernel β) (m₀ m : Place → β) (row col i : Nat) :
    Prop where
  hbm : ∀ addr, m (.hbm addr) = m₀ (.hbm addr)
  now : (loads m (S.block (buffer i)), loads m (S.block (buffer i + 1))) = pair S A m₀ row col i
  before : ∀ j, i = j + 1 →
    (loads m (S.block (buffer j)), loads m (S.block (buffer j + 1))) = pair S A m₀ row col j
  y : loads m (S.block 4) = accumulated S A K m₀ row col (List.range i)

theorem apart_first : Apart [(4, S.yAt row col), (0, S.xAt row 0), (1, S.wAt 0 col)] none where
  nodup := by
    show [4, 0, 1].Nodup
    decide
  lt f mem := by
    simp only [List.mem_cons, List.not_mem_nil, or_false] at mem
    rcases mem with rfl | rfl | rfl <;> omega
  other j work := by cases work

theorem buffer_cases (i : Nat) :
    buffer i = 0 ∧ buffer (i + 1) = 2 ∨ buffer i = 2 ∧ buffer (i + 1) = 0 := by
  unfold buffer
  omega

theorem apart_pair : Apart
    [(buffer (i + 1), S.xAt row (i + 1)), (buffer (i + 1) + 1, S.wAt (i + 1) col)]
    (some (buffer i, buffer i + 1)) where
  nodup := by simp
  lt f mem := by
    simp only [List.mem_cons, List.not_mem_nil, or_false] at mem
    have blocks := buffer_cases i
    rcases mem with rfl | rfl <;> dsimp only <;> omega
  other j work f mem := by
    obtain rfl := Option.some.inj work
    simp only [List.mem_cons, List.not_mem_nil, or_false] at mem
    have blocks := buffer_cases i
    rcases mem with rfl | rfl <;> dsimp only <;> omega

theorem apart_last : Apart [] (some (2, 3)) where
  nodup := List.nodup_nil
  lt f mem := by cases mem
  other j work f mem := by cases mem

theorem pairs_start
    (loaded : Loaded S A K [(4, S.yAt row col), (0, S.xAt row 0), (1, S.wAt 0 col)] none m₀ m) :
    Pairs S A K m₀ m row col 0 where
  hbm := loaded.hbm
  now := Prod.ext (loaded.fetched (0, S.xAt row 0) (by simp))
    (loaded.fetched (1, S.wAt 0 col) (by simp))
  before j same := by cases same
  y := loaded.fetched (4, S.yAt row col) (by simp)

theorem Pairs.next (pairs : Pairs S A K m₀ m row col i)
    (loaded : Loaded S A K
      [(buffer (i + 1), S.xAt row (i + 1)), (buffer (i + 1) + 1, S.wAt (i + 1) col)]
      (some (buffer i, buffer i + 1)) m m') : Pairs S A K m₀ m' row col (i + 1) where
  hbm addr := (loaded.hbm addr).trans (pairs.hbm addr)
  now := by
    have x := loaded.fetched (buffer (i + 1), S.xAt row (i + 1)) (by simp)
    have w := loaded.fetched (buffer (i + 1) + 1, S.wAt (i + 1) col) (by simp)
    rw [loads_hbmTile pairs.hbm] at x w
    exact Prod.ext x w
  before j same := by
    obtain rfl := Nat.succ.inj same
    have blocks := buffer_cases i
    rw [← pairs.now, loaded.kept (buffer i) (by simp; omega) (by omega),
      loaded.kept (buffer i + 1) (by simp; omega) (by omega)]
  y := by
    rw [loaded.worked _ rfl, pairs.y, List.range_succ, accumulated_concat, ← pairs.now]

/-- The last job. -/
theorem Pairs.last (two : 2 ≤ S.tilesPerDim) (pairs : Pairs S A K m₀ m row col (S.tilesPerDim - 1))
    (loaded : Loaded S A K [] (some (2, 3)) m m') :
    loads m' (S.block 4) = zTile S A K m₀ row col := by
  have second : (loads m (S.block 2), loads m (S.block 3)) = pair S A m₀ row col (lastPair S) := by
    unfold lastPair
    rcases Nat.mod_two_eq_zero_or_one S.tilesPerDim with even | odd
    · have blocks : buffer (S.tilesPerDim - 1) = 2 := by
        unfold buffer
        omega
      rw [if_pos even, ← pairs.now, blocks]
    · have blocks : buffer (S.tilesPerDim - 2) = 2 := by
        unfold buffer
        omega
      rw [if_neg (by omega), ← pairs.before (S.tilesPerDim - 2) (by omega), blocks]
  unfold zTile
  rw [loaded.worked _ rfl, pairs.y, accumulated_concat, ← second]

/-! ## Runs of the program -/

theorem Runs.cons_inv {p : Phase} {ps : List Phase} (run : Runs S A K (p :: ps) m m') :
    ∃ ts, Schedule p.Busy (fun _ _ => False) ts ∧
      Runs S A K ps (runTasks (p.op S A K) ts m) m' := by
  cases run with
  | cons schedule rest => exact ⟨_, schedule, rest⟩

theorem Runs.append_inv {ps qs : List Phase} (run : Runs S A K (ps ++ qs) m m') :
    ∃ m₁, Runs S A K ps m m₁ ∧ Runs S A K qs m₁ m' := by
  induction ps generalizing m with
  | nil => exact ⟨m, .nil m, run⟩
  | cons p ps ih =>
      obtain ⟨ts, schedule, rest⟩ := run.cons_inv
      obtain ⟨m₁, front, back⟩ := ih rest
      exact ⟨m₁, .cons schedule front, back⟩

theorem Pairs.run (fits : S.Fits A) {steps : Nat} (pairs : Pairs S A K m₀ m row col i)
    (run : Runs S A K ((List.range' i steps).map (S.pairPhase A row col)) m m') :
    Pairs S A K m₀ m' row col (i + steps) := by
  induction steps generalizing i m with
  | zero =>
      cases run
      exact pairs
  | succ steps ih =>
      rw [List.range'_succ, List.map_cons] at run
      obtain ⟨ts, schedule, rest⟩ := run.cons_inv
      have next := ih (pairs.next (loaded fits apart_pair schedule)) rest
      rwa [Nat.add_assoc, Nat.add_comm 1] at next

/-- What the phases of a tile of Z leave in the HBM. -/
theorem tile_run (fits : S.Fits A) (two : 2 ≤ S.tilesPerDim) (hrow : row < S.tilesPerDim)
    (hcol : col < S.tilesPerDim) (run : Runs S A K (tilePhases S A row col) m m') :
    loads m' (S.hbmTile A (S.zAt row col)) = zTile S A K m row col ∧
      ∀ addr, .hbm addr ∉ S.hbmTile A (S.zAt row col) → m' (.hbm addr) = m (.hbm addr) := by
  rw [tilePhases_eq fits hrow hcol] at run
  obtain ⟨m₁, front, back⟩ := run.append_inv
  obtain ⟨ts, schedule, rest⟩ := front.cons_inv
  have first := pairs_start (loaded (K := K) (m := m) fits apart_first schedule)
  rw [List.range_eq_range'] at rest
  have pairs := first.run fits rest
  rw [Nat.zero_add] at pairs
  obtain ⟨ts', schedule', back⟩ := back.cons_inv
  have last := loaded (K := K) (m := m₁) fits apart_last schedule'
  obtain ⟨ts'', schedule'', back⟩ := back.cons_inv
  cases back
  have store := stored (K := K)
    (m := runTasks ((S.loadPhase A [] (some (2, 3))).op S A K) ts' m₁) fits schedule''
  refine ⟨store.stored.trans (pairs.last two last), fun addr outside => ?_⟩
  rw [store.hbm addr outside, last.hbm, pairs.hbm]

/-- A tile of Z shares no byte with another one or with the matrices that are read. -/
theorem zAt_apart {row' col' : Nat} (hcol : col < S.tilesPerDim) (hcol' : col' < S.tilesPerDim)
    (other : (row, col) ≠ (row', col')) {a : Place}
    (here : a ∈ S.hbmTile A (S.zAt row col)) : a ∉ S.hbmTile A (S.zAt row' col') := by
  intro there
  obtain ⟨k, hk, rfl⟩ := mem_hbmTile.mp here
  obtain ⟨k', hk', same⟩ := mem_hbmTile.mp there
  have bytes := Place.hbm.inj same
  unfold zAt at bytes
  obtain ⟨tile, -⟩ := block_inj hk hk' (a := row * S.tilesPerDim + col)
    (c := row' * S.tilesPerDim + col') (by omega)
  obtain ⟨rfl, rfl⟩ := block_inj hcol hcol' tile
  exact other rfl

/-- The tiles that are read lie in front of those of Z. -/
theorem zTile_congr (hrow : row < S.tilesPerDim) (hcol : col < S.tilesPerDim)
    (two : 2 ≤ S.tilesPerDim)
    (same : ∀ k < 3 * S.gemmSizeByte,
      m' (.hbm (A.hbmStartBase + k)) = m (.hbm (A.hbmStartBase + k))) :
    zTile S A K m' row col = zTile S A K m row col := by
  have tile : ∀ offset, offset + S.tileSizeByte ≤ 3 * S.gemmSizeByte →
      loads m' (S.hbmTile A offset) = loads m (S.hbmTile A offset) := by
    intro offset inside
    refine List.map_congr_left fun a mem => ?_
    obtain ⟨k, hk, rfl⟩ := mem_hbmTile.mp mem
    rw [Nat.add_assoc]
    exact same _ (by omega)
  have pairs : ∀ k ∈ List.range (S.tilesPerDim - 1) ++ [lastPair S],
      pair S A m' row col k = pair S A m row col k := by
    intro k mem
    have below : k < S.tilesPerDim := by
      rcases List.mem_append.mp mem with early | last
      · exact Nat.lt_of_lt_of_le (List.mem_range.mp early) (Nat.sub_le _ _)
      · obtain rfl := List.mem_singleton.mp last
        unfold lastPair
        split <;> omega
    have x := S.tile_le hrow below
    have w := S.tile_le below hcol
    exact Prod.ext (tile _ (by unfold xAt; omega)) (tile _ (by unfold wAt; omega))
  have y := S.tile_le hrow hcol
  unfold zTile accumulated
  rw [tile (S.yAt row col) (by unfold yAt; omega)]
  refine List.foldl_ext _ _ _ fun y k mem => ?_
  rw [pairs k mem]

/-- The tiles of Z in a part of the program. -/
theorem tiles_run (fits : S.Fits A) (two : 2 ≤ S.tilesPerDim) {tiles : List (Nat × Nat)}
    (nodup : tiles.Nodup) (inside : ∀ t ∈ tiles, t.1 < S.tilesPerDim ∧ t.2 < S.tilesPerDim)
    (run : Runs S A K (tiles.flatMap fun t => tilePhases S A t.1 t.2) m m') :
    (∀ t ∈ tiles, loads m' (S.hbmTile A (S.zAt t.1 t.2)) = zTile S A K m t.1 t.2) ∧
      ∀ addr, (∀ t ∈ tiles, .hbm addr ∉ S.hbmTile A (S.zAt t.1 t.2)) →
        m' (.hbm addr) = m (.hbm addr) := by
  induction tiles generalizing m with
  | nil =>
      cases run
      exact ⟨fun t mem => absurd mem List.not_mem_nil, fun _ _ => rfl⟩
  | cons t tiles ih =>
      rw [List.flatMap_cons] at run
      obtain ⟨m₁, first, rest⟩ := run.append_inv
      obtain ⟨alone, nodup'⟩ := List.nodup_cons.mp nodup
      obtain ⟨hrow, hcol⟩ := inside t List.mem_cons_self
      have inside' := fun u mem => inside u (List.mem_cons_of_mem t mem)
      obtain ⟨result, kept⟩ := tile_run fits two hrow hcol first
      obtain ⟨results, kept'⟩ := ih nodup' inside' rest
      refine ⟨fun u mem => ?_, fun addr outside => ?_⟩
      · rcases List.mem_cons.mp mem with rfl | later
        · refine Eq.trans (List.map_congr_left fun a here => ?_) result
          obtain ⟨k, -, rfl⟩ := mem_hbmTile.mp here
          refine kept' _ fun v mem' => zAt_apart hcol (inside' v mem').2 (fun same => ?_) here
          obtain rfl : u = v := same
          exact alone mem'
        · obtain ⟨hrow', hcol'⟩ := inside' u later
          rw [results u later]
          refine zTile_congr hrow' hcol' two fun k hk => kept _ fun here => ?_
          obtain ⟨k', -, same⟩ := mem_hbmTile.mp here
          have bytes := Place.hbm.inj same
          unfold zAt at bytes
          omega
      · rw [kept' addr fun v mem => outside v (List.mem_cons_of_mem t mem),
          kept addr (outside t List.mem_cons_self)]

theorem exampleOneClusterGemm_eq : exampleOneClusterGemm S A =
    (List.product (List.range S.tilesPerDim) (List.range S.tilesPerDim)).flatMap fun t =>
      tilePhases S A t.1 t.2 := by
  unfold exampleOneClusterGemm List.product
  simp only [List.flatMap_assoc, List.flatMap_map]

/-- The phases of the program are free of conflicts. -/
theorem clean (fits : S.Fits A) (p : Phase) (mem : p ∈ exampleOneClusterGemm S A) :
    p.Clean S A K := by
  rw [exampleOneClusterGemm_eq] at mem
  obtain ⟨⟨row, col⟩, tile, mem⟩ := List.mem_flatMap.mp mem
  obtain ⟨hrow, hcol⟩ := List.mem_product.mp tile
  rw [tilePhases_eq fits (List.mem_range.mp hrow) (List.mem_range.mp hcol)] at mem
  rcases List.mem_append.mp mem with front | back
  · rcases List.mem_cons.mp front with rfl | pairs
    · exact clean_loadPhase fits apart_first
    · obtain ⟨i, -, rfl⟩ := List.mem_map.mp pairs
      exact clean_loadPhase fits apart_pair
  · rcases List.mem_cons.mp back with rfl | store
    · exact clean_loadPhase fits apart_last
    · obtain rfl := List.mem_singleton.mp store
      exact clean_storePhase fits

/-- In every run, whatever the order of the transfers and the jobs, each tile of Z is the tile of Y
with the jobs on the pairs of its row and column, all but the last one in their order; the last job
is that on the last pair only if the number of tiles is even, otherwise it repeats the one before.
Nothing else in the HBM changes, and no two tasks between two barriers conflict. -/
theorem one_cluster_gemm (fits : S.Fits A) (two : 2 ≤ S.tilesPerDim) (K : Kernel β)
    (run : Runs S A K (exampleOneClusterGemm S A) m m') :
    (∀ row < S.tilesPerDim, ∀ col < S.tilesPerDim, loads m' (S.hbmTile A (S.zAt row col)) =
      accumulated S A K m row col (List.range (S.tilesPerDim - 1) ++
        [if S.tilesPerDim % 2 = 0 then S.tilesPerDim - 1 else S.tilesPerDim - 2])) ∧
      (∀ addr, (∀ row < S.tilesPerDim, ∀ col < S.tilesPerDim,
        .hbm addr ∉ S.hbmTile A (S.zAt row col)) → m' (.hbm addr) = m (.hbm addr)) ∧
      ∀ p ∈ exampleOneClusterGemm S A, p.Clean S A K := by
  have program := run
  rw [exampleOneClusterGemm_eq] at program
  obtain ⟨results, kept⟩ := tiles_run fits two (List.nodup_range.product List.nodup_range)
    (fun t mem => (List.mem_product.mp mem).imp List.mem_range.mp List.mem_range.mp) program
  refine ⟨fun row hrow col hcol => ?_, fun addr outside => ?_, fun p => clean fits p⟩
  · exact results (row, col)
      (List.mem_product.mpr ⟨List.mem_range.mpr hrow, List.mem_range.mpr hcol⟩)
  · refine kept addr fun t mem => ?_
    obtain ⟨hrow, hcol⟩ := List.mem_product.mp mem
    exact outside t.1 (List.mem_range.mp hrow) t.2 (List.mem_range.mp hcol)

end

/-! ## There are runs -/

/-- The bytes transfer by transfer, and then the job. -/
def Phase.tasks (p : Phase) : List Task :=
  (List.range p.transfers.length).flatMap (fun i =>
    (List.range ((p.transfers[i]?).elim 0 Copy.size)).map (Task.byte i)) ++
  if p.redmule.isSome then [.job] else []

theorem Phase.mem_tasks (p : Phase) (t : Task) : t ∈ p.tasks ↔ p.Busy t := by
  unfold Phase.tasks
  rw [List.mem_append, List.mem_flatMap]
  cases t with
  | byte i k =>
      constructor
      · rintro (⟨i', -, mem⟩ | mem)
        · obtain ⟨k', less, same⟩ := List.mem_map.mp mem
          obtain ⟨rfl, rfl⟩ := Task.byte.inj same
          have below := List.mem_range.mp less
          cases found : p.transfers[i']? with
          | none =>
              rw [found] at below
              exact absurd below (Nat.not_lt_zero _)
          | some c =>
              rw [found] at below
              exact ⟨c, found, below⟩
        · split at mem
          · cases List.mem_singleton.mp mem
          · cases mem
      · rintro ⟨c, found, below⟩
        refine Or.inl ⟨i, List.mem_range.mpr (List.getElem?_eq_some_iff.mp found).1, ?_⟩
        rw [Option.mem_def.mp found]
        exact List.mem_map_of_mem (List.mem_range.mpr below)
  | job =>
      constructor
      · rintro (⟨i, -, mem⟩ | mem)
        · obtain ⟨k, -, same⟩ := List.mem_map.mp mem
          cases same
        · split at mem
          · assumption
          · cases mem
      · intro busy
        right
        rw [if_pos (show p.redmule.isSome = true from busy)]
        exact List.mem_cons_self

theorem Phase.tasks_schedule (p : Phase) : Schedule p.Busy (fun _ _ => False) p.tasks where
  mem_iff := p.mem_tasks
  ordered := List.pairwise_of_forall fun _ _ => not_false
  nodup := by
    unfold Phase.tasks
    refine List.nodup_append.mpr ⟨?_, ?_, ?_⟩
    · refine List.nodup_flatMap.mpr ⟨fun i _ => List.nodup_range.map fun k k' same =>
        (Task.byte.inj same).2, ?_⟩
      refine List.nodup_range.imp fun {i j} other => ?_
      rw [Function.onFun, List.disjoint_left]
      intro t here there
      obtain ⟨k, -, rfl⟩ := List.mem_map.mp here
      obtain ⟨k', -, same⟩ := List.mem_map.mp there
      exact other (Task.byte.inj same).1.symm
    · split
      · exact List.nodup_singleton _
      · exact List.nodup_nil
    · rintro s mem t mem' rfl
      obtain ⟨i, -, byte⟩ := List.mem_flatMap.mp mem
      obtain ⟨k, -, rfl⟩ := List.mem_map.mp byte
      split at mem'
      · cases List.mem_singleton.mp mem'
      · cases mem'

theorem exists_runs (S : Tiling) (A : Arch) {β : Type*} (K : Kernel β) (ps : List Phase)
    (m : Place → β) :
    ∃ m', Runs S A K ps m m' := by
  induction ps generalizing m with
  | nil => exact ⟨m, .nil m⟩
  | cons p ps ih =>
      obtain ⟨m', rest⟩ := ih (runTasks (p.op S A K) p.tasks m)
      exact ⟨m', .cons p.tasks_schedule rest⟩

/-- Four tiles of one element in each matrix. -/
def oneElement : Tiling := ⟨1, 2, 2⟩

theorem oneElement_fits : oneElement.Fits Systolic.pairArch where
  l1 := by decide
  hbm := by decide

theorem one_cluster_gemm_oneElement : ∃ m',
    Runs oneElement Systolic.pairArch Systolic.sumKernel
        (exampleOneClusterGemm oneElement Systolic.pairArch) (fun _ => 1) m' ∧
      loads m' (oneElement.hbmTile Systolic.pairArch (oneElement.zAt 1 0)) =
        accumulated oneElement Systolic.pairArch Systolic.sumKernel (fun _ => 1) 1 0 [0, 1] := by
  obtain ⟨m', run⟩ := exists_runs oneElement Systolic.pairArch Systolic.sumKernel
    (exampleOneClusterGemm oneElement Systolic.pairArch) (fun _ => 1)
  exact ⟨m', run, (one_cluster_gemm oneElement_fits (Nat.le_refl 2) Systolic.sumKernel run).1
    1 Nat.one_lt_two 0 Nat.two_pos⟩

end SoftHier.OneCluster
