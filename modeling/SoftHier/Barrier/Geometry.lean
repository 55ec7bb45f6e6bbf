import Mathlib.Data.Finset.Card
import Mathlib.Data.Fintype.Prod
import SoftHier.Barrier.GroupMap

/-!
# The geometry of the groups

What `grid_sync_group_init` computes fits together: the numbers of clusters of a group, the
addresses of its words and the clusters its wakeup reaches, also where a group is cut off at a
border of the mesh.

* `SyncMemory`, `SyncMemory.word`: where the words of a cluster are.
* `GroupPoint`, `SyncMemory.point`: the four words a cluster uses, `GlobalWord` those of the global
  barriers.
* `GroupMachine.WakesUp`: a wakeup, from the masks through the wakeup register to `check_target`.
* `members_eq`, `point_eq_iff`, `wakesUp_iff`: the three parts, and `group_geometry` all of them.
-/

namespace SoftHier.Barrier

/-! ## Addresses -/

/-- The synchronisation memories, one for each cluster from `ARCH_SYNC_BASE` on: words that are
counted in, and then the registers of the cluster. -/
structure SyncMemory where
  syncBase : Nat
  syncInterleave : Nat
  syncSpecialMem : Nat
  large : 40 ≤ syncInterleave
  fits : syncBase + 2 ^ 16 * (syncInterleave + syncSpecialMem) ≤ 2 ^ 32

namespace SyncMemory

/-- The memories of every architecture of the repository. -/
def flexClusterArch : SyncMemory where
  syncBase := 0x40000000
  syncInterleave := 0x80
  syncSpecialMem := 0x40
  large := by decide
  fits := by decide

variable (L : SyncMemory)

/-- `ARCH_SYNC_SIZE`. -/
def syncSize : Nat := L.syncInterleave + L.syncSpecialMem

/-- `ARCH_SYNC_BASE+(cluster*ARCH_SYNC_SIZE)+offset`. -/
def word (cluster offset : Nat) : Nat :=
  u32 (u32 (L.syncBase + u32 (cluster * L.syncSize)) + offset)

/-- The four bytes at `a` are words of cluster `cluster`, none of its registers. -/
def Holds (cluster a : Nat) : Prop :=
  L.syncBase + cluster * L.syncSize ≤ a ∧
    a + 4 ≤ L.syncBase + cluster * L.syncSize + L.syncInterleave

variable {L} {cluster cluster' offset offset' : Nat}

theorem word_eq (low : cluster < 2 ^ 16) (inside : offset + 4 ≤ 40) :
    L.word cluster offset = L.syncBase + (cluster * L.syncSize + offset) := by
  have large := L.large
  have fits : L.syncBase + 2 ^ 16 * L.syncSize ≤ 2 ^ 32 := L.fits
  have next : cluster * L.syncSize + L.syncSize ≤ 2 ^ 16 * L.syncSize := by
    have rows := Nat.mul_le_mul_right L.syncSize low
    rwa [Nat.succ_mul] at rows
  have size : L.syncInterleave ≤ L.syncSize := Nat.le_add_right _ _
  unfold word
  rw [u32_of_lt (n := cluster * L.syncSize) (by omega), u32_of_lt (n := L.syncBase + _) (by omega),
    u32_of_lt (by omega), Nat.add_assoc]

theorem holds_word (low : cluster < 2 ^ 16) (inside : offset + 4 ≤ 40) :
    L.Holds cluster (L.word cluster offset) := by
  have large := L.large
  unfold Holds
  rw [word_eq low inside]
  omega

theorem word_apart (low : cluster < 2 ^ 16) (low' : cluster' < 2 ^ 16) (inside : offset + 4 ≤ 40)
    (inside' : offset' + 4 ≤ 40)
    (differ : cluster ≠ cluster' ∨ offset + 4 ≤ offset' ∨ offset' + 4 ≤ offset) :
    L.word cluster offset + 4 ≤ L.word cluster' offset' ∨
      L.word cluster' offset' + 4 ≤ L.word cluster offset := by
  have large := L.large
  have size : L.syncInterleave ≤ L.syncSize := Nat.le_add_right _ _
  rw [word_eq low inside, word_eq low' inside']
  rcases place_apart L.syncSize (by omega) (by omega) differ with before | after
  · omega
  · omega

end SyncMemory

/-! ## The words of a group -/

/-- The words of a group. -/
inductive GroupPoint where
  | syncXPoint
  | syncXPiter
  | syncYPoint
  | syncYPiter
  deriving DecidableEq, Repr

namespace GroupPoint

/-- The word is one of a row of the group. -/
def rowLevel : GroupPoint → Bool
  | syncXPoint | syncXPiter => true
  | syncYPoint | syncYPiter => false

/-- Its place in the memory of its cluster. -/
def offset : GroupPoint → Nat
  | syncXPoint => 24
  | syncXPiter => 28
  | syncYPoint => 32
  | syncYPiter => 36

theorem offset_bounds (k : GroupPoint) : 24 ≤ k.offset ∧ k.offset + 4 ≤ 40 := by
  cases k <;> decide

theorem offset_apart {k l : GroupPoint} (differ : k ≠ l) :
    k.offset + 4 ≤ l.offset ∨ l.offset + 4 ≤ k.offset := by
  cases k <;> cases l <;> first
    | exact absurd rfl differ
    | decide

end GroupPoint

/-- The four addresses `grid_sync_group_init` computes in cluster `c`. -/
def SyncMemory.point (L : SyncMemory) {M : GroupMachine} (c : M.Clusters) : GroupPoint → Nat
  | .syncXPoint => L.word (clusterIndex M.toGrid (M.info c).syncXCluster c.2) 24
  | .syncXPiter => L.word (clusterIndex M.toGrid (M.info c).syncXCluster c.2) 28
  | .syncYPoint => L.word (clusterIndex M.toGrid (M.info c).syncXCluster (M.info c).syncYCluster) 32
  | .syncYPiter => L.word (clusterIndex M.toGrid (M.info c).syncXCluster (M.info c).syncYCluster) 36

/-- The words of the global barriers: of `flex_global_barrier`, the round number of its polling
variant, and those of the barriers in two levels. -/
inductive GlobalWord (G : Grid) where
  | barrier
  | barrierIter
  | xy (w : SyncWord G)

/-- Their addresses. -/
def SyncMemory.global (L : SyncMemory) {G : Grid} : GlobalWord G → Nat
  | .barrier => L.syncBase
  | .barrierIter => u32 (L.syncBase + 4)
  | .xy (.barrierX y) => L.word (clusterIndex G (G.numX / 2) y) 8
  | .xy (.barrierIx y) => L.word (clusterIndex G (G.numX / 2) y) 12
  | .xy .barrierY => L.word (clusterIndex G (G.numX / 2) (G.numY / 2)) 16
  | .xy .barrierIy => L.word (clusterIndex G (G.numX / 2) (G.numY / 2)) 20

namespace Group

variable {M : GroupMachine}

theorem syncX_bounds (g : Group M) :
    g.syncX < M.numX ∧ g.x * M.gridXDim ≤ g.syncX ∧ g.syncX < (g.x + 1) * M.gridXDim := by
  have less := g.x_lt
  have pos := M.gridXDim_pos
  have next : (g.x + 1) * M.gridXDim = g.x * M.gridXDim + M.gridXDim := Nat.succ_mul _ _
  unfold syncX
  omega

theorem syncY_bounds (g : Group M) :
    g.syncY < M.numY ∧ g.y * M.gridYDim ≤ g.syncY ∧ g.syncY < (g.y + 1) * M.gridYDim := by
  have less := g.y_lt
  have pos := M.gridYDim_pos
  have next : (g.y + 1) * M.gridYDim = g.y * M.gridYDim + M.gridYDim := Nat.succ_mul _ _
  unfold syncY
  omega

/-- The columns of the group. -/
def column (g : Group M) (x : Fin g.machine.numX) : Fin M.numX :=
  ⟨g.x * M.gridXDim + x, by
    have less : x.val < min ((g.x + 1) * M.gridXDim) M.numX - g.x * M.gridXDim := x.isLt
    omega⟩

theorem column_injective (g : Group M) : Function.Injective g.column := by
  intro x x' same
  exact Fin.ext (Nat.add_left_cancel (congrArg Fin.val same))

/-- The rows of the group. -/
def row (g : Group M) (y : Fin g.machine.numY) : Fin M.numY :=
  ⟨g.y * M.gridYDim + y, by
    have less : y.val < min ((g.y + 1) * M.gridYDim) M.numY - g.y * M.gridYDim := y.isLt
    omega⟩

theorem row_injective (g : Group M) : Function.Injective g.row := by
  intro y y' same
  exact Fin.ext (Nat.add_left_cancel (congrArg Fin.val same))

/-- The cluster in whose memory `c` finds the word. -/
def home (c : M.Clusters) (k : GroupPoint) : M.Clusters :=
  (⟨(of c).syncX, (syncX_bounds _).1⟩,
    if k.rowLevel then c.2 else ⟨(of c).syncY, (syncY_bounds _).1⟩)

/-- It is one of the group, and for a word of a row in that row. -/
theorem of_home (c : M.Clusters) (k : GroupPoint) : of (home c k) = of c := by
  obtain ⟨-, lowX, highX⟩ := syncX_bounds (of c)
  obtain ⟨-, lowY, highY⟩ := syncY_bounds (of c)
  have x : (of c).syncX / M.gridXDim = (of c).x := Nat.div_eq_of_lt_le lowX highX
  have y : (of c).syncY / M.gridYDim = (of c).y := Nat.div_eq_of_lt_le lowY highY
  cases k <;> simp only [home, GroupPoint.rowLevel, of, Group.mk.injEq, if_true]
  · exact ⟨x, trivial⟩
  · exact ⟨x, trivial⟩
  · exact ⟨x, y⟩
  · exact ⟨x, y⟩

theorem home_row {c : M.Clusters} {k : GroupPoint} (row : k.rowLevel = true) :
    (home c k).2 = c.2 := if_pos row

theorem home_eq_iff {c d : M.Clusters} {k : GroupPoint} :
    home c k = home d k ↔ M.SameGroup c d ∧ (k.rowLevel = true → c.2 = d.2) := by
  constructor
  · intro same
    constructor
    · rw [← of_eq_iff, ← of_home c k, ← of_home d k, same]
    · intro row
      rw [← home_row row, same, home_row row]
  · rintro ⟨group, rows⟩
    have same : of c = of d := of_eq_iff.mpr group
    cases row : k.rowLevel with
    | true => simp only [home, same, row, rows row]
    | false => simp only [home, same, row, Bool.false_eq_true, if_false]

end Group

theorem clusterIndex_lt {M : GroupMachine} {x y : Nat} (x_lt : x < M.numX) (y_lt : y < M.numY) :
    clusterIndex M.toGrid x y < 2 ^ 16 := by
  have wide := M.numX_le
  have high := M.numY_le
  have rows : (y + 1) * M.numX ≤ 256 * 256 := Nat.mul_le_mul (by omega) wide
  rw [Nat.succ_mul] at rows
  unfold clusterIndex
  omega

section

variable {M : GroupMachine} {L : SyncMemory} {c d : M.Clusters} {k l : GroupPoint}

/-- A word is in the memory of its cluster. -/
theorem point_eq : L.point c k =
    L.word (clusterIndex M.toGrid (Group.home c k).1 (Group.home c k).2) k.offset := by
  have x : (M.info c).syncXCluster = (Group.of c).syncX := by
    rw [GroupMachine.info_eq]
    rfl
  have y : (M.info c).syncYCluster = (Group.of c).syncY := by
    rw [GroupMachine.info_eq]
    rfl
  cases k <;> simp only [SyncMemory.point, x, y] <;> rfl

theorem holds_point :
    L.Holds (clusterIndex M.toGrid (Group.home c k).1 (Group.home c k).2) (L.point c k) := by
  rw [point_eq]
  exact SyncMemory.holds_word (clusterIndex_lt (Group.home c k).1.isLt (Group.home c k).2.isLt)
    k.offset_bounds.2

/-- Words of different groups, of different rows or with different names do not overlap. -/
theorem point_apart (differ : ¬ (k = l ∧ M.SameGroup c d ∧ (k.rowLevel = true → c.2 = d.2))) :
    L.point c k + 4 ≤ L.point d l ∨ L.point d l + 4 ≤ L.point c k := by
  rw [point_eq, point_eq]
  apply SyncMemory.word_apart (clusterIndex_lt (Group.home c k).1.isLt (Group.home c k).2.isLt)
    (clusterIndex_lt (Group.home d l).1.isLt (Group.home d l).2.isLt) k.offset_bounds.2
    l.offset_bounds.2
  rcases eq_or_ne k l with rfl | other
  · left
    intro same
    obtain ⟨x, y⟩ := clusterIndex_injective (Group.home c k).1.isLt (Group.home d k).1.isLt same
    exact differ ⟨rfl, Group.home_eq_iff.mp (Prod.ext (Fin.ext x) (Fin.ext y))⟩
  · exact Or.inr (GroupPoint.offset_apart other)

/-- Clusters use the same word if and only if they are of the same group, for a word of a row also
in the same row. -/
theorem point_eq_iff : L.point c k = L.point d l ↔
    k = l ∧ M.SameGroup c d ∧ (k.rowLevel = true → c.2 = d.2) := by
  constructor
  · intro same
    by_contra differ
    rcases point_apart (L := L) differ with before | after <;> omega
  · rintro ⟨rfl, group⟩
    rw [point_eq, point_eq, Group.home_eq_iff.mpr group]

/-- The words of the global barriers come before those of the groups in the memory of a cluster. -/
theorem global_eq (w : GlobalWord M.toGrid) :
    ∃ cluster < 2 ^ 16, ∃ offset, offset + 4 ≤ 24 ∧ L.global w = L.word cluster offset := by
  have middleX : M.numX / 2 < M.numX := Nat.div_lt_self M.numX_pos Nat.one_lt_two
  have middleY : M.numY / 2 < M.numY := Nat.div_lt_self M.numY_pos Nat.one_lt_two
  have first : ∀ offset, offset + 4 ≤ 40 → L.word 0 offset = L.syncBase + offset := by
    intro offset inside
    rw [SyncMemory.word_eq (Nat.two_pow_pos 16) inside, Nat.zero_mul, Nat.zero_add]
  cases w with
  | barrier => exact ⟨0, Nat.two_pow_pos 16, 0, by omega, (first 0 (by omega)).symm⟩
  | barrierIter =>
    have large := L.large
    have fits := L.fits
    have whole : u32 (L.syncBase + 4) = L.syncBase + 4 := u32_of_lt (by omega)
    exact ⟨0, Nat.two_pow_pos 16, 4, by omega, whole.trans (first 4 (by omega)).symm⟩
  | xy w =>
    cases w with
    | barrierX y => exact ⟨_, clusterIndex_lt middleX y.isLt, 8, by omega, rfl⟩
    | barrierIx y => exact ⟨_, clusterIndex_lt middleX y.isLt, 12, by omega, rfl⟩
    | barrierY => exact ⟨_, clusterIndex_lt middleX middleY, 16, by omega, rfl⟩
    | barrierIy => exact ⟨_, clusterIndex_lt middleX middleY, 20, by omega, rfl⟩

theorem point_apart_global (w : GlobalWord M.toGrid) :
    L.point c k + 4 ≤ L.global w ∨ L.global w + 4 ≤ L.point c k := by
  obtain ⟨cluster, low, offset, early, place⟩ := global_eq (L := L) w
  obtain ⟨late, inside⟩ := k.offset_bounds
  rw [point_eq, place]
  apply SyncMemory.word_apart (clusterIndex_lt (Group.home c k).1.isLt (Group.home c k).2.isLt) low
    inside (by omega)
  omega

end

/-! ## The wakeup -/

/-- The value `flex_wakeup_clusters` writes. -/
def flexWakeupClusters (rowMask colMask : Nat) : Nat := u32 (colMask <<< 16) ||| rowMask

/-- The row and the column mask the register takes from it. -/
def wakeupMasks (value : Nat) : Nat × Nat := (u8 (value &&& 0xFFFF), u8 (value >>> 16))

/-- The register passes the masks on. -/
theorem wakeupMasks_flexWakeupClusters {rowMask colMask : Nat} (row_lt : rowMask < 2 ^ 8)
    (col_lt : colMask < 2 ^ 8) :
    wakeupMasks (flexWakeupClusters rowMask colMask) = (rowMask, colMask) := by
  have shifted : colMask <<< 16 < 2 ^ 32 := by
    rw [Nat.shiftLeft_eq]
    omega
  have value : flexWakeupClusters rowMask colMask = colMask * 2 ^ 16 + rowMask := by
    unfold flexWakeupClusters
    rw [u32_of_lt shifted, ← Nat.shiftLeft_add_eq_or_of_lt (row_lt.trans (by omega)),
      Nat.shiftLeft_eq]
  have low : (colMask * 2 ^ 16 + rowMask) &&& 0xFFFF = rowMask := by
    rw [Nat.and_two_pow_sub_one_eq_mod _ 16]
    omega
  have high : (colMask * 2 ^ 16 + rowMask) >>> 16 = colMask := by
    rw [Nat.shiftRight_eq_div_pow]
    omega
  unfold wakeupMasks
  rw [value, low, high, u8_of_lt row_lt, u8_of_lt col_lt]

namespace GroupMachine

variable {M : GroupMachine}

/-- A wakeup from `c` reaches `d`. -/
def WakesUp (c d : M.Clusters) : Prop :=
  Noc.checkTarget d.1 d.2 c.1 c.2
    (wakeupMasks (flexWakeupClusters (M.info c).wakeupRowMask (M.info c).wakeupColMask)).1
    (wakeupMasks (flexWakeupClusters (M.info c).wakeupRowMask (M.info c).wakeupColMask)).2 = true

theorem wakesUp_iff {c d : M.Clusters} : WakesUp c d ↔ M.SameGroup c d := by
  have row_lt : (M.info c).wakeupRowMask < 2 ^ 8 := by
    rw [info_eq]
    exact Nat.mod_lt _ (Nat.two_pow_pos 8)
  have col_lt : (M.info c).wakeupColMask < 2 ^ 8 := by
    rw [info_eq]
    exact Nat.mod_lt _ (Nat.two_pow_pos 8)
  unfold WakesUp
  rw [wakeupMasks_flexWakeupClusters row_lt col_lt]
  exact selects_iff

/-! ## The numbers of clusters -/

/-- The clusters of the group of `c`. -/
def members (c : M.Clusters) : Finset M.Clusters := Finset.univ.filter (M.SameGroup c)

/-- `this_grid_cluster_num` of cluster `c`. -/
def thisGridClusterNum (c : M.Clusters) : Nat :=
  u32 ((M.info c).thisGridClusterNumX * (M.info c).thisGridClusterNumY)

theorem members_eq (c : M.Clusters) :
    members c = Finset.univ.image (Group.of c).embed := by
  ext d
  have same : M.SameGroup c d ↔ Group.of d = Group.of c := by
    rw [← Group.of_eq_iff, eq_comm]
  simp only [members, Finset.mem_filter, Finset.mem_univ, true_and, Finset.mem_image, same,
    Group.exists_embed_iff]

theorem card_members (c : M.Clusters) :
    (members c).card = (Group.of c).machine.numX * (Group.of c).machine.numY := by
  rw [members_eq, Finset.card_image_of_injective _ (Group.embed_injective _), Finset.card_univ,
    Fintype.card_prod, Fintype.card_fin, Fintype.card_fin]

theorem card_columns (c : M.Clusters) :
    ((members c).image Prod.fst).card = (Group.of c).machine.numX := by
  have row : Nonempty (Fin (Group.of c).machine.numY) := ⟨⟨0, (Group.of c).machine.numY_pos⟩⟩
  have columns : (members c).image Prod.fst = Finset.univ.image (Group.of c).column := by
    have first : Prod.fst ∘ (Group.of c).embed = (Group.of c).column ∘ Prod.fst := rfl
    rw [members_eq, Finset.image_image, first, ← Finset.image_image,
      Finset.image_univ_of_surjective Prod.fst_surjective]
  rw [columns, Finset.card_image_of_injective _ (Group.column_injective _), Finset.card_univ,
    Fintype.card_fin]

theorem card_rows (c : M.Clusters) :
    ((members c).image Prod.snd).card = (Group.of c).machine.numY := by
  have column : Nonempty (Fin (Group.of c).machine.numX) := ⟨⟨0, (Group.of c).machine.numX_pos⟩⟩
  have rows : (members c).image Prod.snd = Finset.univ.image (Group.of c).row := by
    have second : Prod.snd ∘ (Group.of c).embed = (Group.of c).row ∘ Prod.snd := rfl
    rw [members_eq, Finset.image_image, second, ← Finset.image_image,
      Finset.image_univ_of_surjective Prod.snd_surjective]
  rw [rows, Finset.card_image_of_injective _ (Group.row_injective _), Finset.card_univ,
    Fintype.card_fin]

/-- The numbers are those of the columns, the rows and the clusters of the group. -/
theorem clusterNum_eq (c : M.Clusters) :
    (M.info c).thisGridClusterNumX = ((members c).image Prod.fst).card ∧
      (M.info c).thisGridClusterNumY = ((members c).image Prod.snd).card ∧
      thisGridClusterNum c = (members c).card := by
  have numX : (M.info c).thisGridClusterNumX = (Group.of c).machine.numX := by
    rw [info_eq]
    rfl
  have numY : (M.info c).thisGridClusterNumY = (Group.of c).machine.numY := by
    rw [info_eq]
    rfl
  have wide : (Group.of c).machine.numX ≤ 256 := (Nat.sub_le _ _).trans
    ((Nat.min_le_right _ _).trans M.numX_le)
  have high : (Group.of c).machine.numY ≤ 256 := (Nat.sub_le _ _).trans
    ((Nat.min_le_right _ _).trans M.numY_le)
  have few : (Group.of c).machine.numX * (Group.of c).machine.numY ≤ 256 * 256 :=
    Nat.mul_le_mul wide high
  unfold thisGridClusterNum
  rw [card_columns, card_rows, card_members, numX, numY]
  exact ⟨rfl, rfl, u32_of_lt (by omega)⟩

end GroupMachine

/-! ## All of it -/

/-- `get_pos` of a cluster number. -/
def getPos (G : Grid) (clusterId : Nat) : Nat × Nat := (clusterId % G.numX, clusterId / G.numX)

theorem getPos_clusterIndex {G : Grid} (c : Cluster G) :
    getPos G (clusterIndex G c.1 c.2) = (c.1.val, c.2.val) := by
  unfold getPos clusterIndex
  rw [Nat.mul_add_mod', Nat.mod_eq_of_lt c.1.isLt, Nat.mul_comm, Nat.mul_add_div G.numX_pos,
    Nat.div_eq_of_lt c.1.isLt, Nat.add_zero]

open GroupMachine in
/-- What `c` has computed describes its group and no other cluster. -/
structure GroupGeometry (M : GroupMachine) (L : SyncMemory) (c : M.Clusters) : Prop where
  /-- A cluster finds its position from its number. -/
  pos : getPos M.toGrid (clusterIndex M.toGrid c.1 c.2) = (c.1.val, c.2.val)
  valid : (M.info c).validGrid = true
  /-- The numbers of clusters are right. -/
  numX : (M.info c).thisGridClusterNumX = ((members c).image Prod.fst).card
  numY : (M.info c).thisGridClusterNumY = ((members c).image Prod.snd).card
  num : thisGridClusterNum c = (members c).card
  /-- The clusters of the group agree. -/
  agree : ∀ d, M.SameGroup c d →
    (M.info d).thisGridClusterNumX = (M.info c).thisGridClusterNumX ∧
      (M.info d).thisGridClusterNumY = (M.info c).thisGridClusterNumY ∧
      thisGridClusterNum d = thisGridClusterNum c ∧
      (∀ k, k.rowLevel = false → L.point d k = L.point c k) ∧
      (d.2 = c.2 → ∀ k, L.point d k = L.point c k)
  /-- Nobody else uses a word of the group, or of a row of the group. -/
  apart : ∀ d k l, ¬ (k = l ∧ M.SameGroup c d ∧ (k.rowLevel = true → c.2 = d.2)) →
    L.point c k + 4 ≤ L.point d l ∨ L.point d l + 4 ≤ L.point c k
  /-- The words are in the memories of clusters of the group. -/
  held : ∀ k, ∃ d, M.SameGroup c d ∧ (k.rowLevel = true → d.2 = c.2) ∧
    L.Holds (clusterIndex M.toGrid d.1 d.2) (L.point c k)
  apartGlobal : ∀ k (w : GlobalWord M.toGrid),
    L.point c k + 4 ≤ L.global w ∨ L.global w + 4 ≤ L.point c k
  /-- A wakeup from the group reaches the group and nobody else. -/
  wakes : ∀ d, WakesUp c d ↔ M.SameGroup c d

/-- In every cluster of every mesh. -/
theorem group_geometry (M : GroupMachine) (L : SyncMemory) (c : M.Clusters) :
    GroupGeometry M L c := by
  obtain ⟨numX, numY, num⟩ := GroupMachine.clusterNum_eq c
  have valid : (M.info c).validGrid = true := by rw [GroupMachine.info_eq]
  refine ⟨getPos_clusterIndex c, valid, numX, numY, num, ?_, fun d k l => point_apart, ?_,
    fun k w => point_apart_global w, fun d => GroupMachine.wakesUp_iff⟩
  · intro d group
    have members : GroupMachine.members d = GroupMachine.members c := by
      rw [GroupMachine.members_eq, GroupMachine.members_eq, Group.of_eq_iff.mpr group]
    obtain ⟨numX', numY', num'⟩ := GroupMachine.clusterNum_eq d
    rw [numX, numY, num, numX', numY', num', members]
    refine ⟨rfl, rfl, rfl, ?_, ?_⟩
    · intro k column
      exact (point_eq_iff.mpr ⟨rfl, group, fun row => absurd row (by simp [column])⟩).symm
    · intro row k
      exact (point_eq_iff.mpr ⟨rfl, group, fun _ => row.symm⟩).symm
  · intro k
    exact ⟨Group.home c k, Group.of_eq_iff.mp (Group.of_home c k).symm, Group.home_row, holds_point⟩

end SoftHier.Barrier
