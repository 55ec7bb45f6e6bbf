import Mathlib.Tactic.IntervalCases
import SoftHier.Barrier.Group
import SoftHier.Barrier.Local

/-!
# The map of the groups

The groups are rectangles of the mesh, smaller at its far borders when the dimensions do not divide
those of the mesh.

* `side_eq`: what a cluster computes about one dimension of its group; `info_eq`: about both.
* `and_mask_eq_iff`, `selects_iff`: the masks select exactly the group.
* `Group`: a rectangle, with `Group.machine`, the mesh of its clusters, and `Group.embed`.
* `Group.info_embed`: the words and numbers the clusters of a group use.
-/

namespace SoftHier.Barrier

/-! ## One dimension -/

/-- What `grid_sync_group_init` computes about one dimension, in plain arithmetic. -/
theorem side_eq {n dim pos a : Nat} (inside : pos < n) (small : n ≤ 256) (pow : dim = 2 ^ a)
    (low : a < 32) :
    u32 (pos / dim * dim) = pos / dim * dim ∧
      (if sub32 (u32 (u32 (pos / dim + 1) * dim)) 1 ≥ n then n - 1
        else sub32 (u32 (u32 (pos / dim + 1) * dim)) 1) = min ((pos / dim + 1) * dim) n - 1 ∧
      sub32 (u32 (min ((pos / dim + 1) * dim) n - 1 + 1)) (pos / dim * dim) =
        min ((pos / dim + 1) * dim) n - pos / dim * dim ∧
      u32 (pos / dim * dim + (min ((pos / dim + 1) * dim) n - 1)) =
        pos / dim * dim + (min ((pos / dim + 1) * dim) n - 1) := by
  have pos' : 0 < dim := pow ▸ Nat.two_pow_pos a
  have large : dim ≤ 2 ^ 31 := pow ▸ Nat.pow_le_pow_right Nat.two_pos (Nat.le_of_lt_succ low)
  have below := Nat.div_mul_le_self pos dim
  have above : pos < pos / dim * dim + dim := Nat.lt_div_mul_add pos'
  have quotient : pos / dim ≤ pos := Nat.div_le_self pos dim
  have next : (pos / dim + 1) * dim = pos / dim * dim + dim := Nat.succ_mul _ _
  have id : u32 (pos / dim + 1) = pos / dim + 1 := u32_of_lt (by omega)
  have far : u32 ((pos / dim + 1) * dim) = (pos / dim + 1) * dim := u32_of_lt (by omega)
  have last : sub32 ((pos / dim + 1) * dim) 1 = (pos / dim + 1) * dim - 1 :=
    sub32_of_le (by omega) (by omega)
  refine ⟨u32_of_lt (by omega), ?_, ?_, u32_of_lt (by omega)⟩
  · rw [id, far, last]
    split <;> omega
  · rw [u32_of_lt (by omega), sub32_of_le (by omega) (by omega)]
    omega

/-- The masks keep the bits that number the groups. -/
theorem and_mask_eq_iff {x y a : Nat} (x_lt : x < 2 ^ 8) (y_lt : y < 2 ^ 8) (low : a < 32) :
    x &&& u8 (2 ^ 32 - 1 - (2 ^ a - 1)) = y &&& u8 (2 ^ 32 - 1 - (2 ^ a - 1)) ↔
      x / 2 ^ a = y / 2 ^ a := by
  rcases Nat.lt_or_ge a 8 with few | many
  · have mask : u8 (2 ^ 32 - 1 - (2 ^ a - 1)) = 2 ^ 8 - 2 ^ a := by
      interval_cases a <;> rfl
    rw [mask, and_two_pow_sub_two_pow few.le x_lt, and_two_pow_sub_two_pow few.le y_lt]
    have splitX := Nat.div_add_mod x (2 ^ a)
    have splitY := Nat.div_add_mod y (2 ^ a)
    constructor
    · intro same
      apply Nat.eq_of_mul_eq_mul_left (Nat.two_pow_pos a)
      omega
    · intro same
      rw [same] at splitX
      omega
  · -- one group on this side
    have mask : u8 (2 ^ 32 - 1 - (2 ^ a - 1)) = 0 := by
      interval_cases a <;> rfl
    have wide : 2 ^ 8 ≤ 2 ^ a := Nat.pow_le_pow_right Nat.two_pos many
    rw [mask, Nat.and_zero, Nat.and_zero, Nat.div_eq_of_lt (x_lt.trans_le wide),
      Nat.div_eq_of_lt (y_lt.trans_le wide)]

/-! ## Both dimensions -/

namespace GroupMachine

variable {M : GroupMachine}

theorem gridXDim_pos (M : GroupMachine) : 0 < M.gridXDim := by
  obtain ⟨a, -, pow⟩ := M.gridXDim_pow
  exact pow ▸ Nat.two_pow_pos a

theorem gridYDim_pos (M : GroupMachine) : 0 < M.gridYDim := by
  obtain ⟨a, -, pow⟩ := M.gridYDim_pow
  exact pow ▸ Nat.two_pow_pos a

theorem isPowerOfTwo_pow (a : Nat) : isPowerOfTwo (2 ^ a) = true := by
  unfold isPowerOfTwo
  rw [Nat.and_two_pow_sub_one_eq_mod, Nat.mod_self]
  rfl

/-- What a cluster has computed. -/
theorem info_eq (c : M.Clusters) : M.info c =
    { validGrid := true
      thisGridIdX := c.1 / M.gridXDim
      thisGridIdY := c.2 / M.gridYDim
      thisGridLeftMost := c.1 / M.gridXDim * M.gridXDim
      thisGridRightMost := min ((c.1 / M.gridXDim + 1) * M.gridXDim) M.numX - 1
      thisGridTopMost := min ((c.2 / M.gridYDim + 1) * M.gridYDim) M.numY - 1
      thisGridBottomMost := c.2 / M.gridYDim * M.gridYDim
      thisGridClusterNumX := min ((c.1 / M.gridXDim + 1) * M.gridXDim) M.numX -
        c.1 / M.gridXDim * M.gridXDim
      thisGridClusterNumY := min ((c.2 / M.gridYDim + 1) * M.gridYDim) M.numY -
        c.2 / M.gridYDim * M.gridYDim
      wakeupRowMask := u8 (2 ^ 32 - 1 - (M.gridXDim - 1))
      wakeupColMask := u8 (2 ^ 32 - 1 - (M.gridYDim - 1))
      syncXCluster := (c.1 / M.gridXDim * M.gridXDim +
        (min ((c.1 / M.gridXDim + 1) * M.gridXDim) M.numX - 1)) / 2
      syncYCluster := (c.2 / M.gridYDim * M.gridYDim +
        (min ((c.2 / M.gridYDim + 1) * M.gridYDim) M.numY - 1)) / 2 } := by
  obtain ⟨a, lowX, powX⟩ := M.gridXDim_pow
  obtain ⟨b, lowY, powY⟩ := M.gridYDim_pow
  have some : ¬ (M.gridXDim = 0 ∨ M.gridYDim = 0) := by
    have x := M.gridXDim_pos
    have y := M.gridYDim_pos
    omega
  have pow : ¬ (!(isPowerOfTwo M.gridXDim && isPowerOfTwo M.gridYDim)) = true := by
    rw [powX, powY, isPowerOfTwo_pow, isPowerOfTwo_pow]
    exact nofun
  obtain ⟨left, right, numX, sumX⟩ := side_eq c.1.isLt M.numX_le powX lowX
  obtain ⟨bottom, top, numY, sumY⟩ := side_eq c.2.isLt M.numY_le powY lowY
  unfold info gridSyncGroupInit
  rw [if_neg some, if_neg pow]
  simp only [left, right, numX, sumX, bottom, top, numY, sumY]

theorem sameGroup_iff {c d : M.Clusters} : M.SameGroup c d ↔
    c.1 / M.gridXDim = d.1 / M.gridXDim ∧ c.2 / M.gridYDim = d.2 / M.gridYDim := by
  unfold SameGroup
  rw [info_eq c, info_eq d]

/-- A wakeup reaches the group of its sender and nobody else. -/
theorem selects_iff {c d : M.Clusters} : M.Selects c d ↔ M.SameGroup c d := by
  obtain ⟨a, lowX, powX⟩ := M.gridXDim_pow
  obtain ⟨b, lowY, powY⟩ := M.gridYDim_pow
  have x : ∀ e : M.Clusters, e.1.val < 2 ^ 8 := fun e => e.1.isLt.trans_le M.numX_le
  have y : ∀ e : M.Clusters, e.2.val < 2 ^ 8 := fun e => e.2.isLt.trans_le M.numY_le
  unfold Selects Noc.checkTarget
  rw [sameGroup_iff, info_eq c, Bool.and_eq_true, decide_eq_true_iff, decide_eq_true_iff, powX,
    powY, and_mask_eq_iff (x c) (x d) lowX, and_mask_eq_iff (y c) (y d) lowY]

end GroupMachine

/-! ## Groups -/

/-- The numbers of a group. -/
structure Group (M : GroupMachine) where
  x : Nat
  y : Nat
  x_lt : x * M.gridXDim < M.numX
  y_lt : y * M.gridYDim < M.numY

namespace Group

variable {M : GroupMachine} (g : Group M)

/-- The mesh of the clusters of the group. -/
def grid : Grid where
  numX := min ((g.x + 1) * M.gridXDim) M.numX - g.x * M.gridXDim
  numY := min ((g.y + 1) * M.gridYDim) M.numY - g.y * M.gridYDim
  numX_pos := by
    have pos := M.gridXDim_pos
    have less := g.x_lt
    rw [Nat.succ_mul]
    omega
  numY_pos := by
    have pos := M.gridYDim_pos
    have less := g.y_lt
    rw [Nat.succ_mul]
    omega
  numX_lt := by
    have less := M.numX_lt
    omega
  numY_lt := by
    have less := M.numY_lt
    omega

/-- The clusters of the group as a machine of their own. -/
abbrev machine : Machine := M.toMachine.onGrid g.grid

/-- Where a cluster of the group is in the mesh. -/
def embed (d : g.machine.Clusters) : M.Clusters :=
  (⟨g.x * M.gridXDim + d.1, by
      have less : d.1.val < min ((g.x + 1) * M.gridXDim) M.numX - g.x * M.gridXDim := d.1.isLt
      omega⟩,
    ⟨g.y * M.gridYDim + d.2, by
      have less : d.2.val < min ((g.y + 1) * M.gridYDim) M.numY - g.y * M.gridYDim := d.2.isLt
      omega⟩)

variable {g} {d d' : g.machine.Clusters}

theorem embed_injective (g : Group M) : Function.Injective g.embed := by
  intro d d' same
  have x : g.x * M.gridXDim + d.1.val = g.x * M.gridXDim + d'.1.val :=
    congrArg (fun c : M.Clusters => c.1.val) same
  have y : g.y * M.gridYDim + d.2.val = g.y * M.gridYDim + d'.2.val :=
    congrArg (fun c : M.Clusters => c.2.val) same
  exact Prod.ext (Fin.ext (Nat.add_left_cancel x)) (Fin.ext (Nat.add_left_cancel y))

/-- The numbers a cluster of the group computes are those of the group. -/
theorem embed_div (d : g.machine.Clusters) :
    (g.embed d).1.val / M.gridXDim = g.x ∧ (g.embed d).2.val / M.gridYDim = g.y := by
  have x_lt : d.1.val < min ((g.x + 1) * M.gridXDim) M.numX - g.x * M.gridXDim := d.1.isLt
  have y_lt : d.2.val < min ((g.y + 1) * M.gridYDim) M.numY - g.y * M.gridYDim := d.2.isLt
  have nextX : (g.x + 1) * M.gridXDim = g.x * M.gridXDim + M.gridXDim := Nat.succ_mul _ _
  have nextY : (g.y + 1) * M.gridYDim = g.y * M.gridYDim + M.gridYDim := Nat.succ_mul _ _
  constructor
  · apply Nat.div_eq_of_lt_le
    · exact Nat.le_add_right _ _
    · show g.x * M.gridXDim + d.1.val < _
      omega
  · apply Nat.div_eq_of_lt_le
    · exact Nat.le_add_right _ _
    · show g.y * M.gridYDim + d.2.val < _
      omega

/-- The group of a cluster. -/
def of (c : M.Clusters) : Group M where
  x := c.1 / M.gridXDim
  y := c.2 / M.gridYDim
  x_lt := (Nat.div_mul_le_self _ _).trans_lt c.1.isLt
  y_lt := (Nat.div_mul_le_self _ _).trans_lt c.2.isLt

theorem of_embed (d : g.machine.Clusters) : of (g.embed d) = g := by
  obtain ⟨x, y⟩ := embed_div d
  obtain ⟨gx, gy, x_lt, y_lt⟩ := g
  simp only [of, Group.mk.injEq]
  exact ⟨x, y⟩

/-- A cluster is in its group, and there alone. -/
theorem exists_embed_iff (g : Group M) (c : M.Clusters) : (∃ d, g.embed d = c) ↔ of c = g := by
  constructor
  · rintro ⟨d, rfl⟩
    exact of_embed d
  · rintro rfl
    have above : c.1.val < (c.1.val / M.gridXDim + 1) * M.gridXDim := by
      rw [Nat.succ_mul]
      exact Nat.lt_div_mul_add M.gridXDim_pos
    have above' : c.2.val < (c.2.val / M.gridYDim + 1) * M.gridYDim := by
      rw [Nat.succ_mul]
      exact Nat.lt_div_mul_add M.gridYDim_pos
    have below := Nat.div_mul_le_self c.1.val M.gridXDim
    have below' := Nat.div_mul_le_self c.2.val M.gridYDim
    refine ⟨(⟨c.1 - c.1 / M.gridXDim * M.gridXDim, ?_⟩,
      ⟨c.2 - c.2 / M.gridYDim * M.gridYDim, ?_⟩), ?_⟩
    · show _ < min ((c.1.val / M.gridXDim + 1) * M.gridXDim) M.numX -
        c.1.val / M.gridXDim * M.gridXDim
      omega
    · show _ < min ((c.2.val / M.gridYDim + 1) * M.gridYDim) M.numY -
        c.2.val / M.gridYDim * M.gridYDim
      omega
    · exact Prod.ext (Fin.ext (Nat.add_sub_cancel' below)) (Fin.ext (Nat.add_sub_cancel' below'))

theorem exists_embed (c : M.Clusters) : ∃ (g : Group M) (d : g.machine.Clusters), g.embed d = c :=
  ⟨of c, (exists_embed_iff (of c) c).mpr rfl⟩

theorem of_eq_iff {c d : M.Clusters} : of c = of d ↔ M.SameGroup c d := by
  rw [GroupMachine.sameGroup_iff]
  simp only [of, Group.mk.injEq]

/-- The column of the words of the group. -/
def syncX (g : Group M) : Nat :=
  (g.x * M.gridXDim + (min ((g.x + 1) * M.gridXDim) M.numX - 1)) / 2

/-- The row of the word of the second level. -/
def syncY (g : Group M) : Nat :=
  (g.y * M.gridYDim + (min ((g.y + 1) * M.gridYDim) M.numY - 1)) / 2

/-- The words and numbers the clusters of a group use. -/
theorem info_embed (d : g.machine.Clusters) :
    (M.info (g.embed d)).thisGridIdX = g.x ∧ (M.info (g.embed d)).thisGridIdY = g.y ∧
      (M.info (g.embed d)).thisGridClusterNumX = g.machine.numX ∧
      (M.info (g.embed d)).thisGridClusterNumY = g.machine.numY ∧
      (M.info (g.embed d)).syncXCluster = g.syncX ∧
        (M.info (g.embed d)).syncYCluster = g.syncY := by
  obtain ⟨x, y⟩ := embed_div d
  rw [GroupMachine.info_eq, x, y]
  exact ⟨rfl, rfl, rfl, rfl, rfl, rfl⟩

/-- The words of the group lie in the memories of its clusters. -/
theorem exists_word (g : Group M) (y : Fin g.machine.numY) :
    ∃ d : g.machine.Clusters, (g.embed d).1.val = g.syncX ∧
      (g.embed d).2.val = g.y * M.gridYDim + y := by
  have x_lt := g.x_lt
  have nextX : (g.x + 1) * M.gridXDim = g.x * M.gridXDim + M.gridXDim := Nat.succ_mul _ _
  have pos := M.gridXDim_pos
  refine ⟨(⟨g.syncX - g.x * M.gridXDim, ?_⟩, y), ?_, rfl⟩
  · show _ < min ((g.x + 1) * M.gridXDim) M.numX - g.x * M.gridXDim
    unfold syncX
    omega
  · show g.x * M.gridXDim + (g.syncX - g.x * M.gridXDim) = g.syncX
    unfold syncX
    omega

theorem exists_row (g : Group M) :
    ∃ y : Fin g.machine.numY, g.syncY = g.y * M.gridYDim + y := by
  have y_lt := g.y_lt
  have nextY : (g.y + 1) * M.gridYDim = g.y * M.gridYDim + M.gridYDim := Nat.succ_mul _ _
  have pos := M.gridYDim_pos
  refine ⟨⟨g.syncY - g.y * M.gridYDim, ?_⟩, ?_⟩
  · show _ < min ((g.y + 1) * M.gridYDim) M.numY - g.y * M.gridYDim
    unfold syncY
    omega
  · show g.syncY = g.y * M.gridYDim + (g.syncY - g.y * M.gridYDim)
    unfold syncY
    omega

end Group

end SoftHier.Barrier
