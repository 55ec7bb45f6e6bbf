import Mathlib.Data.Finite.Prod
import Mathlib.Data.Fintype.EquivFin
import SoftHier.Lib.Word

/-!
# The traffic patterns of the DMA

Each point-to-point pattern of `flex_dma_pattern.h` copies from the TCDM of one peer, whose
coordinates it computes from those of the cluster.  The addresses are `uint32_t` values.

* `Pattern.remoteAddr`: the remote address of a pattern.
* `Permutes`: the peers of all clusters are all clusters, and the addresses lie in their windows.
* `permutes_iff`: the shifts do so on every mesh, the transpose on square ones and single columns.
-/

namespace SoftHier.Dma

/-- The constants of the architecture the patterns depend on. -/
structure Arch where
  numClusterX : Nat
  numClusterY : Nat
  tcdmRemote : Nat
  tcdmSize : Nat
  numClusterX_pos : 0 < numClusterX
  numClusterY_pos : 0 < numClusterY
  numClusterX_lt : numClusterX < 2 ^ 31
  numClusterY_lt : numClusterY < 2 ^ 31
  tcdmRemote_lt : tcdmRemote < 2 ^ 32
  tcdmSize_pos : 0 < tcdmSize
  tcdmSize_lt : tcdmSize < 2 ^ 32

/-- `FlexPosition` -/
structure FlexPosition where
  x : Nat
  y : Nat
  deriving DecidableEq, Repr

namespace Arch

variable (A : Arch)

/-- `ARCH_NUM_CLUSTER` -/
def numCluster : Nat := A.numClusterX * A.numClusterY

/-- `get_pos` -/
def getPos (clusterId : Nat) : FlexPosition :=
  ⟨clusterId % A.numClusterX, clusterId / A.numClusterX⟩

/-- `right_pos` -/
def rightPos (pos : FlexPosition) : FlexPosition := ⟨u32 (pos.x + 1) % A.numClusterX, pos.y⟩

/-- `left_pos` -/
def leftPos (pos : FlexPosition) : FlexPosition :=
  ⟨u32 (pos.x + A.numClusterX - 1) % A.numClusterX, pos.y⟩

/-- `bottom_pos` -/
def bottomPos (pos : FlexPosition) : FlexPosition :=
  ⟨pos.x, u32 (pos.y + A.numClusterY - 1) % A.numClusterY⟩

/-- `cluster_index` -/
def clusterIndex (x y : Nat) : Nat := u32 (u32 (y * A.numClusterX) + x)

/-- `remote_xy` -/
def remoteXy (x y offset : Nat) : Nat :=
  u32 (u32 (A.tcdmRemote + u32 (A.clusterIndex x y * A.tcdmSize)) + offset)

/-- `remote_pos` -/
def remotePos (pos : FlexPosition) (offset : Nat) : Nat := A.remoteXy pos.x pos.y offset

/-- Where the generator maps the TCDM of a cluster. -/
def tcdmWindow (clusterId : Nat) : Nat := A.tcdmRemote + clusterId * A.tcdmSize

end Arch

/-- The point-to-point patterns. -/
inductive Pattern where
  | roundShiftRight
  | roundShiftLeft
  | roundShiftUp
  | dialogToDialog
  deriving DecidableEq, Repr

/-- The coordinates a pattern turns those of the cluster into. -/
def Pattern.peer (A : Arch) : Pattern → FlexPosition → FlexPosition
  | .roundShiftRight, pos => A.leftPos pos
  | .roundShiftLeft, pos => A.rightPos pos
  | .roundShiftUp, pos => A.bottomPos pos
  | .dialogToDialog, pos => ⟨pos.y, pos.x⟩

/-- The remote address in a call of `flex_dma_async_pattern_` with the pattern. -/
def Pattern.remoteAddr (A : Arch) (p : Pattern) (clusterId remoteOffset : Nat) : Nat :=
  A.remotePos (p.peer A (A.getPos clusterId)) remoteOffset

/-- Every cluster is the peer of one cluster, and the addresses lie in the windows of the peers. -/
def Permutes (A : Arch) (p : Pattern) : Prop :=
  ∃ peer : Fin A.numCluster → Fin A.numCluster, Function.Bijective peer ∧
    ∀ c, ∀ offset < A.tcdmSize, A.tcdmWindow (peer c) ≤ p.remoteAddr A c offset ∧
      p.remoteAddr A c offset < A.tcdmWindow (peer c) + A.tcdmSize

/-! ## Coordinates -/

variable {A : Arch} {p : Pattern} {pos pos' : FlexPosition} {c offset : Nat}

/-- A position of the mesh. -/
def Arch.Inside (A : Arch) (pos : FlexPosition) : Prop :=
  pos.x < A.numClusterX ∧ pos.y < A.numClusterY

/-- The number of a cluster, in exact arithmetic. -/
def Arch.index (A : Arch) (pos : FlexPosition) : Nat := pos.y * A.numClusterX + pos.x

theorem getPos_inside (hc : c < A.numCluster) : A.Inside (A.getPos c) :=
  ⟨Nat.mod_lt _ A.numClusterX_pos, Nat.div_lt_of_lt_mul hc⟩

theorem index_getPos (c : Nat) : A.index (A.getPos c) = c := Nat.div_add_mod' c A.numClusterX

theorem index_lt (inside : A.Inside pos) : A.index pos < A.numCluster := by
  have row : (pos.y + 1) * A.numClusterX ≤ A.numClusterY * A.numClusterX :=
    Nat.mul_le_mul_right _ inside.2
  have h := inside.1
  rw [Nat.succ_mul, Nat.mul_comm A.numClusterY] at row
  unfold Arch.index Arch.numCluster
  omega

theorem index_injective (inside : pos.x < A.numClusterX) (inside' : pos'.x < A.numClusterX)
    (same : A.index pos = A.index pos') : pos = pos' := by
  unfold Arch.index at same
  have row := congrArg (· / A.numClusterX) same
  have column := congrArg (· % A.numClusterX) same
  simp only [Nat.mul_comm _ A.numClusterX, Nat.mul_add_div A.numClusterX_pos,
    Nat.div_eq_of_lt inside, Nat.div_eq_of_lt inside', Nat.add_zero] at row
  simp only [Nat.mul_comm _ A.numClusterX, Nat.mul_add_mod, Nat.mod_eq_of_lt inside,
    Nat.mod_eq_of_lt inside'] at column
  cases pos
  cases pos'
  simp only [FlexPosition.mk.injEq]
  exact ⟨column, row⟩

/-- A coordinate before another one on a ring of `n`. -/
theorem ring_pred {n x : Nat} (n_lt : n < 2 ^ 31) (hx : x < n) :
    u32 (x + n - 1) % n = if x = 0 then n - 1 else x - 1 := by
  rw [u32_of_lt (by omega)]
  split
  · rename_i zero
    rw [zero, Nat.zero_add, Nat.mod_eq_of_lt (by omega)]
  · have wrap : x + n - 1 = x - 1 + n := by omega
    rw [wrap, Nat.add_mod_right, Nat.mod_eq_of_lt (by omega)]

/-- The coordinate after it. -/
theorem ring_succ {n x : Nat} (n_lt : n < 2 ^ 31) (hx : x < n) :
    u32 (x + 1) % n = if x + 1 = n then 0 else x + 1 := by
  rw [u32_of_lt (by omega)]
  split
  · rename_i last
    rw [last, Nat.mod_self]
  · exact Nat.mod_eq_of_lt (by omega)

theorem ring_pred_injective {n x y : Nat} (n_lt : n < 2 ^ 31) (hx : x < n) (hy : y < n)
    (same : u32 (x + n - 1) % n = u32 (y + n - 1) % n) : x = y := by
  rw [ring_pred n_lt hx, ring_pred n_lt hy] at same
  split at same <;> split at same <;> omega

theorem ring_succ_injective {n x y : Nat} (n_lt : n < 2 ^ 31) (hx : x < n) (hy : y < n)
    (same : u32 (x + 1) % n = u32 (y + 1) % n) : x = y := by
  rw [ring_succ n_lt hx, ring_succ n_lt hy] at same
  split at same <;> split at same <;> omega

/-! ## Shifts -/

/-- A shift leads from a position of the mesh to one of the mesh. -/
theorem shift_inside (shift : p ≠ .dialogToDialog) (inside : A.Inside pos) :
    A.Inside (p.peer A pos) := by
  cases p with
  | roundShiftRight => exact ⟨Nat.mod_lt _ A.numClusterX_pos, inside.2⟩
  | roundShiftLeft => exact ⟨Nat.mod_lt _ A.numClusterX_pos, inside.2⟩
  | roundShiftUp => exact ⟨inside.1, Nat.mod_lt _ A.numClusterY_pos⟩
  | dialogToDialog => exact absurd rfl shift

theorem shift_injective (shift : p ≠ .dialogToDialog) (inside : A.Inside pos)
    (inside' : A.Inside pos') (same : p.peer A pos = p.peer A pos') : pos = pos' := by
  obtain ⟨x, y⟩ := pos
  obtain ⟨x', y'⟩ := pos'
  cases p with
  | roundShiftRight =>
      obtain ⟨column, row⟩ := FlexPosition.mk.inj same
      exact congrArg₂ FlexPosition.mk
        (ring_pred_injective A.numClusterX_lt inside.1 inside'.1 column) row
  | roundShiftLeft =>
      obtain ⟨column, row⟩ := FlexPosition.mk.inj same
      exact congrArg₂ FlexPosition.mk
        (ring_succ_injective A.numClusterX_lt inside.1 inside'.1 column) row
  | roundShiftUp =>
      obtain ⟨column, row⟩ := FlexPosition.mk.inj same
      exact congrArg₂ FlexPosition.mk column
        (ring_pred_injective A.numClusterY_lt inside.2 inside'.2 row)
  | dialogToDialog => exact absurd rfl shift

/-! ## Addresses -/

/-- The number of the cluster whose window a pattern aims at. -/
def Pattern.peerIndex (A : Arch) (p : Pattern) (clusterId : Nat) : Nat :=
  A.index (p.peer A (A.getPos clusterId))

/-- The address, with one wrap at the end. -/
theorem remoteAddr_eq (p : Pattern) (c offset : Nat) :
    p.remoteAddr A c offset = u32 (A.tcdmWindow (p.peerIndex A c) + offset) := by
  unfold Pattern.remoteAddr Arch.remotePos Arch.remoteXy Arch.clusterIndex Arch.tcdmWindow
    Pattern.peerIndex Arch.index u32
  simp only [Nat.add_mod_mod, Nat.mod_add_mod, Nat.mod_mul_mod]

/-- All windows lie below the end of the 32-bit addresses. -/
def Arch.WindowsFit (A : Arch) : Prop := A.tcdmRemote + A.numCluster * A.tcdmSize ≤ 2 ^ 32

theorem window_le {j : Nat} (hj : j < A.numCluster) :
    A.tcdmWindow j + A.tcdmSize ≤ A.tcdmRemote + A.numCluster * A.tcdmSize := by
  have le := Nat.mul_le_mul_right A.tcdmSize (Nat.succ_le_of_lt hj)
  rw [Nat.succ_mul] at le
  unfold Arch.tcdmWindow
  omega

/-- An address lies in one window only. -/
theorem window_unique {j k a : Nat} (hj : A.tcdmWindow j ≤ a)
    (hj' : a < A.tcdmWindow j + A.tcdmSize) (hk : A.tcdmWindow k ≤ a)
    (hk' : a < A.tcdmWindow k + A.tcdmSize) : j = k := by
  unfold Arch.tcdmWindow at hj hj' hk hk'
  rcases Nat.lt_trichotomy j k with less | same | more
  · have le := Nat.mul_le_mul_right A.tcdmSize (Nat.succ_le_of_lt less)
    rw [Nat.succ_mul] at le
    omega
  · exact same
  · have le := Nat.mul_le_mul_right A.tcdmSize (Nat.succ_le_of_lt more)
    rw [Nat.succ_mul] at le
    omega

/-- A pattern whose peers are clusters, each of one cluster, permutes them. -/
theorem permutes_of_injective (fits : A.WindowsFit)
    (inside : ∀ c < A.numCluster, p.peerIndex A c < A.numCluster)
    (inj : ∀ c < A.numCluster, ∀ d < A.numCluster, p.peerIndex A c = p.peerIndex A d → c = d) :
    Permutes A p := by
  refine ⟨fun c => ⟨p.peerIndex A c, inside c c.isLt⟩,
    Finite.injective_iff_bijective.mp fun c d same => ?_, fun c offset below => ?_⟩
  · exact Fin.ext (inj c c.isLt d d.isLt (Fin.mk.inj same))
  · have bound := window_le (inside c c.isLt)
    unfold Arch.WindowsFit at fits
    rw [remoteAddr_eq, u32_of_lt (by omega)]
    exact ⟨Nat.le_add_right _ _, Nat.add_lt_add_left below _⟩

/-- The addresses of all clusters can be reached only if all windows fit. -/
theorem windowsFit_of_permutes (permutes : Permutes A p) : A.WindowsFit := by
  obtain ⟨peer, bijective, addr⟩ := permutes
  have clusters : 0 < A.numCluster := Nat.mul_pos A.numClusterX_pos A.numClusterY_pos
  have size := A.tcdmSize_pos
  have size_lt := A.tcdmSize_lt
  obtain ⟨c, last⟩ := bijective.2 ⟨A.numCluster - 1, by omega⟩
  by_contra high
  have top : 2 ^ 32 < A.tcdmWindow (A.numCluster - 1) + A.tcdmSize := by
    have split : A.numCluster * A.tcdmSize =
        (A.numCluster - 1) * A.tcdmSize + A.tcdmSize := by
      rw [← Nat.succ_mul, Nat.succ_eq_add_one, Nat.sub_add_cancel clusters]
    unfold Arch.WindowsFit at high
    unfold Arch.tcdmWindow
    omega
  -- the last address of the window cannot be reached before the addresses wrap
  have first := addr c 0 size
  have end' := addr c (A.tcdmSize - 1) (by omega)
  have wrap := addr c (2 ^ 32 - p.remoteAddr A c 0)
  rw [last] at first end' wrap
  simp only [remoteAddr_eq, u32] at first end' wrap
  omega

/-! ## The patterns -/

theorem shift_permutes (shift : p ≠ .dialogToDialog) (fits : A.WindowsFit) : Permutes A p := by
  refine permutes_of_injective fits
    (fun c hc => index_lt (shift_inside shift (getPos_inside hc))) fun c hc d hd same => ?_
  have inside := shift_inside shift (getPos_inside hc)
  have inside' := shift_inside shift (getPos_inside hd)
  have peers := index_injective inside.1 inside'.1 same
  rw [← index_getPos (A := A) c, shift_injective shift (getPos_inside hc) (getPos_inside hd) peers,
    index_getPos]

/-- On a square mesh the transpose is its own inverse, on a single column it stays. -/
theorem dialog_permutes (shape : A.numClusterX = A.numClusterY ∨ A.numClusterX = 1)
    (fits : A.WindowsFit) : Permutes A .dialogToDialog := by
  rcases shape with square | column
  · have swap : ∀ c < A.numCluster, A.Inside (Pattern.peer A .dialogToDialog (A.getPos c)) := by
      intro c hc
      obtain ⟨h1, h2⟩ := getPos_inside hc
      exact ⟨square ▸ h2, square ▸ h1⟩
    refine permutes_of_injective fits (fun c hc => index_lt (swap c hc)) fun c hc d hd same => ?_
    obtain ⟨row, line⟩ := FlexPosition.mk.inj (index_injective (swap c hc).1 (swap d hd).1 same)
    rw [← index_getPos (A := A) c, ← index_getPos (A := A) d]
    exact congrArg A.index (congrArg₂ FlexPosition.mk line row)
  · have stays : ∀ c, Pattern.peerIndex A .dialogToDialog c = c := by
      intro c
      show c % A.numClusterX * A.numClusterX + c / A.numClusterX = c
      rw [column, Nat.mod_one, Nat.div_one, Nat.zero_mul, Nat.zero_add]
    refine permutes_of_injective fits (fun c hc => ?_) fun c hc d hd same => ?_
    · rw [stays]
      exact hc
    · rwa [stays, stays] at same

/-- The cluster the transpose takes for the one at `(x, y)`. -/
theorem dialog_peerIndex {x : Nat} (hx : x < A.numClusterX) (y : Nat) :
    Pattern.peerIndex A .dialogToDialog (y * A.numClusterX + x) = x * A.numClusterX + y := by
  show (y * A.numClusterX + x) % A.numClusterX * A.numClusterX +
    (y * A.numClusterX + x) / A.numClusterX = _
  rw [Nat.mul_comm y, Nat.mul_add_mod, Nat.mod_eq_of_lt hx, Nat.mul_add_div A.numClusterX_pos,
    Nat.div_eq_of_lt hx, Nat.add_zero]

/-- Two clusters with one peer index are one cluster. -/
theorem eq_of_peerIndex {peer : Fin A.numCluster → Fin A.numCluster}
    (bijective : Function.Bijective peer)
    (addr : ∀ c, ∀ offset < A.tcdmSize, A.tcdmWindow (peer c) ≤ p.remoteAddr A c offset ∧
      p.remoteAddr A c offset < A.tcdmWindow (peer c) + A.tcdmSize)
    {c d : Fin A.numCluster} (same : p.remoteAddr A c 0 = p.remoteAddr A d 0) : c = d := by
  obtain ⟨h1, h2⟩ := addr c 0 A.tcdmSize_pos
  obtain ⟨h3, h4⟩ := addr d 0 A.tcdmSize_pos
  rw [same] at h1 h2
  exact bijective.1 (Fin.ext (window_unique h1 h2 h3 h4))

/-- With fewer columns than rows, the clusters at `(1, 0)` and `(0, X)` both take the cluster
`X`. -/
theorem dialog_flat (permutes : Permutes A .dialogToDialog) (flat : A.numClusterX < A.numClusterY) :
    A.numClusterX = 1 := by
  obtain ⟨peer, bijective, addr⟩ := permutes
  have columns := A.numClusterX_pos
  by_contra several
  have right : 1 < A.numCluster := by
    unfold Arch.numCluster
    calc 1 < A.numClusterX * 1 := by omega
      _ ≤ A.numClusterX * A.numClusterY := Nat.mul_le_mul_left _ A.numClusterY_pos
  have up : A.numClusterX * A.numClusterX < A.numCluster :=
    Nat.mul_lt_mul_of_pos_left flat columns
  have first := dialog_peerIndex (A := A) (x := 1) (by omega) 0
  have second := dialog_peerIndex (A := A) columns A.numClusterX
  rw [Nat.zero_mul, Nat.zero_add, Nat.one_mul, Nat.add_zero] at first
  rw [Nat.add_zero, Nat.zero_mul, Nat.zero_add] at second
  have same : (⟨1, right⟩ : Fin A.numCluster) = ⟨A.numClusterX * A.numClusterX, up⟩ :=
    eq_of_peerIndex bijective addr (by rw [remoteAddr_eq, remoteAddr_eq, first, second])
  have one : 1 = A.numClusterX * A.numClusterX := Fin.mk.inj same
  exact several (Nat.eq_one_of_mul_eq_one_left one.symm)

/-- With fewer rows than columns, the cluster at `(Y, 0)` takes the one behind the last. -/
theorem dialog_wide (permutes : Permutes A .dialogToDialog) : A.numClusterX ≤ A.numClusterY := by
  have fits := windowsFit_of_permutes permutes
  obtain ⟨peer, bijective, addr⟩ := permutes
  by_contra narrow
  have wide : A.numClusterY < A.numClusterX := Nat.lt_of_not_le narrow
  have rows := A.numClusterY_pos
  have inside : A.numClusterY < A.numCluster := by
    unfold Arch.numCluster
    calc A.numClusterY = 1 * A.numClusterY := (Nat.one_mul _).symm
      _ < A.numClusterX * A.numClusterY := Nat.mul_lt_mul_of_pos_right (by omega) rows
  have index := dialog_peerIndex wide 0
  rw [Nat.zero_mul, Nat.zero_add, Nat.add_zero, Nat.mul_comm] at index
  have clusters : 0 < A.numCluster := Nat.zero_lt_of_lt inside
  have bound := window_le (peer ⟨A.numClusterY, inside⟩).isLt
  obtain ⟨low, high⟩ := addr ⟨A.numClusterY, inside⟩ 0 A.tcdmSize_pos
  have place : Pattern.remoteAddr A .dialogToDialog A.numClusterY 0 =
      u32 (A.tcdmRemote + A.numCluster * A.tcdmSize) := by
    rw [remoteAddr_eq, index]
    rfl
  rcases Nat.lt_or_eq_of_le fits with short | exact
  · rw [place, u32_of_lt short] at high
    omega
  · -- or it wraps to the address of the first cluster
    have start : Pattern.remoteAddr A .dialogToDialog A.numClusterY 0 = 0 := by
      rw [place, exact]
      rfl
    rw [start] at low
    have zero : A.tcdmRemote = 0 := by
      unfold Arch.tcdmWindow at low
      omega
    have origin : Pattern.remoteAddr A .dialogToDialog 0 0 = 0 := by
      have first := dialog_peerIndex A.numClusterX_pos 0
      rw [Nat.zero_mul, Nat.zero_add] at first
      rw [remoteAddr_eq, first]
      unfold Arch.tcdmWindow
      rw [zero, Nat.zero_mul]
      rfl
    have same : (⟨A.numClusterY, inside⟩ : Fin A.numCluster) = ⟨0, clusters⟩ :=
      eq_of_peerIndex bijective addr (start.trans origin.symm)
    exact absurd (Fin.mk.inj same) (Nat.ne_of_gt rows)

/-- On other meshes the transpose leads two clusters to one place, or one out of the mesh. -/
theorem shape_of_dialog (permutes : Permutes A .dialogToDialog) :
    A.numClusterX = A.numClusterY ∨ A.numClusterX = 1 := by
  rcases Nat.lt_or_eq_of_le (dialog_wide permutes) with flat | square
  · exact Or.inr (dialog_flat permutes flat)
  · exact Or.inl square

/-- A pattern permutes the clusters exactly when all windows are below the end of the 32-bit
addresses, and the mesh is square or a single column if the pattern is the transpose. -/
theorem permutes_iff (A : Arch) (p : Pattern) :
    Permutes A p ↔ A.tcdmRemote + A.numCluster * A.tcdmSize ≤ 2 ^ 32 ∧
      (p = .dialogToDialog → A.numClusterX = A.numClusterY ∨ A.numClusterX = 1) := by
  constructor
  · intro permutes
    refine ⟨windowsFit_of_permutes permutes, ?_⟩
    rintro rfl
    exact shape_of_dialog permutes
  · rintro ⟨fits, shape⟩
    rcases Decidable.em (p = .dialogToDialog) with rfl | shift
    · exact dialog_permutes (shape rfl) fits
    · exact shift_permutes shift fits

/-- Four by two clusters with a megabyte of TCDM each. -/
def fourByTwo : Arch where
  numClusterX := 4
  numClusterY := 2
  tcdmRemote := 0x30000000
  tcdmSize := 0x00100000
  numClusterX_pos := by decide
  numClusterY_pos := Nat.two_pos
  numClusterX_lt := by decide
  numClusterY_lt := by decide
  tcdmRemote_lt := by decide
  tcdmSize_pos := by decide
  tcdmSize_lt := by decide

/-- The transpose of the last cluster is behind all windows. -/
theorem fourByTwo_transpose :
    fourByTwo.tcdmRemote + fourByTwo.numCluster * fourByTwo.tcdmSize = 0x30800000 ∧
      Pattern.remoteAddr fourByTwo .dialogToDialog 7 0 = 0x30D00000 ∧
      ¬ Permutes fourByTwo .dialogToDialog := by
  refine ⟨by decide, by decide, fun permutes => ?_⟩
  exact absurd (shape_of_dialog permutes) (by decide)

end SoftHier.Dma
