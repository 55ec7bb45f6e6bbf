import Mathlib.Order.Monotone.Basic
import SoftHier.Systolic.Model

/-!
# The plan of the systolic product

With exact numbers a cluster loads its `n`-th pair of tiles in iteration `slot n` after its delay,
and RedMule takes it in the next one.

* `lt_countTiles_iff`: the tiles of Z of a cluster.
* `Args.Fits`: the numbers do not overflow, and the tiles fit into the memories.
* `analysis_eq`: the parameters of a cluster.
* `slot`, `index`: the iteration of a pair of tiles, and back.
* `Work`, `storeWork`, `plainWork`: what the DMA core does in an iteration.
* `dma_store`, `redmule_store`, `dma_plain`, `redmule_plain`: the programs do the work of the plan.
-/

namespace SoftHier.Systolic

open Dma (FlexPosition)

/-! ## Tiles of Z -/

section

variable {stride first tiles z w : Nat}

/-- The loop ends after all steps, or where its condition fails, which holds before. -/
theorem countTiles_spec (steps z : Nat) (fits : tiles + stride ≤ 2 ^ 32) (less : first < stride)
    (start : z = 0 ∨ ∃ w, z = w + 1 ∧ w * stride + first < tiles) :
    (z ≤ countTiles stride first tiles steps z) ∧
    (∀ w, z ≤ w → w < countTiles stride first tiles steps z → w * stride + first < tiles) ∧
    (countTiles stride first tiles steps z = z + steps ∨
      tiles ≤ countTiles stride first tiles steps z * stride + first) := by
  induction steps generalizing z with
  | zero => exact ⟨Nat.le_refl z, fun w low high => absurd high (Nat.not_lt.mpr low), .inl rfl⟩
  | succ steps ih =>
    have small : z * stride + first < 2 ^ 32 := by
      rcases start with rfl | ⟨w, rfl, before⟩
      · omega
      · rw [Nat.succ_mul]
        omega
    unfold countTiles
    rw [u32_of_lt (n := z * stride) (by omega), u32_of_lt small]
    split
    · rename_i inside
      obtain ⟨low, below, stop⟩ := ih (z + 1) (.inr ⟨z, rfl, inside⟩)
      refine ⟨Nat.le_of_succ_le low, fun w le high => ?_, ?_⟩
      · rcases Nat.eq_or_lt_of_le le with rfl | later
        · exact inside
        · exact below w later high
      · rcases stop with all | stop
        · exact .inl (all.trans (Nat.succ_add_eq_add_succ z steps))
        · exact .inr stop
    · rename_i outside
      exact ⟨Nat.le_refl z, fun w low high => absurd high (Nat.not_lt.mpr low),
        .inr (Nat.not_lt.mp outside)⟩

theorem lt_countTiles_iff (fits : tiles + stride ≤ 2 ^ 32) (less : first < stride) :
    z < countTiles stride first tiles tiles 0 ↔ z * stride + first < tiles := by
  obtain ⟨-, below, stop⟩ := countTiles_spec tiles 0 fits less (.inl rfl)
  refine ⟨below z (Nat.zero_le z), fun inside => ?_⟩
  by_contra beyond
  have more : countTiles stride first tiles tiles 0 * stride ≤ z * stride :=
    Nat.mul_le_mul_right stride (Nat.not_lt.mp beyond)
  rcases stop with all | stop
  · rw [all, Nat.zero_add] at more
    have enough : tiles ≤ tiles * stride := Nat.le_mul_of_pos_right tiles (by omega)
    omega
  · omega

/-- A cluster further in has no more tiles. -/
theorem countTiles_le (fits : tiles + stride ≤ 2 ^ 32) (less : first < stride) (le : w ≤ first) :
    countTiles stride first tiles tiles 0 ≤ countTiles stride w tiles tiles 0 := by
  by_contra more
  have inside := (lt_countTiles_iff fits less).mp (Nat.not_le.mp more)
  exact Nat.lt_irrefl _ ((lt_countTiles_iff fits (Nat.lt_of_le_of_lt le less)).mpr (by omega))

end

/-! ## Exact parameters -/

namespace Args

variable (A : Arch) (G : Args)

/-- The bytes of a tile of X. -/
def tileX : Nat := G.tileDimensionM * G.tileDimensionN * G.elemSize

/-- The bytes of a tile of Y. -/
def tileY : Nat := G.tileDimensionM * G.tileDimensionK * G.elemSize

/-- The pairs of tiles for a tile of Z. -/
def length : Nat := tilesOf G.nSize G.tileDimensionN

/-- The tiles of Z of a cluster. -/
def zTiles (pos : FlexPosition) : Nat :=
  let kTile := tilesOf G.kSize G.tileDimensionK
  let mTile := tilesOf G.mSize G.tileDimensionM
  countTiles A.numClusterX pos.x kTile kTile 0 * countTiles A.numClusterY pos.y mTile mTile 0

/-- The numbers do not overflow: the sizes, the iterations, and the tiles in the memories; a tile
of W is as large as one of X, and the elements are those of the format in which RedMule is
triggered. -/
structure Fits (stall : Nat) : Prop where
  stall_le : stall ≤ 1
  tileM_pos : 0 < G.tileDimensionM
  tileN_pos : 0 < G.tileDimensionN
  tileN_lt : G.tileDimensionN < 2 ^ 16
  elemSize_eq : G.elemSize = 2
  square : G.tileDimensionM = G.tileDimensionK
  nSize_pos : 0 < G.nSize
  nSize_lt : G.nSize + G.tileDimensionN < 2 ^ 32
  rows_le : tilesOf G.mSize G.tileDimensionM + A.numClusterY ≤ 2 ^ 32
  columns_le : tilesOf G.kSize G.tileDimensionK + A.numClusterX ≤ 2 ^ 32
  tcdm_le : 4 * G.tileX + G.tileY ≤ A.tcdmSize
  zomem_le : G.tileY ≤ A.zomemSize
  iter_lt : G.zTiles A ⟨0, 0⟩ * (G.length + stall) + A.numClusterX + A.numClusterY < 2 ^ 32
  stream_le : G.zTiles A ⟨0, 0⟩ * G.length * G.tileX ≤ A.hbmNodeAddrSpace

end Args

section

variable {A : Arch} {G : Args} {stall : Nat} {pos : FlexPosition}

theorem Args.Fits.tileK_pos (fits : G.Fits A stall) : 0 < G.tileDimensionK :=
  fits.square ▸ fits.tileM_pos

theorem Args.Fits.elemSize_pos (fits : G.Fits A stall) : 0 < G.elemSize := by
  rw [fits.elemSize_eq]
  exact Nat.two_pos

theorem Args.Fits.tileY_pos (fits : G.Fits A stall) : 0 < G.tileY :=
  Nat.mul_pos (Nat.mul_pos fits.tileM_pos fits.tileK_pos) fits.elemSize_pos

theorem Args.Fits.tileX_lt (fits : G.Fits A stall) : 4 * G.tileX + G.tileY < 2 ^ 32 :=
  Nat.lt_of_le_of_lt fits.tcdm_le A.tcdmSize_lt

/-- A tile of Y that fits in the word has fewer than 2 ^ 16 rows. -/
theorem Args.Fits.tileM_lt (fits : G.Fits A stall) : G.tileDimensionM < 2 ^ 16 := by
  have small := fits.tileX_lt
  by_contra many
  have rows : 2 ^ 16 * 2 ^ 16 ≤ G.tileDimensionM * G.tileDimensionK :=
    fits.square ▸ Nat.mul_le_mul (Nat.not_lt.mp many) (Nat.not_lt.mp many)
  have bytes : G.tileY = G.tileDimensionM * G.tileDimensionK * 2 := by
    unfold Args.tileY
    rw [fits.elemSize_eq]
  omega

theorem Args.Fits.length_pos (fits : G.Fits A stall) : 0 < G.length := by
  have dimension := fits.tileN_pos
  have size := fits.nSize_pos
  have small := fits.nSize_lt
  unfold Args.length tilesOf
  rw [u32_of_lt small, sub32_of_le (by omega) small]
  exact Nat.div_pos (by omega) dimension

theorem length_lt (fits : G.Fits A stall) : G.length + 1 < 2 ^ 32 := by
  have small := fits.nSize_lt
  have size := fits.nSize_pos
  have dimension := fits.tileN_pos
  have le := Nat.div_le_self (G.nSize + G.tileDimensionN - 1) G.tileDimensionN
  unfold Args.length tilesOf
  rw [u32_of_lt small, sub32_of_le (by omega) small]
  rcases Nat.eq_or_lt_of_le dimension with one | more
  · rw [← one, Nat.div_one]
    omega
  · have half : (G.nSize + G.tileDimensionN - 1) / G.tileDimensionN ≤
        (G.nSize + G.tileDimensionN - 1) / 2 := Nat.div_le_div_left more Nat.two_pos
    omega

/-- The clusters left of and below a cluster have no fewer tiles. -/
theorem zTiles_le (pos' : FlexPosition) (fits : G.Fits A stall) (inside : A.toDma.Inside pos)
    (hx : pos'.x ≤ pos.x) (hy : pos'.y ≤ pos.y) : G.zTiles A pos ≤ G.zTiles A pos' :=
  Nat.mul_le_mul (countTiles_le fits.columns_le inside.1 hx)
    (countTiles_le fits.rows_le inside.2 hy)

/-- A product of dimensions as the program computes it. -/
theorem tileSize_eq {m n elem : Nat} (pos : 0 < elem) (small : m * n * elem < 2 ^ 32) :
    u32 (u32 (m * n) * elem) = m * n * elem := by
  have factor : m * n ≤ m * n * elem := Nat.le_mul_of_pos_right _ pos
  rw [u32_of_lt (n := m * n) (by omega), u32_of_lt small]

/-- The iteration after the last pair of tiles of a cluster has come is no later than for the first
one. -/
theorem iter_le (fits : G.Fits A stall) (inside : A.toDma.Inside pos) :
    G.zTiles A pos * (G.length + stall) + (pos.x + pos.y) + 2 < 2 ^ 32 := by
  have le := Nat.mul_le_mul_right (G.length + stall)
    (zTiles_le ⟨0, 0⟩ fits inside (Nat.zero_le _) (Nat.zero_le _))
  have small := fits.iter_lt
  obtain ⟨hx, hy⟩ := inside
  omega

/-- The parameters of a cluster that its actions use. -/
structure Known (A : Arch) (G : Args) (pos : FlexPosition) (info : GemmSystolicInfo) : Prop where
  tileSizeByteX : info.tileSizeByteX = G.tileX
  tileSizeByteW : info.tileSizeByteW = G.tileX
  tileSizeByteY : info.tileSizeByteY = G.tileY
  redmuleX : info.redmuleX = G.tileX
  redmuleW : info.redmuleW = G.tileX
  redmuleY : info.redmuleY = G.tileY
  localX : ∀ n, info.localX n = n % 2 * (2 * G.tileX)
  localW : ∀ n, info.localW n = n % 2 * (2 * G.tileX) + G.tileX
  yOffset : info.yOffset = 4 * G.tileX
  xwTileLength : info.xwTileLength = G.length
  zTileAll : info.zTileAll = G.zTiles A pos
  systolicDelay : info.systolicDelay = pos.x + pos.y
  matrixN : info.matrixN = G.nSize
  matrixK : info.matrixK = G.kSize
  elemSize : info.elemSize = G.elemSize

theorem analysis_eq (fits : G.Fits A stall) (inside : A.toDma.Inside pos) :
    Known A G pos (analysis A G stall pos) := by
  have small := fits.tileX_lt
  have elem := fits.elemSize_pos
  have last := iter_le fits inside
  have tileW : G.tileDimensionN * G.tileDimensionK * G.elemSize = G.tileX := by
    rw [← fits.square, Nat.mul_comm G.tileDimensionN]
    rfl
  have sizeX : u32 (u32 (G.tileDimensionM * G.tileDimensionN) * G.elemSize) = G.tileX :=
    tileSize_eq elem (show G.tileX < 2 ^ 32 by omega)
  have sizeW : u32 (u32 (G.tileDimensionN * G.tileDimensionK) * G.elemSize) = G.tileX := by
    rw [tileSize_eq elem (by omega), tileW]
  have sizeY : u32 (u32 (G.tileDimensionM * G.tileDimensionK) * G.elemSize) = G.tileY :=
    tileSize_eq elem (show G.tileY < 2 ^ 32 by omega)
  have tiles : G.zTiles A pos ≤ G.zTiles A pos * (G.length + stall) :=
    Nat.le_mul_of_pos_right _ (Nat.add_pos_left fits.length_pos stall)
  have m := u16_of_lt fits.tileM_lt
  have n := u16_of_lt fits.tileN_lt
  have k : u16 G.tileDimensionK = G.tileDimensionK := fits.square ▸ m
  have elemSize := fits.elemSize_eq
  have redmuleX : u16 G.tileDimensionM * u16 G.tileDimensionN * 2 = G.tileX := by
    rw [m, n, ← elemSize]
    rfl
  have redmuleW : u16 G.tileDimensionN * u16 G.tileDimensionK * 2 = G.tileX := by
    rw [n, k, ← elemSize, tileW]
  have redmuleY : u16 G.tileDimensionM * u16 G.tileDimensionK * 2 = G.tileY := by
    rw [m, k, ← elemSize]
    rfl
  refine ⟨sizeX, sizeW, sizeY, redmuleX, redmuleW, redmuleY, fun n => ?_, fun n => ?_, ?_, rfl,
    u32_of_lt (show G.zTiles A pos < _ by omega), u32_of_lt (by omega), rfl, rfl, rfl⟩
  · unfold GemmSystolicInfo.localX analysis
    simp only [sizeW]
    split
    · rename_i even
      rw [even, Nat.zero_mul]
    · rename_i odd
      rw [Nat.mod_two_ne_zero.mp odd, Nat.one_mul]
      exact u32_of_lt (by omega)
  · unfold GemmSystolicInfo.localW analysis
    simp only [sizeX]
    split
    · rename_i even
      rw [even, Nat.zero_mul, Nat.zero_add, Nat.one_mul]
      exact u32_of_lt (by omega)
    · rename_i odd
      rw [Nat.mod_two_ne_zero.mp odd, Nat.one_mul, u32_of_lt (by omega)]
      omega
  · unfold analysis
    simp only [sizeW]
    exact u32_of_lt (by omega)

end

/-! ## Slots -/

section

variable {length n m e q r tiles : Nat}

/-- The iteration, after the delay, of a pair of tiles: a pause follows the first one of each tile
of Z. -/
def slot (length n : Nat) : Nat :=
  n / length * (length + 1) + if n % length = 0 then 0 else n % length + 1

/-- The pair of tiles of an iteration. -/
def index (length e : Nat) : Nat :=
  e / (length + 1) * length + if e % (length + 1) = 0 then 0 else e % (length + 1) - 1

theorem slot_mul_add (less : r < length) :
    slot length (q * length + r) = q * (length + 1) + if r = 0 then 0 else r + 1 := by
  unfold slot
  rw [Nat.mul_comm q length, Nat.mul_add_div (by omega), Nat.div_eq_of_lt less, Nat.add_zero,
    Nat.mul_add_mod, Nat.mod_eq_of_lt less]

theorem index_mul_add (le : r ≤ length) :
    index length (q * (length + 1) + r) = q * length + if r = 0 then 0 else r - 1 := by
  have less : r < length + 1 := Nat.lt_succ_of_le le
  unfold index
  rw [Nat.mul_comm q (length + 1), Nat.mul_add_div (Nat.succ_pos length), Nat.div_eq_of_lt less,
    Nat.add_zero, Nat.mul_add_mod, Nat.mod_eq_of_lt less]

theorem slot_lt_succ (pos : 0 < length) : slot length n < slot length (n + 1) := by
  have less := Nat.mod_lt n pos
  rw [← Nat.div_add_mod' n length, slot_mul_add less]
  rcases Nat.lt_or_eq_of_le (Nat.succ_le_of_lt less) with inside | last
  · rw [Nat.add_assoc, slot_mul_add inside, if_neg (Nat.succ_ne_zero _)]
    split <;> omega
  · have next : n / length * length + n % length + 1 = (n / length + 1) * length + 0 := by
      rw [Nat.succ_mul]
      omega
    rw [next, slot_mul_add pos, if_pos rfl, Nat.succ_mul]
    split <;> omega

theorem slot_strictMono (pos : 0 < length) : StrictMono (slot length) :=
  strictMono_nat_of_lt_succ fun _ => slot_lt_succ pos

/-- No pair of tiles comes in the pause. -/
theorem slot_mod (pos : 0 < length) : slot length n % (length + 1) ≠ 1 := by
  have less := Nat.mod_lt n pos
  rw [← Nat.div_add_mod' n length, slot_mul_add less, Nat.mul_comm, Nat.mul_add_mod]
  split
  · rw [Nat.zero_mod]
    omega
  · rw [Nat.mod_eq_of_lt (by omega)]
    omega

theorem index_slot (pos : 0 < length) : index length (slot length n) = n := by
  have less := Nat.mod_lt n pos
  have parts := Nat.div_add_mod' n length
  conv_lhs => rw [← parts, slot_mul_add less]
  split
  · rw [index_mul_add (Nat.zero_le _), if_pos rfl]
    omega
  · rw [index_mul_add (by omega), if_neg (Nat.succ_ne_zero _)]
    omega

theorem slot_index (pos : 0 < length) (busy : e % (length + 1) ≠ 1) :
    slot length (index length e) = e := by
  have less : e % (length + 1) < length + 1 := Nat.mod_lt e (Nat.succ_pos length)
  have parts := Nat.div_add_mod' e (length + 1)
  unfold index
  split
  · rw [slot_mul_add pos, if_pos rfl]
    omega
  · rw [slot_mul_add (by omega), if_neg (by omega)]
    omega

theorem slot_mul (pos : 0 < length) : slot length (q * length) = q * (length + 1) :=
  slot_mul_add pos

theorem slot_lt_iff (pos : 0 < length) :
    slot length n < tiles * (length + 1) ↔ n < tiles * length := by
  rw [← slot_mul pos]
  exact (slot_strictMono pos).lt_iff_lt

end

/-! ## The work of a cluster -/

/-- The work of the DMA core: a pair of tiles, the store of a tile of Y and the start of the next
one, or the last store. -/
inductive Work where
  | idle
  | load (n : Nat)
  | turn (st : Nat)
  | last (st : Nat)
  deriving DecidableEq, Repr

/-- What the DMA core records for its work. -/
def Work.access (A : Arch) (info : GemmSystolicInfo) (pos : FlexPosition) : Work → DmaAccess
  | .idle => { useSyncDma := false, dma1 := none, dma2 := none }
  | .load n => loadTiles A info pos n
  | .turn st =>
    { useSyncDma := true, dma1 := some (storeTile A info pos st), dma2 := some (clearTile A info) }
  | .last st => { useSyncDma := false, dma1 := some (storeTile A info pos st), dma2 := none }

/-- The work in an iteration of a cluster with `tiles` tiles of Z. -/
def storeWork (length tiles delay iter : Nat) : Work :=
  if delay ≤ iter ∧ iter < tiles * (length + 1) + delay then
    if (iter - delay) % (length + 1) = 1 then
      if (iter - delay) / (length + 1) ≠ 0 then .turn ((iter - delay) / (length + 1)) else .idle
    else .load (index length (iter - delay))
  else if iter = tiles * (length + 1) + delay + 1 then .last ((iter - delay) / (length + 1))
    else .idle

/-- The pair of tiles that RedMule takes. -/
def storeJob (length tiles delay iter : Nat) : Option Nat :=
  if delay + 1 ≤ iter ∧ iter < tiles * (length + 1) + delay + 1 then
    if (iter - delay - 1) % (length + 1) ≠ 1 then some (index length (iter - delay - 1)) else none
  else none

/-- The work in the program without stores. -/
def plainWork (length tiles delay iter : Nat) : Work :=
  if delay ≤ iter ∧ iter < tiles * length + delay then .load (iter - delay) else .idle

/-- The pair of tiles that RedMule takes in it. -/
def plainJob (length tiles delay iter : Nat) : Option Nat :=
  if delay + 1 ≤ iter ∧ iter < tiles * length + delay + 1 then some (iter - delay - 1) else none

section

variable {length tiles delay iter n st : Nat}

theorem storeWork_load_iff (pos : 0 < length) : storeWork length tiles delay iter = .load n ↔
    n < tiles * length ∧ iter = delay + slot length n := by
  unfold storeWork
  constructor
  · intro work
    split at work
    · rename_i inside
      split at work
      · split at work <;> cases work
      · rename_i busy
        obtain rfl : index length (iter - delay) = n := Work.load.inj work
        have same := slot_index pos busy
        refine ⟨(slot_lt_iff pos).mp ?_, ?_⟩ <;> omega
    · split at work <;> cases work
  · rintro ⟨less, rfl⟩
    have below := (slot_lt_iff pos).mpr less
    rw [if_pos ⟨Nat.le_add_right _ _, by omega⟩, Nat.add_sub_cancel_left, if_neg (slot_mod pos),
      index_slot pos]

theorem storeWork_turn_iff (pos : 0 < length) : storeWork length tiles delay iter = .turn st ↔
    0 < st ∧ st < tiles ∧ iter = delay + st * (length + 1) + 1 := by
  unfold storeWork
  constructor
  · intro work
    split at work
    · rename_i inside
      split at work
      · rename_i pause
        split at work
        · rename_i some
          obtain rfl : (iter - delay) / (length + 1) = st := Work.turn.inj work
          have parts := Nat.div_add_mod' (iter - delay) (length + 1)
          refine ⟨Nat.pos_of_ne_zero some, Nat.div_lt_of_lt_mul ?_, ?_⟩
          · rw [Nat.mul_comm]
            omega
          · omega
        · cases work
      · cases work
    · split at work <;> cases work
  · rintro ⟨some, less, rfl⟩
    have le := Nat.mul_le_mul_right (length + 1) (Nat.succ_le_of_lt less)
    have after : delay + st * (length + 1) + 1 - delay = (length + 1) * st + 1 := by
      rw [Nat.mul_comm]
      omega
    rw [Nat.succ_mul] at le
    rw [if_pos ⟨by omega, by omega⟩, after, Nat.mul_add_mod, Nat.mod_eq_of_lt (by omega),
      if_pos rfl, Nat.mul_add_div (Nat.succ_pos _), Nat.div_eq_of_lt (by omega), Nat.add_zero,
      if_pos (by omega)]

theorem storeWork_last_iff (pos : 0 < length) : storeWork length tiles delay iter = .last st ↔
    st = tiles ∧ iter = delay + tiles * (length + 1) + 1 := by
  unfold storeWork
  have after : tiles * (length + 1) + delay + 1 - delay = (length + 1) * tiles + 1 := by
    rw [Nat.mul_comm]
    omega
  constructor
  · intro work
    split at work
    · split at work
      · split at work <;> cases work
      · cases work
    · split at work
      · rename_i last
        obtain rfl : (iter - delay) / (length + 1) = st := Work.last.inj work
        rw [last, after, Nat.mul_add_div (Nat.succ_pos _), Nat.div_eq_of_lt (by omega),
          Nat.add_zero]
        exact ⟨rfl, by omega⟩
      · cases work
  · rintro ⟨rfl, rfl⟩
    have last : delay + st * (length + 1) + 1 = st * (length + 1) + delay + 1 := by omega
    rw [if_neg (by omega), if_pos last, last, after, Nat.mul_add_div (Nat.succ_pos _),
      Nat.div_eq_of_lt (by omega), Nat.add_zero]

theorem storeJob_eq_iff (pos : 0 < length) : storeJob length tiles delay iter = some n ↔
    n < tiles * length ∧ iter = delay + slot length n + 1 := by
  unfold storeJob
  constructor
  · intro job
    split at job
    · rename_i inside
      split at job
      · rename_i busy
        obtain rfl : index length (iter - delay - 1) = n := Option.some.inj job
        have same := slot_index pos busy
        refine ⟨(slot_lt_iff pos).mp ?_, ?_⟩ <;> omega
      · cases job
    · cases job
  · rintro ⟨less, rfl⟩
    have below := (slot_lt_iff pos).mpr less
    have after : delay + slot length n + 1 - delay - 1 = slot length n := by omega
    rw [if_pos ⟨by omega, by omega⟩, after, if_pos (slot_mod pos), index_slot pos]

theorem plainWork_eq : plainWork length tiles delay iter = .idle ∨
    ∃ n, plainWork length tiles delay iter = .load n := by
  unfold plainWork
  split
  · exact .inr ⟨_, rfl⟩
  · exact .inl rfl

theorem plainWork_load_iff : plainWork length tiles delay iter = .load n ↔
    n < tiles * length ∧ iter = delay + n := by
  unfold plainWork
  constructor
  · intro work
    split at work
    · obtain rfl : iter - delay = n := Work.load.inj work
      omega
    · cases work
  · rintro ⟨less, rfl⟩
    rw [if_pos ⟨Nat.le_add_right _ _, by omega⟩, Nat.add_sub_cancel_left]

theorem plainJob_eq_iff : plainJob length tiles delay iter = some n ↔
    n < tiles * length ∧ iter = delay + n + 1 := by
  unfold plainJob
  constructor
  · intro job
    split at job
    · obtain rfl : iter - delay - 1 = n := Option.some.inj job
      omega
    · cases job
  · rintro ⟨less, rfl⟩
    rw [if_pos ⟨by omega, by omega⟩]
    exact congrArg some (by omega)

end

/-! ## The programs do this work -/

section

variable {A : Arch} {G : Args} {pos : FlexPosition} {iter : Nat}

theorem endIter_eq {stall : Nat} (fits : G.Fits A stall) (inside : A.toDma.Inside pos)
    {info : GemmSystolicInfo} (known : Known A G pos info) :
    info.endIter (G.length + stall) = G.zTiles A pos * (G.length + stall) + (pos.x + pos.y) := by
  have last := iter_le fits inside
  unfold GemmSystolicInfo.endIter
  rw [known.zTileAll, known.systolicDelay,
    u32_of_lt (n := G.zTiles A pos * (G.length + stall)) (by omega), u32_of_lt (by omega)]

theorem xwCountOf_eq {info : GemmSystolicInfo} (known : Known A G pos info) (e : Nat) :
    xwCountOf info (e % (G.length + 1)) (e / (G.length + 1)) = index G.length e := by
  unfold xwCountOf index
  rw [known.xwTileLength]
  split
  · rename_i first
    rw [if_pos (Nat.lt_one_iff.mp first)]
    exact (Nat.add_zero _).symm
  · rename_i later
    rw [if_neg (fun zero => later (Nat.lt_one_iff.mpr zero)), Nat.add_sub_assoc (by omega)]

theorem dma_store (fits : G.Fits A 1) (inside : A.toDma.Inside pos) (iter : Nat) :
    (gemmSystolicWise A G).dma pos iter =
      (storeWork G.length (G.zTiles A pos) (pos.x + pos.y) iter).access A
        ((gemmSystolicWise A G).info pos) pos := by
  have known : Known A G pos (gemmSystolicWiseAnalysis A G pos) := analysis_eq fits inside
  have last := iter_le fits inside
  have period : u32 ((gemmSystolicWiseAnalysis A G pos).xwTileLength + 1) = G.length + 1 := by
    rw [known.xwTileLength]
    exact u32_of_lt (length_lt fits)
  show computeDmaAccess A (gemmSystolicWiseAnalysis A G pos) pos iter =
    (storeWork G.length (G.zTiles A pos) (pos.x + pos.y) iter).access A
      (gemmSystolicWiseAnalysis A G pos) pos
  unfold computeDmaAccess storeWork
  simp only [period, endIter_eq fits inside known, known.systolicDelay, xwCountOf_eq known,
    ge_iff_le]
  rw [u32_of_lt (by omega)]
  split
  · split
    · split <;> rfl
    · rfl
  · split <;> rfl

theorem redmule_store (fits : G.Fits A 1) (inside : A.toDma.Inside pos) (iter : Nat) :
    (gemmSystolicWise A G).redmule pos iter =
      (storeJob G.length (G.zTiles A pos) (pos.x + pos.y) iter).map
        (redmuleOn ((gemmSystolicWise A G).info pos)) := by
  have known : Known A G pos (gemmSystolicWiseAnalysis A G pos) := analysis_eq fits inside
  have last := iter_le fits inside
  have period : u32 ((gemmSystolicWiseAnalysis A G pos).xwTileLength + 1) = G.length + 1 := by
    rw [known.xwTileLength]
    exact u32_of_lt (length_lt fits)
  show computeRedmuleAction (gemmSystolicWiseAnalysis A G pos) iter =
    (storeJob G.length (G.zTiles A pos) (pos.x + pos.y) iter).map
      (redmuleOn (gemmSystolicWiseAnalysis A G pos))
  unfold computeRedmuleAction storeJob
  simp only [period, endIter_eq fits inside known, known.systolicDelay, xwCountOf_eq known,
    ge_iff_le]
  rw [u32_of_lt (n := pos.x + pos.y + 1) (by omega), u32_of_lt (by omega)]
  split
  · split <;> rfl
  · rfl

theorem dma_plain (fits : G.Fits A 0) (inside : A.toDma.Inside pos) (iter : Nat) :
    (NoStore.gemmSystolicWise A G).dma pos iter =
      (plainWork G.length (G.zTiles A pos) (pos.x + pos.y) iter).access A
        ((NoStore.gemmSystolicWise A G).info pos) pos := by
  have known : Known A G pos (NoStore.gemmSystolicWiseAnalysis A G pos) := analysis_eq fits inside
  have ending := endIter_eq fits inside known
  rw [Nat.add_zero G.length] at ending
  show NoStore.computeDmaAccess A (NoStore.gemmSystolicWiseAnalysis A G pos) pos iter =
    (plainWork G.length (G.zTiles A pos) (pos.x + pos.y) iter).access A
      (NoStore.gemmSystolicWiseAnalysis A G pos) pos
  unfold NoStore.computeDmaAccess plainWork
  simp only [known.xwTileLength, ending, known.systolicDelay, ge_iff_le]
  split <;> rfl

theorem redmule_plain (fits : G.Fits A 0) (inside : A.toDma.Inside pos) (iter : Nat) :
    (NoStore.gemmSystolicWise A G).redmule pos iter =
      (plainJob G.length (G.zTiles A pos) (pos.x + pos.y) iter).map
        (redmuleOn ((NoStore.gemmSystolicWise A G).info pos)) := by
  have known : Known A G pos (NoStore.gemmSystolicWiseAnalysis A G pos) := analysis_eq fits inside
  have last := iter_le fits inside
  have ending := endIter_eq fits inside known
  rw [Nat.add_zero G.length] at ending last
  show NoStore.computeRedmuleAction (NoStore.gemmSystolicWiseAnalysis A G pos) iter =
    (plainJob G.length (G.zTiles A pos) (pos.x + pos.y) iter).map
      (redmuleOn (NoStore.gemmSystolicWiseAnalysis A G pos))
  unfold NoStore.computeRedmuleAction plainJob
  simp only [known.xwTileLength, ending, known.systolicDelay, ge_iff_le]
  rw [u32_of_lt (n := pos.x + pos.y + 1) (by omega), u32_of_lt (by omega)]
  split <;> rfl

end

end SoftHier.Systolic
