import SoftHier.Systolic.Places

/-!
# The operations of the systolic product

* `Plan`: a program that does the work of a plan; `storePlan`, `plainPlan`: the two programs.
* `Doing`, `Plan.doing`: what a task of an iteration does.
* `Doing.writes_buffer`, `Doing.writes_y`, `Doing.writes_hbm`: which tasks write a place.
-/

namespace SoftHier.Systolic

open Dma (FlexPosition)
open Program

/-- A program whose clusters work as planned: the pair of tiles `n` comes in iteration `slot n`
after the delay and is multiplied in the next one; the store of a tile of Z takes place in the
second iteration of the next one. -/
structure Plan (A : Arch) (G : Args) (P : Program) where
  stall : Nat
  slot : Nat → Nat
  work : FlexPosition → Nat → Work
  job : FlexPosition → Nat → Option Nat
  fits : G.Fits A stall
  slot_strictMono : StrictMono slot
  known : ∀ pos, A.toDma.Inside pos → Known A G pos (P.info pos)
  dma_eq : ∀ pos, A.toDma.Inside pos → ∀ iter,
    P.dma pos iter = (work pos iter).access A (P.info pos) pos
  redmule_eq : ∀ pos, A.toDma.Inside pos → ∀ iter,
    P.redmule pos iter = (job pos iter).map (redmuleOn (P.info pos))
  load_iff : ∀ pos iter n, work pos iter = .load n ↔
    n < G.zTiles A pos * G.length ∧ iter = pos.x + pos.y + slot n
  job_iff : ∀ pos iter n, job pos iter = some n ↔
    n < G.zTiles A pos * G.length ∧ iter = pos.x + pos.y + slot n + 1
  turn_spec : ∀ pos iter st, work pos iter = .turn st →
    G.StoreFits A ∧ 0 < st ∧ st < G.zTiles A pos ∧ iter = pos.x + pos.y + slot (st * G.length) + 1
  last_spec : ∀ pos iter st, A.toDma.Inside pos → work pos iter = .last st →
    G.StoreFits A ∧ 0 < st ∧ st = G.zTiles A pos ∧ iter = pos.x + pos.y + slot (st * G.length) + 1

section

variable {A : Arch} {G : Args}

/-- The program with stores, where all places fit. -/
def storePlan (fits : G.Fits A 1) (stores : G.StoreFits A) : Plan A G (gemmSystolicWise A G) where
  stall := 1
  slot := slot G.length
  work pos := storeWork G.length (G.zTiles A pos) (pos.x + pos.y)
  job pos := storeJob G.length (G.zTiles A pos) (pos.x + pos.y)
  fits := fits
  slot_strictMono := slot_strictMono fits.length_pos
  known _ := analysis_eq fits
  dma_eq _ := dma_store fits
  redmule_eq _ := redmule_store fits
  load_iff _ _ _ := storeWork_load_iff fits.length_pos
  job_iff _ _ _ := storeJob_eq_iff fits.length_pos
  turn_spec pos iter st work := by
    obtain ⟨some, less, at'⟩ := (storeWork_turn_iff fits.length_pos).mp work
    exact ⟨stores, some, less, by rw [slot_mul fits.length_pos, at']⟩
  last_spec pos iter st inside work := by
    obtain ⟨last, at'⟩ := (storeWork_last_iff fits.length_pos).mp work
    exact ⟨stores, last ▸ stores.zTiles_pos pos inside,
      last, by rw [slot_mul fits.length_pos, at', last]⟩

/-- The program without stores. -/
def plainPlan (fits : G.Fits A 0) : Plan A G (NoStore.gemmSystolicWise A G) where
  stall := 0
  slot := id
  work pos := plainWork G.length (G.zTiles A pos) (pos.x + pos.y)
  job pos := plainJob G.length (G.zTiles A pos) (pos.x + pos.y)
  fits := fits
  slot_strictMono := strictMono_id
  known _ := analysis_eq fits
  dma_eq _ := dma_plain fits
  redmule_eq _ := redmule_plain fits
  load_iff _ _ _ := plainWork_load_iff
  job_iff _ _ _ := plainJob_eq_iff
  turn_spec pos iter st work := by
    unfold plainWork at work
    split at work <;> cases work
  last_spec pos iter st _ work := by
    unfold plainWork at work
    split at work <;> cases work

end

/-! ## What a task does -/

section

variable {A : Arch} {G : Args} {P : Program} (plan : Plan A G P) {β : Type*} (K : Kernel β)

/-- The job of a pair of tiles. -/
def Program.jobOf (P : Program) (pos : FlexPosition) (n : Nat) : MemOp Place β :=
  P.jobOp K pos (redmuleOn (P.info pos) n)

/-- The task and its operation: a byte of a tile of X or W comes, a byte of a tile of Y is stored or
cleared, or a job. -/
inductive Doing (iter : Nat) : Task → MemOp Place β → Prop where
  | loadX {pos : FlexPosition} {n k : Nat} (work : plan.work pos iter = .load n)
    (less : k < G.tileX) :
      Doing iter ⟨pos, .dma1, k⟩ (copyByte (G.sourceX A pos n k) (.l1 pos (G.bufX n + k)))
  | loadW {pos : FlexPosition} {n k : Nat} (work : plan.work pos iter = .load n)
    (less : k < G.tileX) :
      Doing iter ⟨pos, .dma2, k⟩ (copyByte (G.sourceW A pos n k) (.l1 pos (G.bufX n + G.tileX + k)))
  | store {pos : FlexPosition} {st k : Nat}
      (work : plan.work pos iter = .turn st ∨ plan.work pos iter = .last st) (less : k < G.tileY) :
      Doing iter ⟨pos, .dma1, k⟩ (copyByte (.l1 pos (4 * G.tileX + k)) (G.result A pos (st - 1) k))
  | clear {pos : FlexPosition} {st k : Nat} (work : plan.work pos iter = .turn st)
    (less : k < G.tileY) :
      Doing iter ⟨pos, .dma2, k⟩ (copyByte (.zomem pos k) (.l1 pos (4 * G.tileX + k)))
  | job {pos : FlexPosition} {n : Nat} (some : plan.job pos iter = some n) :
      Doing iter ⟨pos, .redmule, 0⟩ (P.jobOf K pos n)

variable {K} {pos : FlexPosition} {iter n k st : Nat}

theorem Plan.tile_lt (plan : Plan A G P) : 4 * G.tileX + G.tileY ≤ A.tcdmSize := plan.fits.tcdm_le

theorem bufX_le (G : Args) (n : Nat) : G.bufX n ≤ 2 * G.tileX := by
  unfold Args.bufX
  rcases Nat.mod_two_eq_zero_or_one n with even | odd
  · rw [even, Nat.zero_mul]
    exact Nat.zero_le _
  · rw [odd, Nat.one_mul]

/-- Where the addresses of a pair of tiles lead. -/
theorem Plan.place_sourceX (plan : Plan A G P) (inside : A.toDma.Inside pos)
    (hn : n < G.zTiles A pos * G.length) (hk : k < G.tileX) :
    A.place pos ((if pos.x = 0 then u32 (A.hbmWest pos.y 0 + u32 (n * (P.info pos).tileSizeByteX))
      else A.remotePos (A.leftPos pos) ((P.info pos).localX n)) + k) = G.sourceX A pos n k := by
  have known := plan.known pos inside
  have small := plan.tile_lt
  have buffer := bufX_le G n
  have below := stream_lt plan.fits inside hn hk
  have node := plan.fits.stream_le
  unfold Args.sourceX
  split
  · have high := westBase_le inside pos.x
    have last := southBase_lt inside
    rw [known.tileSizeByteX, hbmWest_eq inside, u32_of_lt (n := n * G.tileX) (by omega),
      u32_of_lt (by omega), Arch.place_hbm (by unfold Arch.westBase; omega)]
    rfl
  · rename_i inner
    have left : A.toDma.Inside ⟨pos.x - 1, pos.y⟩ :=
      ⟨Nat.lt_of_le_of_lt (Nat.sub_le _ _) inside.1, inside.2⟩
    rw [known.localX, leftPos_eq inside inner]
    exact Arch.place_remote left (show G.bufX n + k < A.tcdmSize by omega)

theorem Plan.place_sourceW (plan : Plan A G P) (inside : A.toDma.Inside pos)
    (hn : n < G.zTiles A pos * G.length) (hk : k < G.tileX) :
    A.place pos ((if pos.y = 0 then u32 (A.hbmSouth pos.x 0 + u32 (n * (P.info pos).tileSizeByteW))
      else A.remotePos (A.bottomPos pos) ((P.info pos).localW n)) + k) = G.sourceW A pos n k := by
  have known := plan.known pos inside
  have small := plan.tile_lt
  have buffer := bufX_le G n
  have below := stream_lt plan.fits inside hn hk
  have node := plan.fits.stream_le
  unfold Args.sourceW
  split
  · have last := southBase_lt inside
    rw [known.tileSizeByteW, hbmSouth_eq inside, u32_of_lt (n := n * G.tileX) (by omega),
      u32_of_lt (by omega), Arch.place_hbm (by unfold Arch.southBase; omega)]
    rfl
  · rename_i inner
    have bottom : A.toDma.Inside ⟨pos.x, pos.y - 1⟩ :=
      ⟨inside.1, Nat.lt_of_le_of_lt (Nat.sub_le _ _) inside.2⟩
    rw [known.localW, bottomPos_eq inside inner]
    exact Arch.place_remote bottom (show G.bufX n + G.tileX + k < A.tcdmSize by omega)

/-- Where the addresses of a store lead. -/
theorem Plan.place_result (plan : Plan A G P) (inside : A.toDma.Inside pos) (stores : G.StoreFits A)
    (some : 0 < st) (le : st ≤ G.zTiles A pos) (hk : k < G.tileY) :
    A.place pos ((storeTile A (P.info pos) pos st).dst + k) = G.result A pos (st - 1) k := by
  have known := plan.known pos inside
  have below := result_lt plan.fits inside (show st - 1 < G.zTiles A pos by omega) hk
  have node := stores.results_le
  have last := southBase_lt inside
  have iterations := iter_le plan.fits inside
  have length := plan.fits.length_pos
  have matrix := stores.matrix_lt
  have tiles : G.zTiles A pos ≤ G.zTiles A pos * (G.length + plan.stall) :=
    Nat.le_mul_of_pos_right _ (Nat.add_pos_left length _)
  have count : sub32 st 1 = st - 1 := sub32_of_le some (by omega)
  have factor : G.nSize * G.kSize ≤ G.nSize * G.kSize * G.elemSize :=
    Nat.le_mul_of_pos_right _ plan.fits.elemSize_pos
  have size := plan.fits.tileY_pos
  have tile : (st - 1) * A.numClusterY ≤ (st - 1) * A.numClusterY * G.tileY :=
    Nat.le_mul_of_pos_right _ size
  have sum : ((st - 1) * A.numClusterY + pos.y) * G.tileY =
      (st - 1) * A.numClusterY * G.tileY + pos.y * G.tileY := Nat.add_mul _ _ _
  have exact' : (storeTile A (P.info pos) pos st).dst =
      A.southBase pos.x + G.matrixBytes A + ((st - 1) * A.numClusterY + pos.y) * G.tileY := by
    unfold storeTile Args.matrixBytes
    rw [known.matrixN, known.matrixK, known.elemSize, known.tileSizeByteY, hbmSouth_eq inside,
      count, u32_of_lt (n := G.nSize * G.kSize) (by omega),
      u32_of_lt (n := G.nSize * G.kSize * G.elemSize) matrix,
      u32_of_lt (n := (st - 1) * A.numClusterY) (by omega),
      u32_of_lt (n := (st - 1) * A.numClusterY * G.tileY) (by omega),
      u32_of_lt (n := pos.y * G.tileY) (by omega), sum, ← Nat.add_assoc]
    exact u32_of_lt (show A.southBase pos.x + G.matrixBytes A + (st - 1) * A.numClusterY * G.tileY +
      pos.y * G.tileY < 2 ^ 32 by omega)
  rw [exact', Arch.place_hbm (by unfold Arch.southBase; omega)]
  rfl

theorem Plan.place_y (plan : Plan A G P) (inside : A.toDma.Inside pos) (hk : k < G.tileY) :
    A.place pos (A.localAddr (P.info pos).yOffset + k) = .l1 pos (4 * G.tileX + k) := by
  have small := plan.tile_lt
  rw [(plan.known pos inside).yOffset]
  exact Arch.place_local (by omega)

/-- A task of an iteration, and what it does. -/
theorem Plan.doing (plan : Plan A G P) {t : Task} (busy : P.Busy A iter t) :
    Doing plan K iter t (P.op A K iter t) := by
  obtain ⟨pos, engine, byte⟩ := t
  obtain ⟨inside, enabled⟩ := busy
  have known := plan.known pos inside
  have small := plan.tile_lt
  have access := plan.dma_eq pos inside iter
  cases engine with
  | dma1 =>
    obtain ⟨c, some, less⟩ := enabled
    have first : (P.dma pos iter).dma1 = .some c := some
    have op : P.op A K iter ⟨pos, .dma1, byte⟩ =
        copyByte (A.place pos (c.src + byte)) (A.place pos (c.dst + byte)) := by
      show (((P.dma pos iter).dma1.map _).getD nop : MemOp Place β) = _
      rw [first]
      rfl
    rw [op]
    cases work : plan.work pos iter with
    | idle =>
      rw [access, work] at first
      cases first
    | load n =>
      rw [access, work] at first
      obtain rfl := Option.some.inj first
      obtain ⟨hn, -⟩ := (plan.load_iff pos iter n).mp work
      have buffer := bufX_le G n
      have less' : byte < G.tileX := known.tileSizeByteX ▸ less
      have dst : A.place pos (A.localAddr ((P.info pos).localX n) + byte) =
          .l1 pos (G.bufX n + byte) := by
        rw [known.localX]
        exact Arch.place_local (show G.bufX n + byte < A.tcdmSize by omega)
      simp only [dst, plan.place_sourceX inside hn less']
      exact .loadX work less'
    | turn st =>
      rw [access, work] at first
      obtain rfl := Option.some.inj first
      obtain ⟨stores, some, below, -⟩ := plan.turn_spec pos iter st work
      have less' : byte < G.tileY := known.tileSizeByteY ▸ less
      rw [plan.place_result inside stores some (Nat.le_of_lt below) less']
      simp only [storeTile, plan.place_y inside less']
      exact .store (.inl work) less'
    | last st =>
      rw [access, work] at first
      obtain rfl := Option.some.inj first
      obtain ⟨stores, some, rfl, -⟩ := plan.last_spec pos iter st inside work
      have less' : byte < G.tileY := known.tileSizeByteY ▸ less
      rw [plan.place_result inside stores some (Nat.le_refl _) less']
      simp only [storeTile, plan.place_y inside less']
      exact .store (.inr work) less'
  | dma2 =>
    obtain ⟨c, some, less⟩ := enabled
    have second : (P.dma pos iter).dma2 = .some c := some
    have op : P.op A K iter ⟨pos, .dma2, byte⟩ =
        copyByte (A.place pos (c.src + byte)) (A.place pos (c.dst + byte)) := by
      show (((P.dma pos iter).dma2.map _).getD nop : MemOp Place β) = _
      rw [second]
      rfl
    rw [op]
    cases work : plan.work pos iter with
    | idle =>
      rw [access, work] at second
      cases second
    | load n =>
      rw [access, work] at second
      obtain rfl := Option.some.inj second
      obtain ⟨hn, -⟩ := (plan.load_iff pos iter n).mp work
      have buffer := bufX_le G n
      have less' : byte < G.tileX := known.tileSizeByteW ▸ less
      have dst : A.place pos (A.localAddr ((P.info pos).localW n) + byte) =
          .l1 pos (G.bufX n + G.tileX + byte) := by
        rw [known.localW]
        exact Arch.place_local (show G.bufX n + G.tileX + byte < A.tcdmSize by omega)
      simp only [dst, plan.place_sourceW inside hn less']
      exact .loadW work less'
    | turn st =>
      rw [access, work] at second
      obtain rfl := Option.some.inj second
      have less' : byte < G.tileY := known.tileSizeByteY ▸ less
      have zero : byte < A.zomemSize := Nat.lt_of_lt_of_le less' plan.fits.zomem_le
      simp only [clearTile, plan.place_y inside less', Arch.place_zomem zero]
      exact .clear work less'
    | last st =>
      rw [access, work] at second
      cases second
  | redmule =>
    obtain ⟨enabled, rfl⟩ := enabled
    have redmule := plan.redmule_eq pos inside iter
    cases job : plan.job pos iter with
    | none =>
      rw [redmule, job] at enabled
      cases enabled
    | some n =>
      have op : P.op A K iter ⟨pos, .redmule, 0⟩ = P.jobOf K pos n := by
        show (((P.redmule pos iter).map _).getD nop : MemOp Place β) = _
        rw [redmule, job]
        rfl
      rw [op]
      exact .job job

/-- What is done is a task of the iteration. -/
theorem Doing.busy {plan : Plan A G P} {t : Task} {op : MemOp Place β}
    (doing : Doing plan K iter t op) (inside : A.toDma.Inside t.pos) : P.Busy A iter t := by
  have known := plan.known t.pos inside
  have access := plan.dma_eq t.pos inside iter
  refine ⟨inside, ?_⟩
  cases doing with
  | loadX work less =>
    rw [work] at access
    exact ⟨_, congrArg DmaAccess.dma1 access, Nat.lt_of_lt_of_eq less known.tileSizeByteX.symm⟩
  | loadW work less =>
    rw [work] at access
    exact ⟨_, congrArg DmaAccess.dma2 access, Nat.lt_of_lt_of_eq less known.tileSizeByteW.symm⟩
  | store work less =>
    rcases work with work | work
    all_goals
      rw [work] at access
      exact ⟨_, congrArg DmaAccess.dma1 access, Nat.lt_of_lt_of_eq less known.tileSizeByteY.symm⟩
  | clear work less =>
    rw [work] at access
    exact ⟨_, congrArg DmaAccess.dma2 access, Nat.lt_of_lt_of_eq less known.tileSizeByteY.symm⟩
  | job some =>
    have redmule := plan.redmule_eq _ inside iter
    rw [some] at redmule
    exact ⟨congrArg Option.isSome redmule, rfl⟩

/-- A task does one thing. -/
theorem Doing.op_eq {plan : Plan A G P} {t : Task} {op : MemOp Place β}
    (doing : Doing plan K iter t op) (inside : A.toDma.Inside t.pos) : P.op A K iter t = op := by
  have other := plan.doing (K := K) (doing.busy inside)
  generalize P.op A K iter t = op' at other
  cases doing with
  | loadX work less =>
    cases other with
    | loadX work' _ => rw [Work.load.inj (work.symm.trans work')]
    | store work' _ => rcases work' with work' | work' <;> cases work.symm.trans work'
  | loadW work less =>
    cases other with
    | loadW work' _ => rw [Work.load.inj (work.symm.trans work')]
    | clear work' _ => cases work.symm.trans work'
  | store work less =>
    cases other with
    | loadX work' _ => rcases work with work | work <;> cases work'.symm.trans work
    | store work' _ =>
      rcases work with work | work
      all_goals
        rcases work' with work' | work' <;> cases work.symm.trans work'
        rfl
  | clear work less =>
    cases other with
    | loadW work' _ => cases work'.symm.trans work
    | clear _ _ => rfl
  | job some =>
    cases other with
    | job some' => rw [Option.some.inj (some.symm.trans some')]

end

end SoftHier.Systolic
