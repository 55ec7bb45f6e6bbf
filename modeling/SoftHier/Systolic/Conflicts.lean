import SoftHier.Systolic.Operations

/-!
# Conflicts in the systolic product

Between two barriers nothing orders the transfers of the DMA and the job of RedMule.

* `Doing.writes_buffer`, `Doing.writes_y`, `Doing.writes_hbm`: which tasks write a place.
* `Plan.conflict_cases`: in an iteration only the store and the start of a tile of Z conflict with
  a job.
* `conflict_iff`: the conflicts of the program with stores, exactly.
* `noStore_conflict`: the program without stores has none.
-/

namespace SoftHier.Systolic

open Dma (FlexPosition)
open Program

section

variable {A : Arch} {G : Args} {P : Program} {plan : Plan A G P} {β : Type*} {K : Kernel β}
  {pos : FlexPosition} {iter n m o : Nat} {s t : Task} {p q : MemOp Place β}

/-! ## Who writes a place -/

/-- What a job writes. -/
theorem mem_jobOf_writes (plan : Plan A G P) (inside : A.toDma.Inside pos) {a : Place} :
    a ∈ (P.jobOf K pos n).writes ↔ ∃ k < G.tileY, a = .l1 pos (4 * G.tileX + k) := by
  have known := plan.known pos inside
  show a ∈ tile pos (P.info pos).yOffset (P.info pos).redmuleY ↔ _
  rw [mem_tile, known.yOffset, known.redmuleY]

/-- What a job reads. -/
theorem mem_jobOf_reads (plan : Plan A G P) (inside : A.toDma.Inside pos) {a : Place} :
    a ∈ (P.jobOf K pos n).reads ↔ (∃ k < G.tileX, a = .l1 pos (G.bufX n + k)) ∨
      (∃ k < G.tileX, a = .l1 pos (G.bufX n + G.tileX + k)) ∨
      ∃ k < G.tileY, a = .l1 pos (4 * G.tileX + k) := by
  have known := plan.known pos inside
  show a ∈ tile pos ((P.info pos).localX n) (P.info pos).redmuleX ++
    (tile pos ((P.info pos).localW n) (P.info pos).redmuleW ++
      tile pos (P.info pos).yOffset (P.info pos).redmuleY) ↔ _
  rw [List.mem_append, List.mem_append, mem_tile, mem_tile, mem_tile, known.localX, known.localW,
    known.yOffset, known.redmuleX, known.redmuleW, known.redmuleY]
  rfl

/-- A place of the buffers is written by a byte of the pair of tiles that comes. -/
theorem Doing.writes_buffer (doing : Doing plan K iter t p) (inside : A.toDma.Inside t.pos)
    (written : .l1 pos o ∈ p.writes) (buffer : o < 4 * G.tileX) :
    t.pos = pos ∧ ∃ n j, plan.work pos iter = .load n ∧ j < 2 * G.tileX ∧ o = G.bufX n + j ∧
      ((t.engine = .dma1 ∧ j = t.byte ∧ j < G.tileX) ∨
        (t.engine = .dma2 ∧ j = G.tileX + t.byte)) := by
  cases doing with
  | loadX work less =>
    obtain ⟨rfl, rfl⟩ := Place.l1.inj (List.mem_singleton.mp written)
    exact ⟨rfl, _, _, work, by omega, rfl, .inl ⟨rfl, rfl, less⟩⟩
  | loadW work less =>
    obtain ⟨rfl, rfl⟩ := Place.l1.inj (List.mem_singleton.mp written)
    exact ⟨rfl, _, _, work, Nat.lt_of_lt_of_eq (Nat.add_lt_add_left less _) (Nat.two_mul _).symm,
      Nat.add_assoc _ _ _, .inr ⟨rfl, rfl⟩⟩
  | store work less => cases List.mem_singleton.mp written
  | clear work less =>
    obtain ⟨rfl, rfl⟩ := Place.l1.inj (List.mem_singleton.mp written)
    exact absurd buffer (by omega)
  | job some =>
    obtain ⟨k, less, same⟩ := (mem_jobOf_writes plan inside).mp written
    obtain ⟨rfl, rfl⟩ := Place.l1.inj same
    exact absurd buffer (by omega)

/-- A place of the tile of Y is written by a job, or cleared. -/
theorem Doing.writes_y (doing : Doing plan K iter t p) (written : .l1 pos o ∈ p.writes)
    (inside : A.toDma.Inside t.pos) (y : 4 * G.tileX ≤ o) :
    t.pos = pos ∧ ((t = ⟨pos, .redmule, 0⟩ ∧ ∃ n, plan.job pos iter = some n) ∨
      ∃ st k, t = ⟨pos, .dma2, k⟩ ∧ plan.work pos iter = .turn st ∧ o = 4 * G.tileX + k) := by
  cases doing with
  | @loadX _ n _ work less =>
    obtain ⟨rfl, rfl⟩ := Place.l1.inj (List.mem_singleton.mp written)
    have buffer := bufX_le G n
    omega
  | @loadW _ n _ work less =>
    obtain ⟨rfl, rfl⟩ := Place.l1.inj (List.mem_singleton.mp written)
    have buffer := bufX_le G n
    omega
  | store work less => cases List.mem_singleton.mp written
  | clear work less =>
    obtain ⟨rfl, rfl⟩ := Place.l1.inj (List.mem_singleton.mp written)
    exact ⟨rfl, .inr ⟨_, _, rfl, work, rfl⟩⟩
  | job some =>
    obtain ⟨k, less, same⟩ := (mem_jobOf_writes plan inside).mp written
    obtain ⟨rfl, rfl⟩ := Place.l1.inj same
    exact ⟨rfl, .inl ⟨rfl, _, some⟩⟩

/-- A place of the HBM is written by a store. -/
theorem Doing.writes_hbm (doing : Doing plan K iter t p) (inside : A.toDma.Inside t.pos) {a : Nat}
    (written : .hbm a ∈ p.writes) : G.StoreFits A ∧ ∃ st k,
      t = ⟨t.pos, .dma1, k⟩ ∧ (plan.work t.pos iter = .turn st ∨ plan.work t.pos iter = .last st) ∧
        st - 1 < G.zTiles A t.pos ∧ k < G.tileY ∧ .hbm a = G.result A t.pos (st - 1) k := by
  cases doing with
  | loadX work less => cases List.mem_singleton.mp written
  | loadW work less => cases List.mem_singleton.mp written
  | @store pos st k work less =>
    have same := List.mem_singleton.mp written
    rcases work with work | work
    · obtain ⟨stores, some, below, -⟩ := plan.turn_spec pos iter st work
      exact ⟨stores, st, k, rfl, .inl work, show st - 1 < G.zTiles A pos by omega, less, same⟩
    · obtain ⟨stores, some, last, -⟩ := plan.last_spec pos iter st inside work
      exact ⟨stores, st, k, rfl, .inr work, show st - 1 < G.zTiles A pos by omega, less, same⟩
  | clear work less => cases List.mem_singleton.mp written
  | job some =>
    obtain ⟨k, less, same⟩ := (mem_jobOf_writes plan inside).mp written
    cases same

/-- The zero memories are not written. -/
theorem Doing.writes_zomem (doing : Doing plan K iter t p) (inside : A.toDma.Inside t.pos) :
    .zomem pos o ∉ p.writes := by
  intro written
  cases doing with
  | loadX work less => cases List.mem_singleton.mp written
  | loadW work less => cases List.mem_singleton.mp written
  | store work less => cases List.mem_singleton.mp written
  | clear work less => cases List.mem_singleton.mp written
  | job some =>
    obtain ⟨k, less, same⟩ := (mem_jobOf_writes plan inside).mp written
    cases same

/-! ## Buffers in turn -/

/-- The pairs of tiles in consecutive iterations are consecutive. -/
theorem Plan.next_slot (plan : Plan A G P) (next : plan.slot m = plan.slot n + 1) : m = n + 1 := by
  have less : n < m := plan.slot_strictMono.lt_iff_lt.mp (by omega)
  rcases Nat.eq_or_lt_of_le (Nat.succ_le_of_lt less) with same | later
  · exact same.symm
  · have first := plan.slot_strictMono (Nat.lt_succ_self n)
    have second := plan.slot_strictMono later
    omega

/-- Consecutive pairs of tiles have different buffers. -/
theorem bufX_succ_ne {j k : Nat} (hj : j < 2 * G.tileX) (hk : k < 2 * G.tileX) :
    G.bufX (n + 1) + j ≠ G.bufX n + k := by
  unfold Args.bufX
  rcases Nat.mod_two_eq_zero_or_one n with even | odd
  · have next : (n + 1) % 2 = 1 := by omega
    rw [even, next, Nat.one_mul, Nat.zero_mul]
    omega
  · have next : (n + 1) % 2 = 0 := by omega
    rw [odd, next, Nat.one_mul, Nat.zero_mul]
    omega

/-- A place of the same buffers. -/
theorem bufX_add_lt {j : Nat} (hj : j < 2 * G.tileX) : G.bufX n + j < 4 * G.tileX := by
  have buffer := bufX_le G n
  omega

/-! ## What an iteration leaves alone -/

/-- No task writes the source of a byte of X that comes. -/
theorem Doing.sourceX_kept (doing : Doing plan K iter t p) (insideT : A.toDma.Inside t.pos)
    (inside : A.toDma.Inside pos) (work : plan.work pos iter = .load n) {k : Nat}
    (less : k < G.tileX) :
    G.sourceX A pos n k ∉ p.writes := by
  intro written
  obtain ⟨hn, at'⟩ := (plan.load_iff pos iter n).mp work
  unfold Args.sourceX at written
  split at written
  · obtain ⟨-, st, k', -, -, -, -, same⟩ := doing.writes_hbm insideT written
    exact result_ne_west plan.fits inside hn less same.symm
  · obtain ⟨-, m, j, work', hj, same, -⟩ := doing.writes_buffer insideT written
      (bufX_add_lt (Nat.lt_of_lt_of_le less (Nat.le_mul_of_pos_left _ Nat.two_pos)))
    obtain ⟨-, at''⟩ := (plan.load_iff _ iter m).mp work'
    obtain rfl : m = n + 1 := plan.next_slot (by simp only at at''; omega)
    exact bufX_succ_ne hj (show _ < 2 * G.tileX by omega) same.symm

/-- No task writes the source of a byte of W that comes. -/
theorem Doing.sourceW_kept (doing : Doing plan K iter t p) (insideT : A.toDma.Inside t.pos)
    (inside : A.toDma.Inside pos) (work : plan.work pos iter = .load n) {k : Nat}
    (less : k < G.tileX) :
    G.sourceW A pos n k ∉ p.writes := by
  intro written
  obtain ⟨hn, at'⟩ := (plan.load_iff pos iter n).mp work
  unfold Args.sourceW at written
  split at written
  · obtain ⟨stores, st, k', -, -, hz, hk', same⟩ := doing.writes_hbm insideT written
    exact result_ne_south plan.fits stores inside insideT hn hz less hk' same.symm
  · rw [Nat.add_assoc] at written
    obtain ⟨-, m, j, work', hj, same, -⟩ :=
      doing.writes_buffer insideT written (bufX_add_lt (by omega))
    obtain ⟨-, at''⟩ := (plan.load_iff _ iter m).mp work'
    obtain rfl : m = n + 1 := plan.next_slot (by simp only at at''; omega)
    exact bufX_succ_ne hj (show _ < 2 * G.tileX by omega) same.symm

/-- No task writes the buffers of a job. -/
theorem Doing.buffers_kept (doing : Doing plan K iter t p) (insideT : A.toDma.Inside t.pos)
    (job : plan.job pos iter = some n) {j : Nat} (hj : j < 2 * G.tileX) :
    .l1 pos (G.bufX n + j) ∉ p.writes := by
  intro written
  obtain ⟨-, at'⟩ := (plan.job_iff pos iter n).mp job
  obtain ⟨-, m, j', work', hj', same, -⟩ := doing.writes_buffer insideT written (bufX_add_lt hj)
  obtain ⟨-, at''⟩ := (plan.load_iff _ iter m).mp work'
  obtain rfl : m = n + 1 := plan.next_slot (by omega)
  exact bufX_succ_ne hj' hj same.symm

/-! ## Conflicts -/

/-- A cluster stores or clears its tile of Y while RedMule is at work in the same cluster, or
clears what it stores. -/
def Turns (plan : Plan A G P) (iter : Nat) (s t : Task) : Prop :=
  s.pos = t.pos ∧ (∃ st, plan.work s.pos iter = .turn st) ∧
    ((s.engine = .redmule ∨ t.engine = .redmule) ∨ s.engine ≠ t.engine ∧ s.byte = t.byte)

theorem Turns.symm (turns : Turns plan iter s t) : Turns plan iter t s := by
  obtain ⟨pos, work, busy | ⟨engine, byte⟩⟩ := turns
  · exact ⟨pos.symm, pos ▸ work, .inl busy.symm⟩
  · exact ⟨pos.symm, pos ▸ work, .inr ⟨engine.symm, byte.symm⟩⟩

/-- A job in the iteration of the last store would take a pair of tiles too many. -/
theorem Plan.last_job (plan : Plan A G P) (inside : A.toDma.Inside pos) {st : Nat}
    (work : plan.work pos iter = .last st) : plan.job pos iter = none := by
  obtain ⟨-, -, last, at'⟩ := plan.last_spec pos iter st inside work
  cases job : plan.job pos iter with
  | none => rfl
  | some n =>
    obtain ⟨hn, at''⟩ := (plan.job_iff pos iter n).mp job
    obtain rfl : n = st * G.length := plan.slot_strictMono.injective (by omega)
    rw [last] at hn
    exact absurd hn (Nat.lt_irrefl _)

/-- One task writes what another one reads. -/
theorem Doing.write_read (hs : Doing plan K iter s p) (ht : Doing plan K iter t q)
    (insideS : A.toDma.Inside s.pos) (insideT : A.toDma.Inside t.pos) (other : s ≠ t) {a : Place}
    (written : a ∈ p.writes) (read : a ∈ q.reads) : Turns plan iter s t := by
  cases ht with
  | loadX work less =>
    obtain rfl := List.mem_singleton.mp read
    exact absurd written (hs.sourceX_kept insideS insideT work less)
  | loadW work less =>
    obtain rfl := List.mem_singleton.mp read
    exact absurd written (hs.sourceW_kept insideS insideT work less)
  | @store pos st k work less =>
    obtain rfl := List.mem_singleton.mp read
    obtain ⟨same, ⟨rfl, n, job⟩ | ⟨st', k', rfl, work', byte⟩⟩ :=
      hs.writes_y written insideS (Nat.le_add_right _ _)
    · rcases work with work | work
      · exact ⟨rfl, ⟨st, work⟩, .inl (.inl rfl)⟩
      · cases (plan.last_job insideT work).symm.trans job
    · exact ⟨rfl, ⟨st', work'⟩, .inr ⟨by simp, (Nat.add_left_cancel byte).symm⟩⟩
  | clear work less =>
    obtain rfl := List.mem_singleton.mp read
    exact absurd written (hs.writes_zomem insideS)
  | @job pos n some =>
    rcases (mem_jobOf_reads plan insideT).mp read with ⟨k, less, rfl⟩ | ⟨k, less, rfl⟩ |
      ⟨k, less, rfl⟩
    · exact absurd written (hs.buffers_kept insideS some (show k < 2 * G.tileX by omega))
    · rw [Nat.add_assoc] at written
      exact absurd written (hs.buffers_kept insideS some (show G.tileX + k < 2 * G.tileX by omega))
    · obtain ⟨same, ⟨rfl, -⟩ | ⟨st, k', rfl, work, -⟩⟩ :=
        hs.writes_y written insideS (Nat.le_add_right _ _)
      · exact absurd rfl other
      · exact ⟨rfl, ⟨st, work⟩, .inl (.inr rfl)⟩

/-- Two tasks write one place. -/
theorem Doing.write_write (hs : Doing plan K iter s p) (ht : Doing plan K iter t q)
    (insideS : A.toDma.Inside s.pos) (insideT : A.toDma.Inside t.pos) (other : s ≠ t) {a : Place}
    (written : a ∈ p.writes) (written' : a ∈ q.writes) : Turns plan iter s t := by
  cases a with
  | l1 pos o =>
    rcases Nat.lt_or_ge o (4 * G.tileX) with buffer | y
    · obtain ⟨rfl, n, j, work, hj, same, byte⟩ := hs.writes_buffer insideS written buffer
      obtain ⟨pos, n', j', work', hj', same', byte'⟩ := ht.writes_buffer insideT written' buffer
      obtain rfl := Work.load.inj (work.symm.trans work')
      obtain rfl : j = j' := Nat.add_left_cancel (same.symm.trans same')
      refine absurd ?_ other
      rcases byte with ⟨engine, byte, less⟩ | ⟨engine, byte⟩
      · rcases byte' with ⟨engine', byte', -⟩ | ⟨-, byte'⟩
        · exact Task.ext pos.symm (engine.trans engine'.symm) (byte.symm.trans byte')
        · omega
      · rcases byte' with ⟨-, byte', less⟩ | ⟨engine', byte'⟩
        · omega
        · exact Task.ext pos.symm (engine.trans engine'.symm)
            (Nat.add_left_cancel (byte.symm.trans byte'))
    · obtain ⟨-, ⟨rfl, n, job⟩ | ⟨st, k, rfl, work, byte⟩⟩ := hs.writes_y written insideS y
      · obtain ⟨-, ⟨rfl, -⟩ | ⟨st', k', rfl, work', -⟩⟩ := ht.writes_y written' insideT y
        · exact absurd rfl other
        · exact ⟨rfl, ⟨st', work'⟩, .inl (.inl rfl)⟩
      · obtain ⟨-, ⟨rfl, -⟩ | ⟨st', k', rfl, -, byte'⟩⟩ := ht.writes_y written' insideT y
        · exact ⟨rfl, ⟨st, work⟩, .inl (.inr rfl)⟩
        · obtain rfl : k = k' := Nat.add_left_cancel (byte.symm.trans byte')
          exact absurd rfl other
  | zomem pos o => exact absurd written (hs.writes_zomem insideS)
  | hbm a =>
    obtain ⟨stores, st, k, hs', work, hz, hk, same⟩ := hs.writes_hbm insideS written
    obtain ⟨-, st', k', ht', work', hz', hk', same'⟩ := ht.writes_hbm insideT written'
    obtain ⟨pos, -, rfl⟩ := result_injective plan.fits stores insideS insideT hz hz' hk hk'
      (same.symm.trans same')
    exact absurd (hs'.trans (by rw [ht', pos])) other

/-- Conflicts arise only between the store and the start of a tile of Z and a job. -/
theorem Plan.turns_of_conflict (plan : Plan A G P) (hs : P.Busy A iter s) (ht : P.Busy A iter t)
    (other : s ≠ t) (conflict : (P.op A K iter s).Conflict (P.op A K iter t)) :
    Turns plan iter s t := by
  have doing := plan.doing (K := K) hs
  have doing' := plan.doing (K := K) ht
  rcases conflict with ⟨a, written, read | written'⟩ | ⟨a, written, read⟩
  · exact doing.write_read doing' hs.1 ht.1 other written read
  · exact doing.write_write doing' hs.1 ht.1 other written written'
  · exact (doing'.write_read doing ht.1 hs.1 other.symm written read).symm

/-- A job uses the tile of Y that is stored and cleared. -/
theorem Plan.conflict_of_turn (plan : Plan A G P) (hs : P.Busy A iter s) (ht : P.Busy A iter t)
    (other : s ≠ t) (pos : s.pos = t.pos) (redmule : s.engine = .redmule) {st : Nat}
    (work : plan.work t.pos iter = .turn st) : (P.op A K iter s).Conflict (P.op A K iter t) := by
  have doing := plan.doing (K := K) hs
  have doing' := plan.doing (K := K) ht
  generalize P.op A K iter s = p at doing
  generalize P.op A K iter t = q at doing'
  cases doing with
  | job some =>
    cases doing' with
    | loadX work' less => cases work.symm.trans work'
    | loadW work' less => cases work.symm.trans work'
    | store work' less =>
      exact .inl ⟨_, (mem_jobOf_writes plan hs.1).mpr ⟨_, less, pos ▸ rfl⟩, .inl List.mem_cons_self⟩
    | clear work' less =>
      exact .inl ⟨_, (mem_jobOf_writes plan hs.1).mpr ⟨_, less, pos ▸ rfl⟩, .inr List.mem_cons_self⟩
    | job some' => exact absurd (Task.ext pos rfl rfl) other
  | loadX work' less => cases redmule
  | loadW work' less => cases redmule
  | store work' less => cases redmule
  | clear work' less => cases redmule

end

/-! ## The two programs -/

/-- Two clusters in a row with room for tiles of two bytes. -/
def pairArch : Arch where
  numClusterX := 2
  numClusterY := 1
  tcdmRemote := 32
  tcdmSize := 10
  numClusterX_pos := Nat.two_pos
  numClusterY_pos := Nat.one_pos
  numClusterX_lt := Dma.fourByTwo.numClusterY_lt
  numClusterY_lt := by decide
  tcdmRemote_lt := by decide
  tcdmSize_pos := by decide
  tcdmSize_lt := by decide
  numNodePerCtrl := 1
  hbmChanPlacement _ := 1
  nocLinkWidth := 8
  hbmStartBase := 64
  hbmNodeAddrSpace := 16
  hbmNodeAliase := 1
  hbmNodeAliaseStartBit := 32
  nocLinkWidth_ge := by decide
  nocLinkWidth_lt := by decide
  hbmNodeAliaseStartBit_lt := by decide
  tcdmBase := 0
  zomemBase := 16
  zomemSize := 2
  tcdm_le := by decide
  zomem_le := by decide
  remote_le := by decide
  hbm_le := by decide

/-- A row of four tiles of Z of one element, each the sum of two products. -/
def pairArgs : Args := ⟨1, 2, 4, 2, 1, 1, 1⟩

/-- The products of the bytes are added to each byte of the tile. -/
def sumKernel : Kernel Nat where
  job x w y := y.map fun sum => sum + (List.zipWith (· * ·) x w).sum
  length_job _ _ _ := List.length_map _

theorem pairArgs_fits {stall : Nat} (small : stall ≤ 1) : pairArgs.Fits pairArch stall where
  stall_le := small
  tileM_pos := by decide
  tileN_pos := by decide
  tileN_lt := by decide
  elemSize_eq := rfl
  square := rfl
  nSize_pos := by decide
  nSize_lt := by decide
  rows_le := by decide
  columns_le := by decide
  tcdm_le := by decide
  zomem_le := by decide
  iter_lt := by
    have tiles : pairArgs.zTiles pairArch ⟨0, 0⟩ = 2 := by decide
    have length : pairArgs.length = 2 := by decide
    rw [tiles, length]
    show 2 * (2 + stall) + 2 + 1 < 2 ^ 32
    omega
  stream_le := by decide

theorem pairArgs_stores : pairArgs.StoreFits pairArch where
  matrix_lt := by decide
  stream_le := by decide
  results_le := by decide
  zTiles_pos := by
    rintro ⟨x, y⟩ ⟨hx, hy⟩
    obtain rfl : y = 0 := Nat.lt_one_iff.mp hy
    have column : x = 0 ∨ x = 1 := by
      have hx : x < 2 := hx
      omega
    rcases column with rfl | rfl <;> decide

section

variable {A : Arch} {G : Args} {β : Type*} {iter : Nat} {s t : Task}

/-- In the program with stores, two tasks of an iteration that nothing orders conflict exactly if
they are a job and the store or the start of a tile of Z of the same cluster: RedMule pauses one
iteration too late. -/
theorem conflict_iff (fits : G.Fits A 1) (stores : G.StoreFits A) (K : Kernel β)
    (hs : (gemmSystolicWise A G).Busy A iter s) (ht : (gemmSystolicWise A G).Busy A iter t)
    (other : s ≠ t) (free : ¬ (gemmSystolicWise A G).After iter s t)
    (free' : ¬ (gemmSystolicWise A G).After iter t s) :
    ((gemmSystolicWise A G).op A K iter s).Conflict ((gemmSystolicWise A G).op A K iter t) ↔
      s.pos = t.pos ∧ (s.engine = .redmule ∨ t.engine = .redmule) ∧
        ∃ st, 0 < st ∧ st < G.zTiles A s.pos ∧
          iter = s.pos.x + s.pos.y + st * (G.length + 1) + 1 := by
  let plan := storePlan fits stores
  constructor
  · intro conflict
    obtain ⟨pos, ⟨st, work⟩, kind⟩ := plan.turns_of_conflict hs ht other conflict
    have sync : ((gemmSystolicWise A G).dma s.pos iter).useSyncDma = true := by
      rw [plan.dma_eq s.pos hs.1, work]
      rfl
    refine ⟨pos, ?_, st, (storeWork_turn_iff fits.length_pos).mp work⟩
    rcases kind with redmule | ⟨engine, -⟩
    · exact redmule
    · cases first : s.engine with
      | redmule => exact .inl rfl
      | dma1 =>
        cases second : t.engine with
        | redmule => exact .inr rfl
        | dma1 => exact absurd (first.trans second.symm) engine
        | dma2 => exact absurd ⟨pos.symm, sync, second, first⟩ free'
      | dma2 =>
        cases second : t.engine with
        | redmule => exact .inr rfl
        | dma1 => exact absurd ⟨pos, pos ▸ sync, first, second⟩ free
        | dma2 => exact absurd (first.trans second.symm) engine
  · rintro ⟨pos, redmule, st, turn⟩
    have work : plan.work s.pos iter = .turn st := (storeWork_turn_iff fits.length_pos).mpr turn
    rcases redmule with redmule | redmule
    · exact plan.conflict_of_turn hs ht other pos redmule (pos ▸ work)
    · exact (plan.conflict_of_turn ht hs other.symm pos.symm redmule work).symm

/-- RedMule multiplies the first pair of tiles for the second tile of Z while its place is
cleared. -/
theorem conflict_iff_pair : ((gemmSystolicWise pairArch pairArgs).op pairArch sumKernel 4
      ⟨⟨0, 0⟩, .redmule, 0⟩).Conflict
    ((gemmSystolicWise pairArch pairArgs).op pairArch sumKernel 4 ⟨⟨0, 0⟩, .dma2, 0⟩) := by
  have fits := pairArgs_fits (Nat.le_refl 1)
  have inside : pairArch.toDma.Inside ⟨0, 0⟩ := ⟨Nat.two_pos, Nat.one_pos⟩
  have job : (gemmSystolicWise pairArch pairArgs).Busy pairArch 4 ⟨⟨0, 0⟩, .redmule, 0⟩ :=
    ⟨inside, by decide, rfl⟩
  have clear : (gemmSystolicWise pairArch pairArgs).Busy pairArch 4 ⟨⟨0, 0⟩, .dma2, 0⟩ :=
    ⟨inside, clearTile pairArch (gemmSystolicWiseAnalysis pairArch pairArgs ⟨0, 0⟩), by decide, by
      decide⟩
  refine (conflict_iff fits pairArgs_stores sumKernel job clear ?_ ?_ ?_).mpr
    ⟨rfl, .inl rfl, 1, by decide, by decide, by decide⟩
  · exact fun same => by cases same
  · exact fun after => by cases after.2.2.1
  · exact fun after => by cases after.2.2.2

/-- The program without stores has no conflicts. -/
theorem noStore_conflict (fits : G.Fits A 0) (K : Kernel β)
    (hs : (NoStore.gemmSystolicWise A G).Busy A iter s)
    (ht : (NoStore.gemmSystolicWise A G).Busy A iter t) (other : s ≠ t) :
    ¬ ((NoStore.gemmSystolicWise A G).op A K iter s).Conflict
      ((NoStore.gemmSystolicWise A G).op A K iter t) := by
  intro conflict
  obtain ⟨-, ⟨st, work⟩, -⟩ := (plainPlan fits).turns_of_conflict hs ht other conflict
  rcases plainWork_eq with idle | ⟨n, load⟩
  · cases idle.symm.trans work
  · cases load.symm.trans work

/-- A job and the transfer of the next tile of X. -/
theorem noStore_conflict_pair :
    ¬ ((NoStore.gemmSystolicWise pairArch pairArgs).op pairArch sumKernel 1
      ⟨⟨0, 0⟩, .redmule, 0⟩).Conflict
    ((NoStore.gemmSystolicWise pairArch pairArgs).op pairArch sumKernel 1 ⟨⟨0, 0⟩, .dma1, 0⟩) := by
  have inside : pairArch.toDma.Inside ⟨0, 0⟩ := ⟨Nat.two_pos, Nat.one_pos⟩
  refine noStore_conflict (pairArgs_fits (Nat.zero_le 1)) sumKernel ⟨inside, by decide, rfl⟩
    ⟨inside, ?_⟩ fun same => by cases same
  exact ⟨_, rfl, by decide⟩

end

end SoftHier.Systolic
