import SoftHier.Redmule.Phases

/-!
# The requests of a job

The requests that a job sends to the TCDM, phase by phase.  They depend on the sizes of the Z tiles
that are stored, and on nothing else that a computation could change.

* `blockRequests`: the requests of a cursor, in the order `Y -> W -> X -> Z`.
* `routineReads`, `storeRequests`, `requestsAt`: the requests of each phase.
* `storedSize`: the size with which a Z tile is stored.
* `trace_phases`: the requests of a job.
-/

namespace SoftHier.Redmule

section

variable (A : Arch) (R : Regs)

/-- The requests for `n` rows from `addr` on. -/
def rowRequests (stride tileRow size : Nat) (isWrite : Bool) : Nat → Nat → List TcdmReq
  | 0, _ => []
  | n + 1, addr => ⟨addr, size, isWrite⟩ ::
      rowRequests stride tileRow size isWrite n (incAddr A R addr stride tileRow)

/-- The requests of a cursor. -/
def blockRequests (zStoreWidth : Nat) (a : Access) : List TcdmReq :=
  rowRequests A R R.kSize A.bufferW (u32 (A.bufferW * R.elemSize)) false a.yAccBlock a.iterYAddr ++
    rowRequests A R R.kSize A.bufferW (u32 (A.bufferW * R.elemSize)) false a.wAccBlock
      a.iterWAddr ++
    rowRequests A R R.nSize (A.bufferN R.elemSize) A.bandwidth false a.xAccBlock a.iterXAddr ++
    rowRequests A R R.kSize A.bufferW (u32 (zStoreWidth * R.elemSize)) true a.zAccBlock a.iterZAddr

/-- The requests that read, in the phase of iteration `it`. -/
def routineReads (T : Tiles) (it : Iter) : List TcdmReq :=
  let blocks := (getRoutineAccessBlockNumber A R T it 0 ⟨0, 0, 0, 0, 0, 0, 0, 0, .loadY⟩).2
  blockRequests A R 0 blocks

/-- The requests that store a Z tile of the given width and height. -/
def storeRequests (tile size : Nat × Nat) : List TcdmReq :=
  rowRequests A R R.kSize A.bufferW (u32 (size.1 * R.elemSize)) true size.2
    (calculateTileBaseAddress A R R.zAddr R.kSize A.bufferH A.bufferW tile.1 tile.2)

/-- The requests that store a Z tile, in the phase of iteration `it`. -/
def routineStores (T : Tiles) (it : Iter) (size : Nat × Nat) : List TcdmReq :=
  if it.k == 0 && !isFirstIteration it then storeRequests A R (previousZTile T it) size else []

/-- The number of requests in the phase of iteration `it`. -/
def routineTotal (T : Tiles) (it : Iter) (zStoreHeight : Nat) : Nat :=
  (getRoutineAccessBlockNumber A R T it zStoreHeight ⟨0, 0, 0, 0, 0, 0, 0, 0, .loadY⟩).1

/-- The requests of the first phase. -/
def preloadRequests : List TcdmReq :=
  let blocks := getPreloadAccessBlockNumber A R (initAccess R ⟨0, 0, 0, 0, 0, 0, 0, 0, .loadY⟩)
  (blockRequests A R 0 blocks.2).take blocks.1

/-- The row and column of tile `t`. -/
def tileAt (T : Tiles) (t : Nat) : Nat × Nat := (t / T.zRowTiles, t % T.zRowTiles)

/-- Iteration `p`. -/
def iterAt (T : Tiles) (p : Nat) : Iter :=
  ⟨p / T.xRowTiles / T.zRowTiles, p / T.xRowTiles % T.zRowTiles, p % T.xRowTiles⟩

/-- The requests of phase `n`, if tile `t` is stored with size `size t`. -/
def requestsAt (T : Tiles) (size : Nat → Nat × Nat) (n : Nat) : List TcdmReq :=
  if n = 0 then preloadRequests A R
  else if n ≤ T.total then
    let it := iterAt T (n - 1)
    let previous := size ((n - 1) / T.xRowTiles - 1)
    (routineReads A R T it ++ routineStores A R T it previous).take
      (routineTotal A R T it previous.2)
  else storeRequests A R (tileAt T (T.zColTiles * T.zRowTiles - 1))
    (size (T.zColTiles * T.zRowTiles - 1))

end

section

variable {A : Arch} {R : Regs} {T : Tiles} {it : Iter} {a a' : Access} {r : TcdmReq}
    {zStoreWidth : Nat}

/-! ## Cursors -/

theorem blockRequests_cons (next : nextAddr A R zStoreWidth a = some (r, a')) :
    blockRequests A R zStoreWidth a = r :: blockRequests A R zStoreWidth a' := by
  unfold blockRequests
  obtain ⟨y, hy, rfl, rfl⟩ | ⟨hy, w, hw, rfl, rfl⟩ | ⟨hy, hw, x, hx, rfl, rfl⟩ |
    ⟨hy, hw, hx, z, hz, rfl, rfl⟩ := nextAddr_cases next
  · rw [hy]
    rfl
  · rw [hy, hw]
    rfl
  · rw [hy, hw, hx]
    rfl
  · rw [hy, hw, hx, hz]
    rfl

/-- An access is not the instruction that forwards a tile. -/
theorem nextAddr_instruction (next : nextAddr A R zStoreWidth a = some (r, a')) :
    a'.iterInstruction ≠ .forwardYZ := by
  obtain ⟨y, -, -, rfl⟩ | ⟨-, w, -, -, rfl⟩ | ⟨-, -, x, -, -, rfl⟩ | ⟨-, -, -, z, -, -, rfl⟩ :=
    nextAddr_cases next
  · nofun
  · dsimp only
    split <;> nofun
  · nofun
  · nofun

/-- The requests of a routine phase do not depend on the cursor before it. -/
theorem blockRequests_routine (zStoreHeight : Nat) :
    blockRequests A R zStoreWidth (getRoutineAccessBlockNumber A R T it zStoreHeight a).2 =
      routineReads A R T it ++ routineStores A R T it (zStoreWidth, zStoreHeight) := by
  unfold routineReads routineStores storeRequests blockRequests getRoutineAccessBlockNumber
  dsimp only
  cases storeZ : it.k == 0 && !isFirstIteration it <;> cases lastK : it.k == sub32 T.xRowTiles 1 <;>
    cases last : isLastIteration T it <;> simp [rowRequests]

theorem preloadRequests_eq : (blockRequests A R zStoreWidth
      (getPreloadAccessBlockNumber A R (initAccess R a)).2).take
        (getPreloadAccessBlockNumber A R (initAccess R a)).1 = preloadRequests A R := rfl

theorem storingRequests_eq (zStoreHeight : Nat) :
    (blockRequests A R zStoreWidth (getStoringAccessBlockNumber A R T zStoreHeight a).2).take
        (getStoringAccessBlockNumber A R T zStoreHeight a).1 =
      storeRequests A R (sub32 T.zColTiles 1, sub32 T.zRowTiles 1) (zStoreWidth, zStoreHeight) := by
  have length : ∀ {stride tileRow size : Nat} {isWrite : Bool} {n addr : Nat},
      (rowRequests A R stride tileRow size isWrite n addr).length = n := by
    intro stride tileRow size isWrite n
    induction n with
    | zero => exact rfl
    | succ n ih => exact congrArg Nat.succ ih
  exact List.take_of_length_le (Nat.le_of_eq length)

end

/-! ## Phases -/

section

variable {Q : Type*} {A : Arch} {s s' u : Machine Q}

/-- The size of the Z tile that is stored next. -/
def Datapath.storeSize (d : Datapath) : Nat × Nat := (d.zStoreWidth, d.zStoreHeight)

theorem process_storeSize {wanted : IterInstruction → Bool} {a : Access} {d : Datapath}
    (instr : a.iterInstruction ≠ .forwardYZ) :
    (process A s wanted a d).storeSize = d.storeSize := by
  unfold process
  split
  · unfold processIterInstruction
    cases given : a.iterInstruction with
    | forwardYZ => exact absurd given instr
    | _ => rfl
  · rfl

theorem sendRequest_storeSize {before after : IterInstruction → Bool}
    (sent : sendRequest A before after s = some s') : s'.data.storeSize = s.data.storeSize := by
  obtain ⟨⟨r, a⟩, next, rfl⟩ := Option.map_eq_some_iff.mp sent
  have instr := nextAddr_instruction next
  exact (process_storeSize instr).trans (process_storeSize (d := s.data) instr)

/-- The requests of the accesses of a phase, which do not change the size of the Z tile. -/
theorem accesses_trace {n : Nat} (ran : accesses A n s = some u) :
    u.trace = s.trace ++ (blockRequests A s.regs s.data.zStoreWidth s.access).take n ∧
      u.data.storeSize = s.data.storeSize := by
  induction n generalizing s with
  | zero =>
    obtain rfl := Option.some.inj ran
    exact ⟨by rw [List.take_zero, List.append_nil], rfl⟩
  | succ n ih =>
    obtain ⟨sent, made, ran'⟩ := Option.bind_eq_some_iff.mp ran
    obtain ⟨trace, size⟩ := ih ran'
    have kept := sendRequest_storeSize made
    have width := congrArg Prod.fst kept
    refine ⟨?_, size.trans kept⟩
    obtain ⟨r, a, d, mem, next, rfl⟩ := sendRequest_cases made
    dsimp only [Datapath.storeSize] at width
    rw [blockRequests_cons next, List.take_succ_cons, trace, List.append_assoc, width]
    rfl

/-- The requests of the phase that begins. -/
def phaseRequests (A : Arch) (s : Machine Q) : List TcdmReq :=
  (blockRequests A s.regs s.data.zStoreWidth s.access).take s.fsm.tcdmBlockTotal

theorem forwardYZ_trace : (forwardYZ A s).trace = s.trace := by
  unfold forwardYZ
  split <;> rfl

theorem nextPhase_data : (nextPhase A s).data = s.data ∧ (nextPhase A s).trace = s.trace := by
  unfold nextPhase
  dsimp only
  split
  · exact ⟨rfl, rfl⟩
  · exact ⟨rfl, rfl⟩

theorem leave_trace : (leave A s).trace = s.trace := by
  have forwarded : (forwardLast A s).trace = s.trace := by
    unfold forwardLast
    split
    · exact forwardYZ_trace
    · rfl
  unfold leave
  split
  · exact forwardYZ_trace
  · exact nextPhase_data.2.trans forwarded
  · rfl
  · rfl

/-- The size with which tile `t` is stored: that of the tile if the computation is enabled,
otherwise the one that was left before. -/
def storedSize (A : Arch) (s : Machine Q) (t : Nat) : Nat × Nat :=
  if s.computeAble = 0 then s.data.storeSize
  else (zWidthCutoff A s.regs (tileAt s.tiles t).2 / s.regs.elemSize,
    zHeightCutoff A s.regs (tileAt s.tiles t).1 / s.regs.elemSize)

theorem forwardYZ_storeSize : (forwardYZ A s).data.storeSize =
    if s.computeAble = 0 then s.data.storeSize
    else (zWidthCutoff A s.regs s.iter.j / s.regs.elemSize,
      zHeightCutoff A s.regs s.iter.i / s.regs.elemSize) := by
  unfold forwardYZ
  rw [ite_not]
  split <;> rfl

theorem leave_storeSize (disabled : s.computeAble = 0) :
    (leave A s).data.storeSize = s.data.storeSize := by
  have forward : ∀ u : Machine Q, u.computeAble = 0 →
      (forwardYZ A u).data.storeSize = u.data.storeSize :=
    fun u off => by rw [forwardYZ_storeSize, if_pos off]
  have forwarded : (forwardLast A s).data.storeSize = s.data.storeSize := by
    unfold forwardLast
    split
    · exact forward s disabled
    · rfl
  unfold leave
  split
  · exact forward (enterRoutine A s) disabled
  · exact (congrArg Datapath.storeSize nextPhase_data.1).trans forwarded
  · rfl
  · rfl

/-- The tile of an iteration and the iteration within it from its number. -/
theorem index_div_mod {T : Tiles} {it : Iter} (inside : it.Inside T) :
    it.index T / T.xRowTiles = it.i * T.zRowTiles + it.j ∧ it.index T % T.xRowTiles = it.k := by
  apply (Nat.div_mod_unique (Nat.zero_lt_of_lt inside.k)).mpr
  refine ⟨?_, inside.k⟩
  unfold Iter.index
  rw [Nat.mul_comm, Nat.add_comm]

theorem tileAt_eq {T : Tiles} {it : Iter} (inside : it.Inside T) :
    tileAt T (it.i * T.zRowTiles + it.j) = (it.i, it.j) := by
  have split : it.j + T.zRowTiles * it.i = it.i * T.zRowTiles + it.j := by
    rw [Nat.mul_comm, Nat.add_comm]
  obtain ⟨row, column⟩ :=
    (Nat.div_mod_unique (Nat.zero_lt_of_lt inside.j)).mpr ⟨split, inside.j⟩
  unfold tileAt
  rw [row, column]

theorem iterAt_zero (T : Tiles) : iterAt T 0 = ⟨0, 0, 0⟩ := by
  unfold iterAt
  rw [Nat.zero_div, Nat.zero_div, Nat.zero_mod, Nat.zero_mod]

/-- The indices of an iteration from its number. -/
theorem iterAt_index {T : Tiles} {it : Iter} (inside : it.Inside T) :
    iterAt T (it.index T) = it := by
  obtain ⟨tile, k⟩ := index_div_mod inside
  have place := tileAt_eq inside
  unfold iterAt
  rw [tile, k]
  exact congrArg (fun p : Nat × Nat => (⟨p.1, p.2, it.k⟩ : Iter)) place

/-- After the last iteration of a tile the number of the next iteration is a multiple. -/
theorem last_of_mod {T : Tiles} {it : Iter} (inside : it.Inside T)
    (next : (it.index T + 1) % T.xRowTiles = 0) :
    it.k + 1 = T.xRowTiles ∧ (it.index T + 1) / T.xRowTiles = it.i * T.zRowTiles + it.j + 1 := by
  have pos := Nat.zero_lt_of_lt inside.k
  obtain ⟨tile, k⟩ := index_div_mod inside
  have last : it.k + 1 = T.xRowTiles := by
    rcases Nat.eq_or_lt_of_le inside.k with last | more
    · exact last
    · rw [← Nat.mod_add_mod, k, Nat.mod_eq_of_lt more] at next
      cases next
  refine ⟨last, ?_⟩
  have product := Nat.div_add_mod (it.index T) T.xRowTiles
  rw [tile, k] at product
  rw [← product, Nat.add_assoc, last, ← Nat.mul_succ, Nat.mul_div_cancel_left _ pos]

/-- The size that the last iteration of a tile leaves. -/
theorem forwardLast_storeSize {u : Machine Q} (job : u.job = s.job) (sound : s.tiles.Sound)
    (inside : u.iter.Inside s.tiles) (last : u.iter.k + 1 = s.tiles.xRowTiles)
    (disabled : s.computeAble = 0 → u.data.storeSize = s.data.storeSize) :
    (forwardLast A u).data.storeSize =
      storedSize A s (u.iter.i * s.tiles.zRowTiles + u.iter.j) := by
  have regs : u.regs = s.regs := congrArg Prod.fst job
  have mode : u.computeAble = s.computeAble := congrArg (fun j => j.2.1) job
  have tiles : u.tiles = s.tiles := congrArg (fun j => j.2.2) job
  have wrap : u32 (u.iter.k + 1) = u.iter.k + 1 := u32_of_lt (last ▸ sound.xRow_lt)
  unfold forwardLast
  rw [if_pos (by rw [wrap, last, tiles]), forwardYZ_storeSize, mode, regs]
  unfold storedSize
  rw [tileAt_eq inside]
  split
  · rename_i off
    exact disabled off
  · rfl

/-! ## The requests of a job -/

/-- The requests of a phase do not depend on a size with which it does not store. -/
theorem routine_congr {R : Regs} {T : Tiles} {it : Iter} (size size' : Nat × Nat)
    (same : it.k = 0 → isFirstIteration it = false → size = size') :
    (routineReads A R T it ++ routineStores A R T it size).take (routineTotal A R T it size.2) =
      (routineReads A R T it ++ routineStores A R T it size').take
        (routineTotal A R T it size'.2) := by
  by_cases stores : it.k = 0 ∧ isFirstIteration it = false
  · rw [same stores.1 stores.2]
  · have none : (it.k == 0 && !isFirstIteration it) = false := by
      rw [Bool.and_eq_false_iff]
      by_cases first : it.k = 0
      · apply Or.inr
        cases given : isFirstIteration it with
        | true => rfl
        | false => exact absurd ⟨first, given⟩ stores
      · exact Or.inl (beq_false_of_ne first)
    unfold routineStores routineTotal getRoutineAccessBlockNumber
    simp only [none]
    rfl

theorem leavePreload_requests : ∃ width,
    phaseRequests A (leavePreload A s) =
      (routineReads A s.regs s.tiles s.iter ++
          routineStores A s.regs s.tiles s.iter (width, s.data.zStoreHeight)).take
        (routineTotal A s.regs s.tiles s.iter s.data.zStoreHeight) := by
  refine ⟨(leavePreload A s).data.zStoreWidth, ?_⟩
  rw [← blockRequests_routine (a := s.access)]
  unfold leavePreload forwardYZ
  split <;> rfl

theorem enterRoutine_requests :
    phaseRequests A (enterRoutine A s) =
      (routineReads A s.regs s.tiles s.iter ++
          routineStores A s.regs s.tiles s.iter s.data.storeSize).take
        (routineTotal A s.regs s.tiles s.iter s.data.storeSize.2) :=
  congrArg (List.take _) (blockRequests_routine s.data.zStoreHeight)

theorem enterStoring_requests :
    phaseRequests A (enterStoring A s) =
      storeRequests A s.regs (sub32 s.tiles.zColTiles 1, sub32 s.tiles.zRowTiles 1)
        s.data.storeSize :=
  storingRequests_eq s.data.zStoreHeight

/-- The iteration that begins after phase `n`. -/
theorem routine_requests {T : Tiles} {v : Machine Q} {n : Nat} {it : Iter} {previous : Nat × Nat}
    (regs : v.regs = s.regs) (tiles : v.tiles = T) (inside : it.Inside T)
    (index : it.index T = n) (size : it.k = 0 → v.data.storeSize = previous) :
    phaseRequests A (enterRoutine A { v with iter := it }) =
      (routineReads A s.regs T (iterAt T n) ++ routineStores A s.regs T (iterAt T n) previous).take
        (routineTotal A s.regs T (iterAt T n) previous.2) := by
  have named : iterAt T n = it := index ▸ iterAt_index inside
  rw [enterRoutine_requests, named]
  dsimp only
  rw [regs, tiles]
  exact routine_congr _ _ fun zero _ => size zero

/-- The tile that is stored at the end is the last one. -/
theorem last_tile {T : Tiles} {it : Iter} (sound : T.Sound) (inside : it.Inside T)
    (last : it.i * T.zRowTiles + it.j + 1 = T.zColTiles * T.zRowTiles) :
    tileAt T (T.zColTiles * T.zRowTiles - 1) = (sub32 T.zColTiles 1, sub32 T.zRowTiles 1) := by
  have j := inside.j
  have i := inside.i
  have row : (it.i + 1) * T.zRowTiles ≤ T.zColTiles * T.zRowTiles := Nat.mul_le_mul_right _ i
  rw [Nat.succ_mul] at row
  have j' : it.j = T.zRowTiles - 1 := by omega
  have i' : (it.i + 1) * T.zRowTiles = T.zColTiles * T.zRowTiles := by
    rw [Nat.succ_mul]
    omega
  have i'' : it.i + 1 = T.zColTiles := Nat.eq_of_mul_eq_mul_right sound.zRow_pos i'
  rw [sub32_of_le sound.zCol_pos sound.zCol_lt, sub32_of_le sound.zRow_pos sound.zRow_lt, ← last,
    Nat.add_sub_cancel, tileAt_eq inside, j', ← i'', Nat.add_sub_cancel]

/-- The requests of the phase after the first one. -/
theorem leave_requests_preload {T : Tiles} {v : Machine Q} {size : Nat → Nat × Nat}
    (regs : v.regs = s.regs) (tiles : v.tiles = T) (pos : 0 < T.total)
    (preload : v.fsm.state = .preload) (iter : v.iter = ⟨0, 0, 0⟩) :
    phaseRequests A (leave A v) = requestsAt A s.regs T size 1 := by
  have first : iterAt T 0 = v.iter := (iterAt_zero T).trans iter.symm
  obtain ⟨width, requests⟩ := leavePreload_requests (A := A) (s := v)
  unfold requestsAt
  rw [if_neg Nat.one_ne_zero, Nat.sub_self, leave_preload preload, requests,
    if_pos (Nat.succ_le_of_lt pos), regs, tiles, ← first]
  refine routine_congr (width, v.data.zStoreHeight) _ fun _ again => ?_
  rw [first, iter] at again
  cases again

/-- The last iteration of a tile leaves the size of the tile. -/
theorem storeSize_of_last {T : Tiles} {v : Machine Q} (sound : T.Sound) (tiles : s.tiles = T)
    (job : v.job = s.job) (inside : v.iter.Inside T)
    (disabled : s.computeAble = 0 → v.data.storeSize = s.data.storeSize)
    (whole : (v.iter.index T + 1) % T.xRowTiles = 0) :
    (forwardLast A v).data.storeSize = storedSize A s ((v.iter.index T + 1) / T.xRowTiles - 1) := by
  obtain ⟨last, quotient⟩ := last_of_mod inside whole
  rw [forwardLast_storeSize job (tiles ▸ sound) (tiles ▸ inside) (by rw [tiles, last]) disabled,
    tiles, quotient, Nat.add_sub_cancel]

/-- The requests of the phase after an iteration. -/
theorem leave_requests_routine {T : Tiles} {v : Machine Q} (sound : T.Sound) (tiles : s.tiles = T)
    (job : v.job = s.job) (routine : v.fsm.state = .routine) (inside : v.iter.Inside T)
    (disabled : s.computeAble = 0 → v.data.storeSize = s.data.storeSize) :
    phaseRequests A (leave A v) =
      requestsAt A s.regs T (storedSize A s) (v.iter.index T + 1 + 1) := by
  have regs : (forwardLast A v).regs = s.regs :=
    congrArg Prod.fst (forwardLast_job.trans job)
  have tiles' : (forwardLast A v).tiles = T :=
    (congrArg (fun j => j.2.2) (forwardLast_job.trans job)).trans tiles
  have iter : (forwardLast A v).iter = v.iter := forwardLast_iter
  have size := storeSize_of_last (A := A) sound tiles job inside disabled
  unfold requestsAt
  rw [if_neg (Nat.succ_ne_zero _), Nat.add_sub_cancel, leave_routine routine]
  obtain ⟨more, it, inside', index, -, next⟩ | ⟨ended, next⟩ := nextPhase_cases (A := A)
    (by rw [tiles']; exact sound) (by rw [iter, tiles']; exact inside)
  · rw [tiles'] at inside'
    rw [tiles', iter] at more index
    rw [next, if_pos (Nat.succ_le_of_lt more)]
    refine routine_requests regs tiles' inside' index fun zero => ?_
    apply size
    have named := iterAt_index inside'
    rw [index] at named
    rw [← named] at zero
    exact zero
  · rw [tiles', iter] at ended
    have whole : (v.iter.index T + 1) % T.xRowTiles = 0 := by
      rw [ended]
      exact Nat.mul_mod_left _ _
    have tileCount : (v.iter.index T + 1) / T.xRowTiles = T.zColTiles * T.zRowTiles := by
      rw [ended]
      exact Nat.mul_div_cancel _ sound.xRow_pos
    obtain ⟨-, quotient⟩ := last_of_mod inside whole
    have stored := size whole
    rw [tileCount] at stored quotient
    rw [next, if_neg (by omega), enterStoring_requests, last_tile sound inside quotient.symm,
      ← stored]
    dsimp only
    rw [regs, tiles']

/-- The requests of the phase after phase `n`. -/
theorem leave_requests {T : Tiles} {v : Machine Q} {n : Nat} (located : Located T n u)
    (le : n ≤ T.total) (job : u.job = s.job) (state : v.fsm.state = u.fsm.state)
    (iter : v.iter = u.iter) (kept : v.job = u.job)
    (disabled : s.computeAble = 0 → v.data.storeSize = s.data.storeSize) (tiles : s.tiles = T) :
    phaseRequests A (leave A v) = requestsAt A s.regs T (storedSize A s) (n + 1) := by
  have sound := located.tilesSound (Nat.le_succ_of_le le)
  have job' : v.job = s.job := kept.trans job
  cases n with
  | zero =>
    exact leave_requests_preload (congrArg Prod.fst job')
      ((congrArg (fun j => j.2.2) kept).trans located.tiles) sound.total_pos
      (state.trans located.state) (iter.trans (located.start rfl))
  | succ m =>
    have routine : u.fsm.state = .routine :=
      located.state.trans (stateAt_routine (Nat.succ_pos m) le)
    have inside := located.inside routine
    have requests := leave_requests_routine (A := A) sound tiles job' (state.trans routine)
      (iter ▸ inside) disabled
    rw [iter, located.iter routine] at requests
    exact requests

/-- The requests of the first `n` phases of a job. -/
theorem trace_phases {T : Tiles} (located : Located T 0 s)
    (start : phaseRequests A s = preloadRequests A s.regs) :
    ∀ n ≤ T.total + 2, ∃ u, phases A n s = some u ∧
      u.trace = s.trace ++ (List.range n).flatMap (requestsAt A s.regs T (storedSize A s)) := by
  intro n le
  obtain ⟨u, ran, -, -, trace, -⟩ := phases_induct (A := A)
    (fun n u => u.trace = s.trace ++
      (List.range n).flatMap (requestsAt A s.regs T (storedSize A s)) ∧
      (n ≤ T.total + 1 → phaseRequests A u = requestsAt A s.regs T (storedSize A s) n) ∧
        (s.computeAble = 0 → u.data.storeSize = s.data.storeSize))
    located ⟨(List.append_nil _).symm, fun _ => start, fun _ => rfl⟩
    (by
      rintro n u u' le located' job ⟨trace, requests, disabled⟩ ended -
      obtain ⟨v, ran, state, iter, kept, rfl⟩ := phase_eq_some ended
      obtain ⟨sent, size⟩ := accesses_trace ran
      have off : s.computeAble = 0 → v.data.storeSize = s.data.storeSize :=
        fun zero => size.trans (disabled zero)
      refine ⟨?_, fun le' => ?_, fun zero => ?_⟩
      · rw [located'.fresh, Nat.sub_zero] at sent
        rw [leave_trace, sent, List.range_succ, List.flatMap_append, List.flatMap_singleton,
          ← requests le, ← List.append_assoc, ← trace]
        rfl
      · exact leave_requests located' (Nat.le_of_succ_le_succ le') job state iter kept off
          located.tiles
      · have mode : v.computeAble = s.computeAble := congrArg (fun j => j.2.1) (kept.trans job)
        rw [leave_storeSize (mode.trans zero), off zero])
    n le
  exact ⟨u, ran, trace⟩

end

end SoftHier.Redmule
