import SoftHier.Lib.Rows
import SoftHier.Redmule.Phases

/-!
# What the accesses of a phase do to the buffers

With the computation enabled, the accesses of a phase load rows of Y, W and X into their buffers,
compute once the W tile is there, and store rows of the previous Z tile.  The access buffer between
the TCDM and the other buffers, the trace and the counters of the state machine are left out.

* `View`, `View.next`: the cursor and the buffers, and an access on them.
* `accesses_view`: the accesses of a phase are those on the view.
* `nexts_loadY`, `nexts_loadW`, `nexts_loadX`, `nexts_storZ`: accesses to one matrix.
* `nexts_routine`, `nexts_copies`: all accesses of a phase.
-/

namespace SoftHier.Redmule

/-- What an access depends on but does not change. -/
structure Setting where
  regs : Regs
  computeAble : Nat
  tiles : Tiles
  iter : Iter
  state : RedmuleState
  zStoreWidth : Nat

/-- The cursor, the positions in the buffers, and the buffers with the TCDM. -/
structure View where
  xAddr : Nat
  wAddr : Nat
  yAddr : Nat
  zAddr : Nat
  xBlocks : Nat
  wBlocks : Nat
  yBlocks : Nat
  zBlocks : Nat
  xPtr : Nat
  wPtr : Nat
  yPtr : Nat
  zPtr : Nat
  x : Buffer
  w : Buffer
  y : Buffer
  z : Buffer
  zPrevios : Buffer
  mem : Buffer

section

variable {Q : Type*} (A : Arch)

def Machine.setting (s : Machine Q) : Setting :=
  ⟨s.regs, s.computeAble, s.tiles, s.iter, s.fsm.state, s.data.zStoreWidth⟩

def Machine.view (s : Machine Q) : View where
  xAddr := s.access.iterXAddr
  wAddr := s.access.iterWAddr
  yAddr := s.access.iterYAddr
  zAddr := s.access.iterZAddr
  xBlocks := s.access.xAccBlock
  wBlocks := s.access.wAccBlock
  yBlocks := s.access.yAccBlock
  zBlocks := s.access.zAccBlock
  xPtr := s.data.iterXRowPtr
  wPtr := s.data.iterWRowPtr
  yPtr := s.data.iterYRowPtr
  zPtr := s.data.iterZRowPtr
  x := s.data.xBuffer
  w := s.data.wBuffer
  y := s.data.yBufferPreload
  z := s.data.zBufferCompute
  zPrevios := s.data.zBufferPrevios
  mem := s.mem

/-- `process_compute` on the buffers. -/
def compute (R : Regs) (computeAble : Nat) (z x w : Buffer) : Buffer :=
  processCompute A R computeAble ⟨0, 0, 0, 0, 0, 0, z, z, w, x, z, z⟩

/-- An access, with its data in the buffers. -/
def View.next (c : Setting) (v : View) : Option View :=
  let R := c.regs
  let wByte := A.bufferWByte R.elemSize
  if v.yBlocks > 0 then some { v with
    yAddr := incAddr A R v.yAddr R.kSize A.bufferW
    yBlocks := v.yBlocks - 1
    yPtr := if v.yBlocks - 1 = 0 then 0 else u32 (v.yPtr + wByte)
    y := memcpy v.y v.yPtr v.mem v.yAddr (yCutoff A R c.tiles c.iter c.state) }
  else if v.wBlocks > 0 then
    let w := memcpy v.w v.wPtr v.mem v.wAddr (wCutoff A R c.iter)
    if v.wBlocks - 1 = 0 then some { v with
      wAddr := incAddr A R v.wAddr R.kSize A.bufferW
      wBlocks := v.wBlocks - 1
      wPtr := 0
      x := memzero v.x (u32 (A.ceHeight * A.bandwidth))
      w := memzero w (u32 (A.bufferW * A.bandwidth))
      z := compute A R c.computeAble v.z v.x w }
    else some { v with
      wAddr := incAddr A R v.wAddr R.kSize A.bufferW
      wBlocks := v.wBlocks - 1
      wPtr := u32 (v.wPtr + wByte)
      w := w }
  else if v.xBlocks > 0 then some { v with
    xAddr := incAddr A R v.xAddr R.nSize (A.bufferN R.elemSize)
    xBlocks := v.xBlocks - 1
    xPtr := if v.xBlocks - 1 = 0 then 0 else u32 (v.xPtr + A.bufferNByte)
    x := memcpy v.x v.xPtr v.mem v.xAddr (xCutoff A R c.tiles c.iter c.state) }
  else if v.zBlocks > 0 then some { v with
    zAddr := incAddr A R v.zAddr R.kSize A.bufferW
    zBlocks := v.zBlocks - 1
    zPtr := if v.zBlocks - 1 = 0 then 0 else u32 (v.zPtr + wByte)
    mem := memcpy v.mem v.zAddr v.zPrevios v.zPtr (u32 (c.zStoreWidth * R.elemSize)) }
  else none

/-- The next `n` accesses. -/
def View.nexts (c : Setting) : Nat → View → Option View
  | 0, v => some v
  | n + 1, v => (v.next A c).bind (nexts c n)

end

section

variable {Q : Type*} {A : Arch} {s s' u : Machine Q}

/-- The phase makes no accesses that its state does not process. -/
structure Phased (c : Setting) (v : View) : Prop where
  enabled : c.computeAble ≠ 0
  preload : c.state = .preload → v.wBlocks = 0 ∧ v.zBlocks = 0
  storing : c.state = .storing → v.yBlocks = 0 ∧ v.wBlocks = 0 ∧ v.xBlocks = 0
  active : c.state.active = true

/-- The last phase loads nothing. -/
theorem Phased.ne_storing {c : Setting} {v : View} (phased : Phased c v)
    (loads : 0 < v.yBlocks + v.wBlocks + v.xBlocks) : c.state ≠ .storing := by
  intro storing
  obtain ⟨y, w, x⟩ := phased.storing storing
  omega

/-- The widths of the rows fit into the access buffer. -/
theorem yCutoff_le {R : Regs} {T : Tiles} {it : Iter} {state : RedmuleState} :
    yCutoff A R T it state ≤ u32 (A.bufferW * R.elemSize) := Nat.min_le_right _ _

theorem wCutoff_le {R : Regs} {it : Iter} : wCutoff A R it ≤ u32 (A.bufferW * R.elemSize) :=
  Nat.min_le_right _ _

theorem xCutoff_le {R : Regs} {T : Tiles} {it : Iter} {state : RedmuleState} :
    xCutoff A R T it state ≤ A.bandwidth := Nat.min_le_right _ _

theorem process_of_wanted {wanted : IterInstruction → Bool} {a : Access} {d : Datapath}
    (enabled : s.computeAble ≠ 0) (wants : wanted a.iterInstruction = true) :
    process A s wanted a d =
      processIterInstruction A s.regs s.computeAble s.tiles s.iter s.fsm.state a d := by
  unfold process
  rw [if_pos ⟨enabled, wants⟩]

theorem process_of_unwanted {wanted : IterInstruction → Bool} {a : Access} {d : Datapath}
    (unwanted : wanted a.iterInstruction = false) : process A s wanted a d = d := by
  unfold process
  rw [if_neg fun both => by rw [unwanted] at both; cases both.2]

theorem processedBefore_load {state : RedmuleState} {instr : IterInstruction}
    (load : instr ≠ .storZ) :
    processedBefore state instr = false := by
  have other : isStorZ instr = false := beq_false_of_ne load
  cases state with
  | preload => rfl
  | _ => exact other

theorem processedAfter_load {state : RedmuleState} {instr : IterInstruction}
    (active : state.active = true) (loads : state ≠ .storing) (load : instr ≠ .storZ) :
    processedAfter state instr = true := by
  have other : isStorZ instr = false := beq_false_of_ne load
  cases state with
  | preload => rfl
  | routine => exact congrArg not other
  | storing => exact absurd rfl loads
  | _ => cases active

theorem processedBefore_store {state : RedmuleState} (stores : state ≠ .preload) :
    processedBefore state .storZ = true := by
  cases state with
  | preload => exact absurd rfl stores
  | _ => rfl

theorem processedAfter_store {state : RedmuleState} (stores : state ≠ .preload) :
    processedAfter state .storZ = false := by
  cases state with
  | preload => exact absurd rfl stores
  | _ => rfl

/-- A load: the data is processed after the request. -/
theorem sendRequest_load {r : TcdmReq} {a : Access} (enabled : s.computeAble ≠ 0)
    (active : s.fsm.state.active = true) (loads : s.fsm.state ≠ .storing)
    (next : nextAddr A s.regs s.data.zStoreWidth s.access = some (r, a)) (read : r.isWrite = false)
    (load : a.iterInstruction ≠ .storZ) :
    sendRequest A (processedBefore s.fsm.state) (processedAfter s.fsm.state) s = some { s with
      access := a
      data := processIterInstruction A s.regs s.computeAble s.tiles s.iter s.fsm.state a
        { s.data with accessBuffer := memcpy s.data.accessBuffer 0 s.mem r.addr r.size }
      trace := s.trace ++ [r] } := by
  unfold sendRequest
  rw [next, Option.map_some]
  dsimp only
  rw [process_of_unwanted (processedBefore_load load), process_of_wanted enabled
    (processedAfter_load active loads load)]
  unfold sendTcdmReq
  rw [read]
  rfl

/-- A store: the data is processed before the request. -/
theorem sendRequest_store {r : TcdmReq} {a : Access} (enabled : s.computeAble ≠ 0)
    (stores : s.fsm.state ≠ .preload)
    (next : nextAddr A s.regs s.data.zStoreWidth s.access = some (r, a)) (write : r.isWrite = true)
    (store : a.iterInstruction = .storZ) :
    sendRequest A (processedBefore s.fsm.state) (processedAfter s.fsm.state) s = some { s with
      access := a
      data := processIterInstruction A s.regs s.computeAble s.tiles s.iter s.fsm.state a s.data
      mem := memcpy s.mem r.addr (processIterInstruction A s.regs s.computeAble s.tiles s.iter
        s.fsm.state a s.data).accessBuffer 0 r.size
      trace := s.trace ++ [r] } := by
  have before : process A s (processedBefore s.fsm.state) a s.data =
      processIterInstruction A s.regs s.computeAble s.tiles s.iter s.fsm.state a s.data :=
    process_of_wanted enabled (by rw [store]; exact processedBefore_store stores)
  have after : ∀ d, process A s (processedAfter s.fsm.state) a d = d := fun d =>
    process_of_unwanted (by rw [store]; exact processedAfter_store stores)
  unfold sendRequest
  rw [next, Option.map_some]
  dsimp only
  rw [after, before]
  unfold sendTcdmReq
  rw [write]
  rfl

theorem compute_eq {R : Regs} {mode : Nat} {d : Datapath} :
    processCompute A R mode d = compute A R mode d.zBufferCompute d.xBuffer d.wBuffer := rfl

/-- An access is one on the view. -/
theorem sendRequest_view (phased : Phased s.setting s.view)
    (stored : 0 < s.view.zBlocks →
      u32 (s.data.zStoreWidth * s.regs.elemSize) ≤ A.bufferWByte s.regs.elemSize)
    (sent : sendRequest A (processedBefore s.fsm.state) (processedAfter s.fsm.state) s = some s') :
    s.view.next A s.setting = some s'.view ∧ s'.setting = s.setting := by
  obtain ⟨⟨r, a⟩, next, -⟩ := Option.map_eq_some_iff.mp sent
  have whole := next
  unfold View.next
  obtain ⟨y, hy, rfl, rfl⟩ | ⟨hy, w, hw, rfl, rfl⟩ | ⟨hy, hw, x, hx, rfl, rfl⟩ |
    ⟨hy, hw, hx, z, hz, rfl, rfl⟩ := nextAddr_cases next
  · have yBlocks : s.view.yBlocks = y + 1 := hy
    have loads : s.fsm.state ≠ .storing := phased.ne_storing (by omega)
    rw [sendRequest_load phased.enabled phased.active loads whole rfl (by nofun)] at sent
    obtain rfl := Option.some.inj sent
    rw [yBlocks, if_pos (Nat.succ_pos y)]
    refine ⟨?_, rfl⟩
    unfold Machine.view processIterInstruction
    dsimp only
    rw [memcpy_memcpy yCutoff_le]
    rfl
  · have yBlocks : s.view.yBlocks = 0 := hy
    have wBlocks : s.view.wBlocks = w + 1 := hw
    have loads : s.fsm.state ≠ .storing := phased.ne_storing (by omega)
    rw [sendRequest_load phased.enabled phased.active loads whole rfl
      (by dsimp only; split <;> nofun)] at sent
    obtain rfl := Option.some.inj sent
    rw [yBlocks, wBlocks, if_neg (Nat.lt_irrefl 0), if_pos (Nat.succ_pos w), Nat.add_sub_cancel]
    unfold Machine.view processIterInstruction
    dsimp only
    rw [memcpy_memcpy wCutoff_le]
    cases w with
    | zero =>
      rw [if_pos rfl, if_pos rfl, compute_eq, hy]
      exact ⟨rfl, rfl⟩
    | succ w =>
      rw [if_neg (Nat.succ_ne_zero w), if_neg (Nat.succ_ne_zero w), hy]
      exact ⟨rfl, rfl⟩
  · have yBlocks : s.view.yBlocks = 0 := hy
    have wBlocks : s.view.wBlocks = 0 := hw
    have xBlocks : s.view.xBlocks = x + 1 := hx
    have loads : s.fsm.state ≠ .storing := phased.ne_storing (by omega)
    rw [sendRequest_load phased.enabled phased.active loads whole rfl (by nofun)] at sent
    obtain rfl := Option.some.inj sent
    rw [yBlocks, wBlocks, xBlocks, if_neg (Nat.lt_irrefl 0), if_neg (Nat.lt_irrefl 0),
      if_pos (Nat.succ_pos x)]
    refine ⟨?_, rfl⟩
    unfold Machine.view processIterInstruction
    dsimp only
    rw [memcpy_memcpy xCutoff_le, hy, hw]
    rfl
  · have yBlocks : s.view.yBlocks = 0 := hy
    have wBlocks : s.view.wBlocks = 0 := hw
    have xBlocks : s.view.xBlocks = 0 := hx
    have zBlocks : s.view.zBlocks = z + 1 := hz
    have stores : s.fsm.state ≠ .preload := fun preload => by
      have none := (phased.preload preload).2
      omega
    rw [sendRequest_store phased.enabled stores whole rfl rfl] at sent
    obtain rfl := Option.some.inj sent
    rw [yBlocks, wBlocks, xBlocks, zBlocks, if_neg (Nat.lt_irrefl 0), if_neg (Nat.lt_irrefl 0),
      if_neg (Nat.lt_irrefl 0), if_pos (Nat.succ_pos z)]
    refine ⟨?_, rfl⟩
    unfold Machine.view processIterInstruction
    dsimp only
    rw [memcpy_memcpy (stored (zBlocks ▸ Nat.succ_pos z)), hy, hw, hx]
    rfl

variable {c : Setting} {v v' : View}

/-- An access takes a block of one matrix. -/
theorem next_blocks (next : v.next A c = some v') :
    v'.yBlocks ≤ v.yBlocks ∧ v'.wBlocks ≤ v.wBlocks ∧ v'.xBlocks ≤ v.xBlocks ∧
      v'.zBlocks ≤ v.zBlocks := by
  unfold View.next at next
  dsimp only at next
  split at next
  · obtain rfl := Option.some.inj next
    exact ⟨Nat.sub_le _ _, Nat.le_refl _, Nat.le_refl _, Nat.le_refl _⟩
  · split at next
    · split at next <;> obtain rfl := Option.some.inj next <;>
        exact ⟨Nat.le_refl _, Nat.sub_le _ _, Nat.le_refl _, Nat.le_refl _⟩
    · split at next
      · obtain rfl := Option.some.inj next
        exact ⟨Nat.le_refl _, Nat.le_refl _, Nat.sub_le _ _, Nat.le_refl _⟩
      · split at next
        · obtain rfl := Option.some.inj next
          exact ⟨Nat.le_refl _, Nat.le_refl _, Nat.le_refl _, Nat.sub_le _ _⟩
        · cases next

theorem Phased.next (phased : Phased c v) (next : v.next A c = some v') : Phased c v' := by
  obtain ⟨y, w, x, z⟩ := next_blocks next
  refine ⟨phased.enabled, fun preload => ?_, fun storing => ?_, phased.active⟩
  · have none := phased.preload preload
    omega
  · have none := phased.storing storing
    omega

/-- The accesses of a phase are those on its view. -/
theorem accesses_view {n : Nat} (phased : Phased s.setting s.view)
    (stored : 0 < s.view.zBlocks →
      u32 (s.data.zStoreWidth * s.regs.elemSize) ≤ A.bufferWByte s.regs.elemSize)
    (ran : accesses A n s = some u) :
    s.view.nexts A s.setting n = some u.view ∧ u.setting = s.setting := by
  induction n generalizing s with
  | zero =>
    obtain rfl := Option.some.inj ran
    exact ⟨rfl, rfl⟩
  | succ n ih =>
    obtain ⟨sent, made, ran'⟩ := Option.bind_eq_some_iff.mp ran
    obtain ⟨next, setting⟩ := sendRequest_view phased stored made
    have regs : sent.regs = s.regs := congrArg Setting.regs setting
    have width : sent.data.zStoreWidth = s.data.zStoreWidth := congrArg Setting.zStoreWidth setting
    have left := (next_blocks next).2.2.2
    obtain ⟨rest, setting'⟩ := ih (by rw [setting]; exact phased.next next)
      (fun pos => by rw [regs, width]; exact stored (by omega)) ran'
    refine ⟨?_, setting'.trans setting⟩
    rw [View.nexts, next, Option.bind_some, ← setting]
    exact rest

/-! ## All accesses to one matrix -/

/-- The address of row `i` from the first one. -/
def rowAt (base step i : Nat) : Nat := u32 (base + i * step)

theorem rowAt_zero {base step : Nat} (small : base < 2 ^ 32) : rowAt base step 0 = base := by
  unfold rowAt
  rw [Nat.zero_mul, Nat.add_zero, u32_of_lt small]

theorem rowAt_succ (base step i : Nat) :
    u32 (rowAt base step i + step) = rowAt base step (i + 1) := by
  unfold rowAt u32
  rw [Nat.mod_add_mod, Nat.succ_mul, Nat.add_assoc]

theorem rowAt_u32 (base step i : Nat) : rowAt (u32 base) step i = rowAt base step i := by
  unfold rowAt u32
  rw [Nat.mod_add_mod]

/-- The address of the cursor after `n` rows. -/
def cursorAt (base step n : Nat) : Nat := if n = 0 then base else rowAt base step n

theorem cursorAt_of_lt {base step n : Nat} (small : base < 2 ^ 32) :
    cursorAt base step n = rowAt base step n := by
  unfold cursorAt
  split
  · rename_i first
    rw [first, rowAt_zero small]
  · rfl

theorem cursorAt_succ (base step n : Nat) : cursorAt base step (n + 1) = rowAt base step (n + 1) :=
  if_neg (Nat.succ_ne_zero n)

/-- The distance of two rows of a matrix. -/
def rowStep (A : Arch) (R : Regs) (stride tileRow : Nat) : Nat :=
  (if A.foldTilesMapping then tileRow else stride) * R.elemSize

theorem incAddr_eq (R : Regs) (addr stride tileRow : Nat) :
    incAddr A R addr stride tileRow = u32 (addr + rowStep A R stride tileRow) := by
  unfold incAddr rowStep
  split <;> rfl

theorem nexts_add (n m : Nat) (v : View) :
    v.nexts A c (n + m) = (v.nexts A c n).bind (View.nexts A c m) := by
  induction n generalizing v with
  | zero => rw [Nat.zero_add, View.nexts, Option.bind_some]
  | succ n ih =>
    rw [Nat.succ_add, View.nexts, View.nexts, Option.bind_assoc]
    exact Option.bind_congr fun v' _ => ih v'

theorem nexts_succ (n : Nat) (v : View) :
    v.nexts A c (n + 1) = (v.nexts A c n).bind (View.next A c) := by
  rw [nexts_add]
  refine Option.bind_congr fun v' _ => ?_
  rw [View.nexts]
  cases v'.next A c with
  | none => rfl
  | some v'' => rfl

theorem nexts_loadY {n : Nat} (le : n ≤ v.yBlocks) (ptr : v.yPtr = 0)
    (addr : 0 < v.yBlocks → v.yAddr < 2 ^ 32) :
    v.nexts A c n = some { v with
      yAddr := cursorAt v.yAddr (rowStep A c.regs c.regs.kSize A.bufferW) n
      yBlocks := v.yBlocks - n
      yPtr := if v.yBlocks - n = 0 then 0 else rowAt 0 (A.bufferWByte c.regs.elemSize) n
      y := copyRows v.y (rowAt 0 (A.bufferWByte c.regs.elemSize)) v.mem
        (rowAt v.yAddr (rowStep A c.regs c.regs.kSize A.bufferW))
        (yCutoff A c.regs c.tiles c.iter c.state) n } := by
  induction n with
  | zero =>
    have same : v = { v with yPtr := 0 } := by rw [← ptr]
    rw [rowAt_zero (Nat.two_pow_pos 32), ite_self]
    exact congrArg some same
  | succ n ih =>
    have left : v.yBlocks - n > 0 := by omega
    have next : v.yBlocks - n - 1 = v.yBlocks - (n + 1) := by omega
    rw [nexts_succ, ih (Nat.le_of_succ_le le), cursorAt_of_lt (addr (by omega)), cursorAt_succ,
      Option.bind_some]
    unfold View.next
    dsimp only
    rw [if_pos left, if_neg (Nat.ne_of_gt left), next, incAddr_eq, rowAt_succ, rowAt_succ]
    rfl

theorem nexts_loadX {n : Nat} (noY : v.yBlocks = 0) (noW : v.wBlocks = 0) (le : n ≤ v.xBlocks)
    (ptr : v.xPtr = 0) (addr : 0 < v.xBlocks → v.xAddr < 2 ^ 32) :
    v.nexts A c n = some { v with
      xAddr := cursorAt v.xAddr (rowStep A c.regs c.regs.nSize (A.bufferN c.regs.elemSize)) n
      xBlocks := v.xBlocks - n
      xPtr := if v.xBlocks - n = 0 then 0 else rowAt 0 A.bufferNByte n
      x := copyRows v.x (rowAt 0 A.bufferNByte) v.mem
        (rowAt v.xAddr (rowStep A c.regs c.regs.nSize (A.bufferN c.regs.elemSize)))
        (xCutoff A c.regs c.tiles c.iter c.state) n } := by
  induction n with
  | zero =>
    have same : v = { v with xPtr := 0 } := by rw [← ptr]
    rw [rowAt_zero (Nat.two_pow_pos 32), ite_self]
    exact congrArg some same
  | succ n ih =>
    have left : v.xBlocks - n > 0 := by omega
    have next : v.xBlocks - n - 1 = v.xBlocks - (n + 1) := by omega
    rw [nexts_succ, ih (Nat.le_of_succ_le le), cursorAt_of_lt (addr (by omega)), cursorAt_succ,
      Option.bind_some]
    unfold View.next
    dsimp only
    rw [noY, noW, if_neg (Nat.lt_irrefl 0), if_neg (Nat.lt_irrefl 0), if_pos left,
      if_neg (Nat.ne_of_gt left), next, incAddr_eq, rowAt_succ, rowAt_succ]
    rfl

theorem nexts_storZ {n : Nat} (noY : v.yBlocks = 0) (noW : v.wBlocks = 0) (noX : v.xBlocks = 0)
    (le : n ≤ v.zBlocks) (ptr : v.zPtr = 0) (addr : 0 < v.zBlocks → v.zAddr < 2 ^ 32) :
    v.nexts A c n = some { v with
      zAddr := cursorAt v.zAddr (rowStep A c.regs c.regs.kSize A.bufferW) n
      zBlocks := v.zBlocks - n
      zPtr := if v.zBlocks - n = 0 then 0 else rowAt 0 (A.bufferWByte c.regs.elemSize) n
      mem := copyRows v.mem (rowAt v.zAddr (rowStep A c.regs c.regs.kSize A.bufferW)) v.zPrevios
        (rowAt 0 (A.bufferWByte c.regs.elemSize)) (u32 (c.zStoreWidth * c.regs.elemSize)) n } := by
  induction n with
  | zero =>
    have same : v = { v with zPtr := 0 } := by rw [← ptr]
    rw [rowAt_zero (Nat.two_pow_pos 32), ite_self]
    exact congrArg some same
  | succ n ih =>
    have left : v.zBlocks - n > 0 := by omega
    have next : v.zBlocks - n - 1 = v.zBlocks - (n + 1) := by omega
    rw [nexts_succ, ih (Nat.le_of_succ_le le), cursorAt_of_lt (addr (by omega)), cursorAt_succ,
      Option.bind_some]
    unfold View.next
    dsimp only
    rw [noY, noW, noX, if_neg (Nat.lt_irrefl 0), if_neg (Nat.lt_irrefl 0), if_neg (Nat.lt_irrefl 0),
      if_pos left, if_neg (Nat.ne_of_gt left), next, incAddr_eq, rowAt_succ, rowAt_succ]
    rfl

/-- All rows of W but the last one. -/
theorem nexts_loadW {n : Nat} (noY : v.yBlocks = 0) (less : n < v.wBlocks) (ptr : v.wPtr = 0)
    (addr : v.wAddr < 2 ^ 32) :
    v.nexts A c n = some { v with
      wAddr := rowAt v.wAddr (rowStep A c.regs c.regs.kSize A.bufferW) n
      wBlocks := v.wBlocks - n
      wPtr := rowAt 0 (A.bufferWByte c.regs.elemSize) n
      w := copyRows v.w (rowAt 0 (A.bufferWByte c.regs.elemSize)) v.mem
        (rowAt v.wAddr (rowStep A c.regs c.regs.kSize A.bufferW)) (wCutoff A c.regs c.iter)
          n } := by
  induction n with
  | zero =>
    have same : v = { v with wPtr := 0 } := by rw [← ptr]
    rw [rowAt_zero addr, rowAt_zero (Nat.two_pow_pos 32)]
    exact congrArg some same
  | succ n ih =>
    have left : v.wBlocks - n > 0 := by omega
    have more : v.wBlocks - (n + 1) ≠ 0 := by omega
    have next : v.wBlocks - n - 1 = v.wBlocks - (n + 1) := by omega
    rw [nexts_succ, ih (Nat.lt_of_succ_lt less), Option.bind_some]
    unfold View.next
    dsimp only
    rw [noY, if_neg (Nat.lt_irrefl 0), if_pos left, next, if_neg more, incAddr_eq, rowAt_succ,
      rowAt_succ]
    rfl

/-! ## All accesses of a phase -/

section

variable (A) (c) (v)

/-- All rows of Y are loaded. -/
def View.loadedY : View := { v with
  yAddr := cursorAt v.yAddr (rowStep A c.regs c.regs.kSize A.bufferW) v.yBlocks
  yBlocks := 0
  yPtr := 0
  y := copyRows v.y (rowAt 0 (A.bufferWByte c.regs.elemSize)) v.mem
    (rowAt v.yAddr (rowStep A c.regs c.regs.kSize A.bufferW))
    (yCutoff A c.regs c.tiles c.iter c.state) v.yBlocks }

/-- The W tile before the computation. -/
def View.loadedW : Buffer :=
  copyRows v.w (rowAt 0 (A.bufferWByte c.regs.elemSize)) v.mem
    (rowAt v.wAddr (rowStep A c.regs c.regs.kSize A.bufferW)) (wCutoff A c.regs c.iter) v.wBlocks

/-- All rows of W are loaded and the computation is done. -/
def View.computed : View := { v with
  wAddr := rowAt v.wAddr (rowStep A c.regs c.regs.kSize A.bufferW) v.wBlocks
  wBlocks := 0
  wPtr := 0
  x := memzero v.x (u32 (A.ceHeight * A.bandwidth))
  w := memzero (v.loadedW A c) (u32 (A.bufferW * A.bandwidth))
  z := compute A c.regs c.computeAble v.z v.x (v.loadedW A c) }

/-- All rows of X are loaded. -/
def View.loadedX : View := { v with
  xAddr := cursorAt v.xAddr (rowStep A c.regs c.regs.nSize (A.bufferN c.regs.elemSize)) v.xBlocks
  xBlocks := 0
  xPtr := 0
  x := copyRows v.x (rowAt 0 A.bufferNByte) v.mem
    (rowAt v.xAddr (rowStep A c.regs c.regs.nSize (A.bufferN c.regs.elemSize)))
    (xCutoff A c.regs c.tiles c.iter c.state) v.xBlocks }

/-- All rows of Z are stored. -/
def View.storedZ : View := { v with
  zAddr := cursorAt v.zAddr (rowStep A c.regs c.regs.kSize A.bufferW) v.zBlocks
  zBlocks := 0
  zPtr := 0
  mem := copyRows v.mem (rowAt v.zAddr (rowStep A c.regs c.regs.kSize A.bufferW)) v.zPrevios
    (rowAt 0 (A.bufferWByte c.regs.elemSize)) (u32 (c.zStoreWidth * c.regs.elemSize)) v.zBlocks }

end

/-- The positions in the buffers are at their starts. -/
structure View.Rewound (v : View) : Prop where
  xPtr : v.xPtr = 0
  wPtr : v.wPtr = 0
  yPtr : v.yPtr = 0
  zPtr : v.zPtr = 0

/-- The rows that are accessed begin at addresses of 32 bits. -/
structure View.Small (v : View) : Prop where
  x : 0 < v.xBlocks → v.xAddr < 2 ^ 32
  w : 0 < v.wBlocks → v.wAddr < 2 ^ 32
  y : 0 < v.yBlocks → v.yAddr < 2 ^ 32
  z : 0 < v.zBlocks → v.zAddr < 2 ^ 32

theorem nexts_loadedY (ptr : v.yPtr = 0) (addr : 0 < v.yBlocks → v.yAddr < 2 ^ 32) :
    v.nexts A c v.yBlocks = some (v.loadedY A c) := by
  rw [nexts_loadY (Nat.le_refl _) ptr addr, Nat.sub_self, if_pos rfl]
  rfl

theorem nexts_loadedX (noY : v.yBlocks = 0) (noW : v.wBlocks = 0) (ptr : v.xPtr = 0)
    (addr : 0 < v.xBlocks → v.xAddr < 2 ^ 32) : v.nexts A c v.xBlocks = some (v.loadedX A c) := by
  rw [nexts_loadX noY noW (Nat.le_refl _) ptr addr, Nat.sub_self, if_pos rfl]
  rfl

theorem nexts_storedZ (noY : v.yBlocks = 0) (noW : v.wBlocks = 0) (noX : v.xBlocks = 0)
    (ptr : v.zPtr = 0) (addr : 0 < v.zBlocks → v.zAddr < 2 ^ 32) :
    v.nexts A c v.zBlocks = some (v.storedZ A c) := by
  rw [nexts_storZ noY noW noX (Nat.le_refl _) ptr addr, Nat.sub_self, if_pos rfl]
  rfl

/-- The last row of W starts the computation, which clears the tiles. -/
theorem nexts_computed (noY : v.yBlocks = 0) (pos : 0 < v.wBlocks) (ptr : v.wPtr = 0)
    (addr : v.wAddr < 2 ^ 32) : v.nexts A c v.wBlocks = some (v.computed A c) := by
  obtain ⟨n, whole⟩ := Nat.exists_eq_add_one_of_ne_zero (Nat.ne_of_gt pos)
  have left : v.wBlocks - n > 0 := by omega
  have last : v.wBlocks - n - 1 = 0 := by omega
  have previous := nexts_loadW (A := A) (c := c) (n := n) noY (by omega) ptr addr
  have all : v.nexts A c v.wBlocks = (v.nexts A c n).bind (View.next A c) := by
    rw [whole, nexts_succ]
  have rows : memcpy (copyRows v.w (rowAt 0 (A.bufferWByte c.regs.elemSize)) v.mem
      (rowAt v.wAddr (rowStep A c.regs c.regs.kSize A.bufferW)) (wCutoff A c.regs c.iter) n)
      (rowAt 0 (A.bufferWByte c.regs.elemSize) n) v.mem
      (rowAt v.wAddr (rowStep A c.regs c.regs.kSize A.bufferW) n) (wCutoff A c.regs c.iter) =
        v.loadedW A c := by
    unfold View.loadedW
    rw [whole, copyRows]
  rw [all, previous, Option.bind_some]
  unfold View.next
  dsimp only
  rw [noY, if_neg (Nat.lt_irrefl 0), if_pos left, last, if_pos rfl, incAddr_eq, rowAt_succ, ← whole,
    rows]
  unfold View.computed
  rw [noY]

/-- The accesses of a phase with rows of W. -/
theorem nexts_routine (rewound : v.Rewound) (small : v.Small) (pos : 0 < v.wBlocks) :
    v.nexts A c (v.yBlocks + v.wBlocks + v.xBlocks + v.zBlocks) =
      some ((((v.loadedY A c).computed A c).loadedX A c).storedZ A c) := by
  have w : (v.loadedY A c).nexts A c v.wBlocks = some ((v.loadedY A c).computed A c) :=
    nexts_computed (v := v.loadedY A c) rfl pos rewound.wPtr (small.w pos)
  have x : ((v.loadedY A c).computed A c).nexts A c v.xBlocks =
      some (((v.loadedY A c).computed A c).loadedX A c) :=
    nexts_loadedX (v := (v.loadedY A c).computed A c) rfl rfl rewound.xPtr small.x
  have z : (((v.loadedY A c).computed A c).loadedX A c).nexts A c v.zBlocks =
      some ((((v.loadedY A c).computed A c).loadedX A c).storedZ A c) :=
    nexts_storedZ (v := ((v.loadedY A c).computed A c).loadedX A c) rfl rfl rfl rewound.zPtr small.z
  rw [nexts_add, nexts_add, nexts_add, nexts_loadedY rewound.yPtr small.y, Option.bind_some, w,
    Option.bind_some, x, Option.bind_some, z]

/-- The accesses of a phase without rows of W. -/
theorem nexts_copies (rewound : v.Rewound) (small : v.Small) (noW : v.wBlocks = 0) :
    v.nexts A c (v.yBlocks + v.xBlocks + v.zBlocks) =
      some (((v.loadedY A c).loadedX A c).storedZ A c) := by
  have x : (v.loadedY A c).nexts A c v.xBlocks = some ((v.loadedY A c).loadedX A c) :=
    nexts_loadedX (v := v.loadedY A c) rfl noW rewound.xPtr small.x
  have z : ((v.loadedY A c).loadedX A c).nexts A c v.zBlocks =
      some (((v.loadedY A c).loadedX A c).storedZ A c) :=
    nexts_storedZ (v := (v.loadedY A c).loadedX A c) rfl noW rfl rewound.zPtr small.z
  rw [nexts_add, nexts_add, nexts_loadedY rewound.yPtr small.y, Option.bind_some, x,
    Option.bind_some, z]

end

end SoftHier.Redmule
