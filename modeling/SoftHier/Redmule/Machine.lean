import SoftHier.Redmule.Model

/-!
# The state machine of the accelerator

The requests of the cores and the events of the accelerator's state machine, as functions on its
state.  What is fatal has no result.

* `req`, `coreAccReq`: a request on the memory-mapped port and on the core-accelerator port.
* `fsmHandler`: an event of the state machine, given the answer of the TCDM to the access it makes.
* `System.initial`, `System.step`: construction, and the requests and events, where an event needs
  to be enqueued.
-/

namespace SoftHier.Redmule

/-- The fields of the state machine. -/
structure Fsm where
  state : RedmuleState
  tcdmBlockTotal : Nat
  fsmCounter : Nat
  fsmTimestamp : Nat
  pendingReqQueue : List Nat
  deriving DecidableEq, Repr

/-- The accelerator, with the TCDM and the requests it has sent to it; `Q` is the type of the
requests that can be kept waiting. -/
structure Machine (Q : Type*) where
  regs : Regs
  computeAble : Nat
  tiles : Tiles
  iter : Iter
  access : Access
  data : Datapath
  fsm : Fsm
  redmuleQuery : Option Q
  numMatmul : Nat
  mem : Buffer
  trace : List TcdmReq

/-- How a request is answered: at once, later, or by the event that resumes request `q`. -/
inductive Answer (Q : Type*)
  | silent
  | ok
  | pending
  | resp (q : Q)
  deriving DecidableEq, Repr

/-- What a request or an event does: the new state, the latency of the event it enqueues, and the
answer. -/
structure Effect (Q : Type*) where
  machine : Machine Q
  enqueue : Option Nat
  answer : Answer Q

/-- A request to the accelerator. -/
structure IoReq where
  offset : Nat
  isWrite : Bool
  data : Buffer

/-- The answer of the TCDM, with the latency of the access. -/
inductive TcdmStatus
  | ok (latency : Nat)
  | error
  deriving DecidableEq, Repr

section

variable {Q : Type*} (A : Arch)

/-! ## Requests -/

/-- The cursor that `init_redmule_meta_data` leaves. -/
def initAccess (R : Regs) (a : Access) : Access :=
  { a with
    iterXAddr := R.xAddr
    iterWAddr := R.wAddr
    iterYAddr := R.yAddr
    iterZAddr := R.zAddr
    xAccBlock := 0
    wAccBlock := 0
    yAccBlock := 0
    zAccBlock := 0 }

/-- `init_redmule_meta_data` -/
def initRedmuleMetaData (s : Machine Q) : Machine Q :=
  { s with
    tiles := initTiles A s.regs
    iter := ⟨0, 0, 0⟩
    access := initAccess s.regs s.access
    data := { s.data with iterXRowPtr := 0, iterWRowPtr := 0, iterYRowPtr := 0, iterZRowPtr := 0 } }

/-- A divisor of `init_redmule_meta_data` is zero. -/
def DividesByZero (R : Regs) : Prop :=
  R.elemSize = 0 ∨ A.bufferN R.elemSize = 0 ∨ A.bufferH = 0 ∨ A.bufferW = 0

instance (R : Regs) : Decidable (DividesByZero A R) := inferInstanceAs (Decidable (_ ∨ _))

/-- The trigger that the three trigger requests share; a size of zero is fatal, and so is a
division by zero. -/
def trigger (s : Machine Q) : Option (Machine Q) :=
  if s.regs.mSize = 0 ∨ s.regs.nSize = 0 ∨ s.regs.kSize = 0 then none
  else if DividesByZero A s.regs then none
  else
    let s := initRedmuleMetaData A s
    let blocks := getPreloadAccessBlockNumber A s.regs s.access
    some { s with
      access := blocks.2
      fsm := { s.fsm with
        state := .preload, tcdmBlockTotal := blocks.1, fsmCounter := 0, fsmTimestamp := 0 } }

/-- A register is written through the memory-mapped port. -/
def writeReg (R : Regs) (offset value : Nat) : Regs :=
  match offset with
  | 0 => { R with mSize := value }
  | 4 => { R with nSize := value }
  | 8 => { R with kSize := value }
  | 12 => { R with xAddr := value }
  | 16 => { R with yAddr := value }
  | 20 => { R with zAddr := value }
  | 24 => { R with wAddr := value }
  | _ => R

/-- `req`: request `q` on the memory-mapped port. -/
def req (q : Q) (r : IoReq) (s : Machine Q) : Option (Effect Q) :=
  if r.isWrite = false ∧ r.offset = 32 ∧ s.redmuleQuery.isNone ∧ s.fsm.state = .idle then
    (trigger A s).map fun s =>
      ⟨{ s with computeAble := 0, redmuleQuery := some q }, some 1, .pending⟩
  else if r.isWrite = false ∧ r.offset = 36 ∧ s.fsm.state = .idle then
    (trigger A s).map fun s => ⟨{ s with computeAble := 0 }, some 1, .ok⟩
  else if r.isWrite = false ∧ r.offset = 40 ∧ s.redmuleQuery.isNone ∧ s.fsm.state ≠ .idle then
    some ⟨{ s with redmuleQuery := some q }, none, .pending⟩
  else some ⟨{ s with regs := writeReg s.regs r.offset (loadLe r.data 0 4).toNat }, none, .ok⟩

/-- The sizes that a core configures. -/
def configureMNK (r : IoReq) (s : Machine Q) : Machine Q :=
  { s with regs := { s.regs with
      mSize := (loadLe r.data 0 2).toNat
      nSize := (loadLe r.data 2 2).toNat
      kSize := (loadLe r.data 4 2).toNat } }

/-- The addresses and the mode that a core configures. -/
def configureXWY (r : IoReq) (s : Machine Q) : Machine Q :=
  let computeAble := (loadLe r.data 12 4).toNat
  { s with
    regs := { s.regs with
      xAddr := (loadLe r.data 0 4).toNat
      wAddr := (loadLe r.data 4 4).toNat
      yAddr := (loadLe r.data 8 4).toNat
      zAddr := (loadLe r.data 8 4).toNat
      elemSize := if computeAble < 4 then 2 else 1 }
    computeAble := computeAble }

/-- `core_acc_req`: a request on the core-accelerator port. -/
def coreAccReq (r : IoReq) (s : Machine Q) : Option (Effect Q) :=
  if r.offset = 0 then
    if s.fsm.state = .idle then some ⟨configureMNK r s, none, .ok⟩ else some ⟨s, none, .ok⟩
  else if r.offset = 4 then
    if s.fsm.state = .idle then
      (trigger A (configureXWY r s)).map fun s => ⟨s, some 1, .ok⟩
    else some ⟨s, none, .ok⟩
  else some ⟨s, none, .ok⟩

/-! ## Events -/

namespace Fsm

variable (f : Fsm)

/-- The time stamp advances at every event. -/
def tick : Fsm := { f with fsmTimestamp := u32 (f.fsmTimestamp + 1) }

/-- There is a block left to request and room for it in the queue. -/
def canSend (queueDepth : Nat) : Bool :=
  decide (f.fsmCounter < f.tcdmBlockTotal ∧ f.pendingReqQueue.length ≤ queueDepth)

/-- A request that is answered after `latency` cycles has been sent. -/
def push (latency : Nat) : Fsm :=
  { f with
    fsmCounter := u32 (f.fsmCounter + 1)
    pendingReqQueue := f.pendingReqQueue ++ [u32 (latency + f.fsmTimestamp)] }

/-- The answers that are due are received, oldest first. -/
def receive : Fsm :=
  { f with
    pendingReqQueue := f.pendingReqQueue.dropWhile fun stamp => decide (stamp ≤ f.fsmTimestamp) }

/-- All blocks of the phase have been requested and received. -/
def drained : Bool := decide (f.tcdmBlockTotal ≤ f.fsmCounter ∧ f.pendingReqQueue = [])

/-- The next phase begins. -/
def enter (state : RedmuleState) (total : Nat) : Fsm :=
  { f with state := state, tcdmBlockTotal := total, fsmCounter := 0, fsmTimestamp := 0 }

end Fsm

/-- `send_tcdm_req`: the memory and the access buffer after a request. -/
def sendTcdmReq (r : TcdmReq) (mem accessBuffer : Buffer) : Buffer × Buffer :=
  if r.isWrite then (memcpy mem r.addr accessBuffer 0 r.size, accessBuffer)
  else (mem, memcpy accessBuffer 0 mem r.addr r.size)

/-- `process_iter_instruction`, if the computation is enabled and `wanted`. -/
def process (s : Machine Q) (wanted : IterInstruction → Bool) (a : Access) (d : Datapath) :
    Datapath :=
  if s.computeAble ≠ 0 ∧ wanted a.iterInstruction then
    processIterInstruction A s.regs s.computeAble s.tiles s.iter s.fsm.state a d
  else d

/-- A request is formed and sent, its data processed `before` or `after` that. -/
def sendRequest (before after : IterInstruction → Bool) (s : Machine Q) : Option (Machine Q) :=
  (nextAddr A s.regs s.data.zStoreWidth s.access).map fun (r, a) =>
    let d := process A s before a s.data
    let sent := sendTcdmReq r s.mem d.accessBuffer
    { s with
      access := a
      data := process A s after a { d with accessBuffer := sent.2 }
      mem := sent.1
      trace := s.trace ++ [r] }

/-- The first half of an event in a phase with accesses: a request is sent if there is one, and
answers are received. -/
def accessPhase (before after : IterInstruction → Bool) (status : TcdmStatus) (s : Machine Q) :
    Option (Machine Q) :=
  if s.fsm.canSend A.queueDepth then
    match status with
    | .error => none
    | .ok latency => (sendRequest A before after s).map fun s =>
        { s with fsm := (s.fsm.push latency).receive }
  else some { s with fsm := s.fsm.receive }

/-- `INSTR_FORWARD_YZ` outside of an access, if the computation is enabled. -/
def forwardYZ (s : Machine Q) : Machine Q :=
  if s.computeAble ≠ 0 then
    let a := { s.access with iterInstruction := .forwardYZ }
    { s with
      access := a
      data := processIterInstruction A s.regs s.computeAble s.tiles s.iter s.fsm.state a s.data }
  else s

/-- A phase of an iteration begins. -/
def enterRoutine (s : Machine Q) : Machine Q :=
  let blocks := getRoutineAccessBlockNumber A s.regs s.tiles s.iter s.data.zStoreHeight s.access
  { s with access := blocks.2, fsm := s.fsm.enter .routine blocks.1 }

/-- The last phase begins. -/
def enterStoring (s : Machine Q) : Machine Q :=
  let blocks := getStoringAccessBlockNumber A s.regs s.tiles s.data.zStoreHeight s.access
  { s with access := blocks.2, fsm := s.fsm.enter .storing blocks.1 }

/-- The jump out of `PRELOAD`. -/
def leavePreload (s : Machine Q) : Machine Q := forwardYZ A (enterRoutine A s)

/-- `INSTR_FORWARD_YZ` at the end of the last iteration of a tile. -/
def forwardLast (s : Machine Q) : Machine Q :=
  if u32 (s.iter.k + 1) = s.tiles.xRowTiles then forwardYZ A s else s

/-- The next iteration, or the last phase. -/
def nextPhase (s : Machine Q) : Machine Q :=
  let next := nextIteration s.tiles s.iter
  if next.2 then enterStoring A { s with iter := next.1 }
  else enterRoutine A { s with iter := next.1 }

/-- The jump out of `ROUTINE`. -/
def leaveRoutine (s : Machine Q) : Machine Q := nextPhase A (forwardLast A s)

/-- The latency of the event that follows an iteration. -/
def routineLatency (s : Machine Q) : Nat :=
  let runtime := getRedmuleArrayRuntime A s.regs s.tiles s.iter
  let latency := if s.fsm.fsmTimestamp ≥ runtime then 1 else u32 (runtime - s.fsm.fsmTimestamp + 1)
  if (nextIteration s.tiles s.iter).2 then latency + getRoutineToStoringLatency A else latency

/-- The jump out of `STORING`. -/
def leaveStoring (s : Machine Q) : Machine Q :=
  { s with fsm := s.fsm.enter .finished 0, numMatmul := s.numMatmul + 1 }

/-- `instruction == INSTR_STOR_Z` -/
def isStorZ (instr : IterInstruction) : Bool := instr == .storZ

/-- `fsm_handler` -/
def fsmHandler (status : TcdmStatus) (s : Machine Q) : Option (Effect Q) :=
  let s := { s with fsm := s.fsm.tick }
  match s.fsm.state with
  | .idle => some ⟨s, none, .silent⟩
  | .preload =>
    (accessPhase A (fun _ => false) (fun _ => true) status s).map fun s =>
      ⟨if s.fsm.drained then leavePreload A s else s, some 1, .silent⟩
  | .routine =>
    (accessPhase A isStorZ (fun instr => !isStorZ instr) status s).map fun s =>
      if s.fsm.drained then ⟨leaveRoutine A s, some (routineLatency A s), .silent⟩
      else ⟨s, some 1, .silent⟩
  | .storing =>
    (accessPhase A isStorZ (fun _ => false) status s).map fun s =>
      ⟨if s.fsm.drained then leaveStoring s else s, some 1, .silent⟩
  | .finished =>
    some ⟨if s.redmuleQuery.isNone then s
      else { s with fsm := { s.fsm with state := .acknowledge } }, some 1, .silent⟩
  | .acknowledge => s.redmuleQuery.map fun q =>
      ⟨{ s with redmuleQuery := none, fsm := { s.fsm with state := .idle } }, none, .resp q⟩

end

/-! ## The system -/

/-- The accelerator, and whether its event is enqueued. -/
structure System (Q : Type*) where
  machine : Machine Q
  event : Bool

/-- The state after the constructor, which leaves the buffers uninitialised. -/
def System.initial {Q : Type*} (elemSize : Nat) (buffers : Datapath) (mem : Buffer) : System Q where
  machine :=
    { regs := ⟨4, 4, 4, 0, 0, 0, 0, elemSize⟩
      computeAble := 0
      tiles := ⟨0, 0, 0, 0, 0, 0, 0, 0, 0, 0, 0, 0⟩
      iter := ⟨0, 0, 0⟩
      access := ⟨0, 0, 0, 0, 0, 0, 0, 0, .loadY⟩
      data := { buffers with
        zStoreWidth := 0
        zStoreHeight := 0
        iterXRowPtr := 0
        iterWRowPtr := 0
        iterYRowPtr := 0
        iterZRowPtr := 0 }
      fsm := ⟨.idle, 0, 0, 0, []⟩
      redmuleQuery := none
      numMatmul := 0
      mem := mem
      trace := [] }
  event := false

/-- What happens to the accelerator: a request on either port, or its event. -/
inductive Input (Q : Type*)
  | mmio (q : Q) (r : IoReq)
  | coreAcc (r : IoReq)
  | fsm (status : TcdmStatus)

/-- One request or event. -/
def System.step {Q : Type*} (A : Arch) (s : System Q) : Input Q → Option (System Q × Answer Q)
  | .mmio q r =>
      (req A q r s.machine).map fun e => (⟨e.machine, s.event || e.enqueue.isSome⟩, e.answer)
  | .coreAcc r => (coreAccReq A r s.machine).map fun e =>
      (⟨e.machine, s.event || e.enqueue.isSome⟩, e.answer)
  | .fsm status =>
    if s.event then (fsmHandler A status s.machine).map fun e =>
      (⟨e.machine, e.enqueue.isSome⟩, e.answer)
    else none

end SoftHier.Redmule
