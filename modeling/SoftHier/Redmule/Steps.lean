import SoftHier.Redmule.Machine

/-!
# What one step does

The inversion lemmas of the accelerator's requests and events; no later module unfolds `fsmHandler`.

* `nextAddr_cases`: an access.
* `accessPhase_cases`: the first half of an event.
* `fsmHandler_idle`, `fsmHandler_preload`, …: the event in each state.
* `Machine.job`, `fsmHandler_job`: what no event changes.
* `trigger_eq`, `req_cases`, `coreAccReq_cases`: the requests.
-/

namespace SoftHier.Redmule

variable {Q : Type*} {A : Arch} {s s' : Machine Q} {e : Effect Q}

/-! ## Accesses -/

/-- The next access: a row of Y, else of W, else of X, else of Z. -/
theorem nextAddr_cases {R : Regs} {zStoreWidth : Nat} {a a' : Access} {r : TcdmReq}
    (next : nextAddr A R zStoreWidth a = some (r, a')) :
    (∃ y, a.yAccBlock = y + 1 ∧ r = ⟨a.iterYAddr, u32 (A.bufferW * R.elemSize), false⟩ ∧
        a' = { a with
          iterYAddr := incAddr A R a.iterYAddr R.kSize A.bufferW
          yAccBlock := y
          iterInstruction := .loadY }) ∨
      (a.yAccBlock = 0 ∧ ∃ w, a.wAccBlock = w + 1 ∧
        r = ⟨a.iterWAddr, u32 (A.bufferW * R.elemSize), false⟩ ∧
        a' = { a with
          iterWAddr := incAddr A R a.iterWAddr R.kSize A.bufferW
          wAccBlock := w
          iterInstruction := if w = 0 then .loadWCompute else .loadW }) ∨
      (a.yAccBlock = 0 ∧ a.wAccBlock = 0 ∧ ∃ x, a.xAccBlock = x + 1 ∧
        r = ⟨a.iterXAddr, A.bandwidth, false⟩ ∧
        a' = { a with
          iterXAddr := incAddr A R a.iterXAddr R.nSize (A.bufferN R.elemSize)
          xAccBlock := x
          iterInstruction := .loadX }) ∨
      (a.yAccBlock = 0 ∧ a.wAccBlock = 0 ∧ a.xAccBlock = 0 ∧ ∃ z, a.zAccBlock = z + 1 ∧
        r = ⟨a.iterZAddr, u32 (zStoreWidth * R.elemSize), true⟩ ∧
        a' = { a with
          iterZAddr := incAddr A R a.iterZAddr R.kSize A.bufferW
          zAccBlock := z
          iterInstruction := .storZ }) := by
  unfold nextAddr at next
  split at next
  · rename_i pos
    obtain ⟨rfl, rfl⟩ := Prod.mk.inj (Option.some.inj next)
    exact Or.inl ⟨a.yAccBlock - 1, by omega, rfl, rfl⟩
  · rename_i noY
    have y : a.yAccBlock = 0 := by omega
    apply Or.inr
    split at next
    · obtain ⟨rfl, rfl⟩ := Prod.mk.inj (Option.some.inj next)
      exact Or.inl ⟨y, a.wAccBlock - 1, by omega, rfl, rfl⟩
    · rename_i noW
      have w : a.wAccBlock = 0 := by omega
      apply Or.inr
      split at next
      · obtain ⟨rfl, rfl⟩ := Prod.mk.inj (Option.some.inj next)
        exact Or.inl ⟨y, w, a.xAccBlock - 1, by omega, rfl, rfl⟩
      · rename_i noX
        have x : a.xAccBlock = 0 := by omega
        apply Or.inr
        split at next
        · obtain ⟨rfl, rfl⟩ := Prod.mk.inj (Option.some.inj next)
          exact ⟨y, w, x, a.zAccBlock - 1, by omega, rfl, rfl⟩
        · cases next

theorem sendRequest_cases {before after : IterInstruction → Bool}
    (sent : sendRequest A before after s = some s') :
    ∃ r a d mem, nextAddr A s.regs s.data.zStoreWidth s.access = some (r, a) ∧
      s' = { s with access := a, data := d, mem := mem, trace := s.trace ++ [r] } := by
  obtain ⟨⟨r, a⟩, next, rfl⟩ := Option.map_eq_some_iff.mp sent
  exact ⟨r, a, _, _, next, rfl⟩

theorem accessPhase_cases {before after : IterInstruction → Bool} {status : TcdmStatus}
    (accessed : accessPhase A before after status s = some s') :
    (s.fsm.canSend A.queueDepth = false ∧ s' = { s with fsm := s.fsm.receive }) ∨
      (s.fsm.canSend A.queueDepth = true ∧ ∃ latency sent, status = .ok latency ∧
        sendRequest A before after s = some sent ∧
          s' = { sent with fsm := (s.fsm.push latency).receive }) := by
  unfold accessPhase at accessed
  cases send : s.fsm.canSend A.queueDepth with
  | false =>
    rw [if_neg (by rw [send]; exact Bool.false_ne_true)] at accessed
    exact Or.inl ⟨rfl, (Option.some.inj accessed).symm⟩
  | true =>
    rw [if_pos send] at accessed
    cases status with
    | error => cases accessed
    | ok latency =>
      obtain ⟨sent, made, rfl⟩ := Option.map_eq_some_iff.mp accessed
      obtain ⟨r, a, d, mem, -, rfl⟩ := sendRequest_cases made
      exact Or.inr ⟨rfl, latency, _, rfl, made, rfl⟩

/-! ## Events -/

section

variable {status : TcdmStatus}

theorem fsmHandler_idle (state : s.fsm.state = .idle) :
    fsmHandler A status s = some ⟨{ s with fsm := s.fsm.tick }, none, .silent⟩ := by
  have state' : s.fsm.tick.state = .idle := state
  simp only [fsmHandler, state']

theorem fsmHandler_preload (state : s.fsm.state = .preload)
    (handled : fsmHandler A status s = some e) :
    ∃ s₁, accessPhase A (fun _ => false) (fun _ => true) status { s with fsm := s.fsm.tick } =
      some s₁ ∧ e = ⟨if s₁.fsm.drained then leavePreload A s₁ else s₁, some 1, .silent⟩ := by
  have state' : s.fsm.tick.state = .preload := state
  simp only [fsmHandler, state'] at handled
  obtain ⟨s₁, accessed, rfl⟩ := Option.map_eq_some_iff.mp handled
  exact ⟨s₁, accessed, rfl⟩

theorem fsmHandler_routine_eq (state : s.fsm.state = .routine)
    (handled : fsmHandler A status s = some e) :
    ∃ s₁, accessPhase A isStorZ (fun instr => !isStorZ instr) status { s with fsm := s.fsm.tick } =
        some s₁ ∧
      e = if s₁.fsm.drained then ⟨leaveRoutine A s₁, some (routineLatency A s₁), .silent⟩
        else ⟨s₁, some 1, .silent⟩ := by
  have state' : s.fsm.tick.state = .routine := state
  simp only [fsmHandler, state'] at handled
  obtain ⟨s₁, accessed, rfl⟩ := Option.map_eq_some_iff.mp handled
  exact ⟨s₁, accessed, rfl⟩

theorem fsmHandler_routine (state : s.fsm.state = .routine)
    (handled : fsmHandler A status s = some e) :
    ∃ s₁ latency, accessPhase A isStorZ (fun instr => !isStorZ instr) status
        { s with fsm := s.fsm.tick } = some s₁ ∧
      e = ⟨if s₁.fsm.drained then leaveRoutine A s₁ else s₁, some latency, .silent⟩ := by
  obtain ⟨s₁, accessed, rfl⟩ := fsmHandler_routine_eq state handled
  split
  · rename_i drained
    exact ⟨s₁, _, accessed, by rw [if_pos drained]⟩
  · rename_i busy
    exact ⟨s₁, _, accessed, by rw [if_neg busy]⟩

theorem fsmHandler_storing (state : s.fsm.state = .storing)
    (handled : fsmHandler A status s = some e) :
    ∃ s₁, accessPhase A isStorZ (fun _ => false) status { s with fsm := s.fsm.tick } = some s₁ ∧
      e = ⟨if s₁.fsm.drained then leaveStoring s₁ else s₁, some 1, .silent⟩ := by
  have state' : s.fsm.tick.state = .storing := state
  simp only [fsmHandler, state'] at handled
  obtain ⟨s₁, accessed, rfl⟩ := Option.map_eq_some_iff.mp handled
  exact ⟨s₁, accessed, rfl⟩

theorem fsmHandler_finished (state : s.fsm.state = .finished) :
    fsmHandler A status s = some ⟨if s.redmuleQuery.isNone then { s with fsm := s.fsm.tick }
      else { s with fsm := { s.fsm.tick with state := .acknowledge } }, some 1, .silent⟩ := by
  have state' : s.fsm.tick.state = .finished := state
  simp only [fsmHandler, state']

theorem fsmHandler_acknowledge (state : s.fsm.state = .acknowledge)
    (handled : fsmHandler A status s = some e) :
    ∃ q, s.redmuleQuery = some q ∧
      e = ⟨{ s with redmuleQuery := none, fsm := { s.fsm.tick with state := .idle } }, none,
        .resp q⟩ := by
  have state' : s.fsm.tick.state = .acknowledge := state
  simp only [fsmHandler, state'] at handled
  obtain ⟨q, query, rfl⟩ := Option.map_eq_some_iff.mp handled
  exact ⟨q, query, rfl⟩

end

/-! ## What no event changes -/

/-- What a job is configured with, and its tiling. -/
def Machine.job (s : Machine Q) : Regs × Nat × Tiles := (s.regs, s.computeAble, s.tiles)

theorem sendRequest_job {before after : IterInstruction → Bool}
    (sent : sendRequest A before after s = some s') : s'.job = s.job := by
  obtain ⟨r, a, d, mem, -, rfl⟩ := sendRequest_cases sent
  rfl

theorem accessPhase_job {before after : IterInstruction → Bool} {status : TcdmStatus}
    (accessed : accessPhase A before after status s = some s') : s'.job = s.job := by
  obtain ⟨-, rfl⟩ | ⟨-, latency, sent, -, made, rfl⟩ := accessPhase_cases accessed
  · rfl
  · have kept : sent.job = s.job := sendRequest_job made
    exact kept

@[simp] theorem forwardYZ_job : (forwardYZ A s).job = s.job := by
  unfold forwardYZ
  split <;> rfl

@[simp] theorem leavePreload_job : (leavePreload A s).job = s.job := forwardYZ_job

@[simp] theorem leaveRoutine_job : (leaveRoutine A s).job = s.job := by
  have forwarded : (forwardLast A s).job = s.job := by
    unfold forwardLast
    split
    · exact forwardYZ_job
    · rfl
  rw [← forwarded]
  unfold leaveRoutine nextPhase
  dsimp only
  split <;> rfl

theorem fsmHandler_job {status : TcdmStatus} (handled : fsmHandler A status s = some e) :
    e.machine.job = s.job := by
  cases state : s.fsm.state with
  | idle =>
    rw [fsmHandler_idle state] at handled
    obtain rfl := Option.some.inj handled
    rfl
  | preload =>
    obtain ⟨s₁, accessed, rfl⟩ := fsmHandler_preload state handled
    have kept := accessPhase_job accessed
    dsimp only
    split
    · rw [leavePreload_job, kept]
      rfl
    · exact kept
  | routine =>
    obtain ⟨s₁, latency, accessed, rfl⟩ := fsmHandler_routine state handled
    have kept := accessPhase_job accessed
    dsimp only
    split
    · rw [leaveRoutine_job, kept]
      rfl
    · exact kept
  | storing =>
    obtain ⟨s₁, accessed, rfl⟩ := fsmHandler_storing state handled
    have kept := accessPhase_job accessed
    dsimp only
    split
    · exact kept
    · exact kept
  | finished =>
    rw [fsmHandler_finished state] at handled
    obtain rfl := Option.some.inj handled
    dsimp only
    split <;> rfl
  | acknowledge =>
    obtain ⟨q, -, rfl⟩ := fsmHandler_acknowledge state handled
    rfl

/-! ## Requests -/

/-- What a trigger leaves. -/
theorem trigger_eq (triggered : trigger A s = some s') :
    0 < s.regs.mSize ∧ 0 < s.regs.nSize ∧ 0 < s.regs.kSize ∧
      s' = { initRedmuleMetaData A s with
        access := (getPreloadAccessBlockNumber A s.regs (initAccess s.regs s.access)).2
        fsm := s.fsm.enter .preload (getPreloadAccessBlockNumber A s.regs s.access).1 } := by
  unfold trigger at triggered
  split at triggered
  · cases triggered
  · rename_i positive
    split at triggered
    · cases triggered
    · exact ⟨by omega, by omega, by omega, (Option.some.inj triggered).symm⟩

/-- A request on the memory-mapped port triggers a run, waits for one, or goes to the registers. -/
theorem req_cases {q : Q} {r : IoReq} (requested : req A q r s = some e) :
    (r.isWrite = false ∧ r.offset = 32 ∧ s.redmuleQuery = none ∧ s.fsm.state = .idle ∧
        ∃ s₁, trigger A s = some s₁ ∧
          e = ⟨{ s₁ with computeAble := 0, redmuleQuery := some q }, some 1, .pending⟩) ∨
      (r.isWrite = false ∧ r.offset = 36 ∧ s.fsm.state = .idle ∧
        ∃ s₁, trigger A s = some s₁ ∧ e = ⟨{ s₁ with computeAble := 0 }, some 1, .ok⟩) ∨
      (r.isWrite = false ∧ r.offset = 40 ∧ s.redmuleQuery = none ∧ s.fsm.state ≠ .idle ∧
        e = ⟨{ s with redmuleQuery := some q }, none, .pending⟩) ∨
      e = ⟨{ s with regs := writeReg s.regs r.offset (loadLe r.data 0 4).toNat }, none, .ok⟩ := by
  unfold req at requested
  split at requested
  · rename_i sync
    obtain ⟨s₁, triggered, rfl⟩ := Option.map_eq_some_iff.mp requested
    exact Or.inl ⟨sync.1, sync.2.1, Option.isNone_iff_eq_none.mp sync.2.2.1, sync.2.2.2, s₁,
      triggered, rfl⟩
  · split at requested
    · rename_i async
      obtain ⟨s₁, triggered, rfl⟩ := Option.map_eq_some_iff.mp requested
      exact Or.inr (Or.inl ⟨async.1, async.2.1, async.2.2, s₁, triggered, rfl⟩)
    · split at requested
      · rename_i wait
        exact Or.inr (Or.inr (Or.inl ⟨wait.1, wait.2.1, Option.isNone_iff_eq_none.mp wait.2.2.1,
          wait.2.2.2, (Option.some.inj requested).symm⟩))
      · exact Or.inr (Or.inr (Or.inr (Option.some.inj requested).symm))

/-- A request on the core-accelerator port configures the sizes, configures the addresses and
triggers a run, or does nothing. -/
theorem coreAccReq_cases {r : IoReq} (requested : coreAccReq A r s = some e) :
    (r.offset = 0 ∧ s.fsm.state = .idle ∧ e = ⟨configureMNK r s, none, .ok⟩) ∨
      (r.offset = 4 ∧ s.fsm.state = .idle ∧
        ∃ s₁, trigger A (configureXWY r s) = some s₁ ∧ e = ⟨s₁, some 1, .ok⟩) ∨
      (e = ⟨s, none, .ok⟩ ∧ (s.fsm.state ≠ .idle ∨ r.offset ≠ 0 ∧ r.offset ≠ 4)) := by
  unfold coreAccReq at requested
  split at requested
  · rename_i sizes
    split at requested
    · rename_i idle
      exact Or.inl ⟨sizes, idle, (Option.some.inj requested).symm⟩
    · rename_i busy
      exact Or.inr (Or.inr ⟨(Option.some.inj requested).symm, Or.inl busy⟩)
  · rename_i notSizes
    split at requested
    · rename_i start
      split at requested
      · rename_i idle
        obtain ⟨s₁, triggered, rfl⟩ := Option.map_eq_some_iff.mp requested
        exact Or.inr (Or.inl ⟨start, idle, s₁, triggered, rfl⟩)
      · rename_i busy
        exact Or.inr (Or.inr ⟨(Option.some.inj requested).symm, Or.inl busy⟩)
    · rename_i notStart
      exact Or.inr (Or.inr ⟨(Option.some.inj requested).symm, Or.inr ⟨notSizes, notStart⟩⟩)

end SoftHier.Redmule
