import SoftHier.Lib.Progress
import SoftHier.Redmule.Config
import SoftHier.Redmule.Progress

/-!
# Triggers and waits

The accelerator holds one waiting request.  An infinite execution interleaves requests of any cores
with the events of the state machine; every event that is enqueued is executed some time later.

* `System.Sound`, `step_sound`: the invariant, and every step keeps it.
* `StepCase`, `step_cases`: a step writes registers, triggers a run, holds a wait, or is an event.
* `Execution.held_answered`: a request that is held is answered once, after the last store of its
  job.
* `Execution.trigger_runs`: a trigger of the idle accelerator leads to one run, which ends.
* `trigger_wait`: both, with what happens to a trigger of a busy accelerator.
* `busy_requests_answered`: a second wait and a second trigger during a run are answered at once.
-/

namespace SoftHier.Redmule

section

variable {Q : Type*} {A : Arch}

/-! ## Requests keep the invariant -/

theorem writeReg_lt {R : Regs} {f : Fsm} {d : Datapath} {offset value : Nat}
    (bounded : Bounded f R d) (less : value < 2 ^ 32) : Bounded f (writeReg R offset value) d := by
  unfold writeReg
  split
  · exact { bounded with mSize := less }
  · exact { bounded with nSize := less }
  · exact { bounded with kSize := less }
  · exact { bounded with }
  · exact { bounded with }
  · exact { bounded with }
  · exact { bounded with }
  · exact bounded

/-- A trigger starts a run. -/
theorem trigger_sound {s s' : Machine Q} (bounded : Bounded s.fsm s.regs s.data)
    (triggered : trigger A s = some s') : s'.Sound ∧ s'.fsm.state = .preload ∧
      s'.numMatmul = s.numMatmul ∧ s'.redmuleQuery = s.redmuleQuery := by
  obtain ⟨m, n, k, rfl⟩ := trigger_eq triggered
  refine ⟨⟨?_, fun _ => ?_, fun _ => ?_, fun _ _ => ?_, fun idle => (by cases idle),
    fun ack => (by cases ack)⟩, rfl, rfl, rfl⟩
  · exact { bounded with fsm := Fsm.enter_sound bounded.fsm (u32_lt _) }
  · apply Nat.le_trans (Nat.mod_le _ _)
    have blocks : (getPreloadAccessBlockNumber A s.regs (initAccess s.regs s.access)).2.blocks =
        min s.regs.mSize A.ceHeight + 0 + min s.regs.mSize A.ceHeight + 0 := rfl
    have counter : (s.fsm.enter .preload
        (getPreloadAccessBlockNumber A s.regs (initAccess s.regs s.access)).1).fsmCounter = 0 := rfl
    dsimp only
    omega
  · exact ⟨tileCount_pos n, Nat.lt_of_le_of_lt (tileCount_le _ _) bounded.nSize, tileCount_pos k,
      Nat.lt_of_le_of_lt (tileCount_le _ _) bounded.kSize, tileCount_pos m,
      Nat.lt_of_le_of_lt (tileCount_le _ _) bounded.mSize⟩
  · exact ⟨tileCount_pos m, tileCount_pos k, tileCount_pos n⟩

/-! ## Steps -/

/-- The invariant of the system: the event is enqueued exactly while the accelerator is not idle. -/
structure System.Sound (s : System Q) : Prop where
  machine : s.machine.Sound
  event : s.event = true ↔ s.machine.fsm.state ≠ .idle

/-- The input is one of the three requests that trigger a run. -/
def Input.IsTrigger : Input Q → Prop
  | .mmio _ io => io.isWrite = false ∧ (io.offset = 32 ∨ io.offset = 36)
  | .coreAcc io => io.offset = 4
  | .fsm _ => False

/-- What a step does. -/
inductive StepCase (A : Arch) (s : System Q) : Input Q → System Q → Answer Q → Prop
  /-- A request that is answered at once and writes registers at most; it is not a trigger of an
  idle accelerator, and changes nothing if it is a trigger of a busy one. -/
  | registers {i : Input Q} (R : Regs) (bounded : Bounded s.machine.fsm R s.machine.data)
      (busy : i.IsTrigger → s.machine.fsm.state ≠ .idle ∧ R = s.machine.regs)
      (request : ∀ status, i ≠ .fsm status) :
      StepCase A s i ⟨{ s.machine with regs := R }, s.event⟩ .ok
  | trigger {i : Input Q} {t : Machine Q} {a : Answer Q} (isTrigger : i.IsTrigger)
      (idle : s.machine.fsm.state = .idle) (sound : t.Sound) (preload : t.fsm.state = .preload)
      (num : t.numMatmul = s.machine.numMatmul)
      (query : (t.redmuleQuery = none ∧ a = .ok ∧ ∀ q io, i = .mmio q io → io.offset ≠ 32) ∨
        ∃ q io, i = .mmio q io ∧ io.offset = 32 ∧ t.redmuleQuery = some q ∧ a = .pending) :
      StepCase A s i ⟨t, true⟩ a
  | wait {q : Q} {io : IoReq} (read : io.isWrite = false) (offset : io.offset = 40)
      (free : s.machine.redmuleQuery = none) (busy : s.machine.fsm.state ≠ .idle) :
      StepCase A s (.mmio q io) ⟨{ s.machine with redmuleQuery := some q }, s.event⟩ .pending
  | event {status : TcdmStatus} {e : Effect Q} (enqueued : s.event = true)
      (handled : fsmHandler A status s.machine = some e) :
      StepCase A s (.fsm status) ⟨e.machine, e.enqueue.isSome⟩ e.answer

variable {s s' : System Q} {i : Input Q} {a : Answer Q}

theorem req_trigger {q : Q} {io : IoReq} {m : Machine Q} (sound : m.Sound)
    (isTrigger : (Input.mmio q io).IsTrigger) (idle : m.fsm.state = .idle) :
    (io.offset = 32 ∧ req A q io m = (trigger A m).map fun t =>
        ⟨{ t with computeAble := 0, redmuleQuery := some q }, some 1, .pending⟩) ∨
      (io.offset = 36 ∧ req A q io m = (trigger A m).map fun t =>
        ⟨{ t with computeAble := 0 }, some 1, .ok⟩) := by
  obtain ⟨read, sync | async⟩ := isTrigger
  · have free : m.redmuleQuery.isNone := Option.isNone_iff_eq_none.mpr (sound.idle idle)
    exact Or.inl ⟨sync, if_pos ⟨read, sync, free, idle⟩⟩
  · refine Or.inr ⟨async, ?_⟩
    unfold req
    rw [if_neg (by rw [async]; exact fun sync => absurd sync.2.1 (by decide)),
      if_pos ⟨read, async, idle⟩]

/-- An accepted trigger, after which the mode and the waiting request may be set. -/
theorem trigger_case {t t' : Machine Q} {i : Input Q} {a : Answer Q} (isTrigger : i.IsTrigger)
    (bounded : Bounded t.fsm t.regs t.data) (idle : s.machine.fsm.state = .idle)
    (num : t.numMatmul = s.machine.numMatmul) (triggered : trigger A t = some t')
    (computeAble : Nat)
    (held : Option Q) (query : (held = none ∧ a = .ok ∧ ∀ q io, i = .mmio q io → io.offset ≠ 32) ∨
      ∃ q io, i = .mmio q io ∧ io.offset = 32 ∧ held = some q ∧ a = .pending) :
    StepCase A s i ⟨{ t' with computeAble := computeAble, redmuleQuery := held }, true⟩ a := by
  obtain ⟨sound, preload, num', -⟩ := trigger_sound bounded triggered
  refine .trigger (t := { t' with computeAble := computeAble, redmuleQuery := held }) isTrigger idle
    ⟨sound.bounded, sound.blocks, sound.tiles, sound.iter, fun idle => ?_, fun ack => ?_⟩ preload
    (num'.trans num) query
  · rw [preload] at idle
    cases idle
  · rw [preload] at ack
    cases ack

theorem step_mmio_cases {q : Q} {io : IoReq} (sound : s.Sound)
    (stepped : s.step A (.mmio q io) = some (s', a)) : StepCase A s (.mmio q io) s' a := by
  obtain ⟨e, requested, rfl, rfl⟩ := step_mmio stepped
  by_cases accepted : (Input.mmio q io).IsTrigger ∧ s.machine.fsm.state = .idle
  · obtain ⟨isTrigger, idle⟩ := accepted
    obtain ⟨sync, same⟩ | ⟨async, same⟩ := req_trigger sound.machine isTrigger idle
    · rw [same] at requested
      obtain ⟨t, triggered, rfl⟩ := Option.map_eq_some_iff.mp requested
      rw [Option.isSome_some, Bool.or_true]
      exact trigger_case isTrigger sound.machine.bounded idle rfl triggered _ _
        (Or.inr ⟨q, io, rfl, sync, rfl, rfl⟩)
    · rw [same] at requested
      obtain ⟨t, triggered, rfl⟩ := Option.map_eq_some_iff.mp requested
      obtain ⟨-, -, -, query⟩ := trigger_sound sound.machine.bounded triggered
      rw [Option.isSome_some, Bool.or_true]
      exact trigger_case isTrigger sound.machine.bounded idle rfl triggered _ _
        (Or.inl ⟨query.trans (sound.machine.idle idle), rfl, fun q' io' same => by
          cases same
          rw [async]
          decide⟩)
  · obtain ⟨read, at', -, idle, -⟩ | ⟨read, at', idle, -⟩ | ⟨read, at', free, busy, rfl⟩ | rfl :=
      req_cases requested
    · exact absurd ⟨⟨read, Or.inl at'⟩, idle⟩ accepted
    · exact absurd ⟨⟨read, Or.inr at'⟩, idle⟩ accepted
    · rw [Option.isSome_none, Bool.or_false]
      exact .wait read at' free busy
    · rw [Option.isSome_none, Bool.or_false]
      apply StepCase.registers _ (writeReg_lt sound.machine.bounded (BitVec.isLt _)) _
        fun status same => by cases same
      intro isTrigger
      refine ⟨fun idle => accepted ⟨isTrigger, idle⟩, ?_⟩
      obtain ⟨-, at' | at'⟩ := isTrigger
      · rw [at']
        rfl
      · rw [at']
        rfl

theorem step_coreAcc_cases {io : IoReq} (sound : s.Sound)
    (stepped : s.step A (.coreAcc io) = some (s', a)) : StepCase A s (.coreAcc io) s' a := by
  obtain ⟨e, requested, rfl, rfl⟩ := step_coreAcc stepped
  have short : ∀ x : BitVec (8 * 2), x.toNat < 2 ^ 32 := fun x =>
    Nat.lt_trans x.isLt (by decide)
  obtain ⟨at', idle, rfl⟩ | ⟨at', idle, t, triggered, rfl⟩ | ⟨rfl, ignored⟩ :=
    coreAccReq_cases requested
  · rw [Option.isSome_none, Bool.or_false]
    refine .registers (configureMNK io s.machine).regs ?_ (fun isTrigger => ?_)
      fun status same => by cases same
    · exact { sound.machine.bounded with mSize := short _, nSize := short _, kSize := short _ }
    · exact absurd (at'.symm.trans isTrigger) (by decide)
  · rw [Option.isSome_some, Bool.or_true]
    have bounded : Bounded s.machine.fsm (configureXWY io s.machine).regs s.machine.data :=
      { sound.machine.bounded with }
    obtain ⟨-, -, -, query⟩ := trigger_sound (s := configureXWY io s.machine) bounded triggered
    exact trigger_case (t := configureXWY io s.machine) (i := .coreAcc io) at' bounded idle rfl
      triggered _ _
      (Or.inl ⟨query.trans (sound.machine.idle idle), rfl, fun q io same => by cases same⟩)
  · rw [Option.isSome_none, Bool.or_false]
    apply StepCase.registers s.machine.regs sound.machine.bounded _ fun status same => by cases same
    intro isTrigger
    obtain busy | ⟨-, other⟩ := ignored
    · exact ⟨busy, rfl⟩
    · exact absurd isTrigger other

/-- Every step is one of the four. -/
theorem step_cases (sound : s.Sound) (stepped : s.step A i = some (s', a)) :
    StepCase A s i s' a := by
  cases i with
  | mmio q io => exact step_mmio_cases sound stepped
  | coreAcc io => exact step_coreAcc_cases sound stepped
  | fsm status =>
    obtain ⟨enqueued, e, handled, rfl, rfl⟩ := step_fsm stepped
    exact .event enqueued handled

/-- What an event does, by the state it finds. -/
theorem event_cases {status : TcdmStatus} {e : Effect Q} (sound : s.Sound)
    (enqueued : s.event = true) (handled : fsmHandler A status s.machine = some e) :
    (s.machine.fsm.state.active = true ∧ Worked s.machine e) ∨
      (s.machine.fsm.state = .finished ∧ s.machine.redmuleQuery = none ∧
        e = ⟨{ s.machine with fsm := s.machine.fsm.tick }, some 1, .silent⟩) ∨
      (s.machine.fsm.state = .finished ∧ s.machine.redmuleQuery ≠ none ∧
        e = ⟨{ s.machine with fsm := { s.machine.fsm.tick with state := .acknowledge } }, some 1,
          .silent⟩) ∨
      (s.machine.fsm.state = .acknowledge ∧ ∃ q, s.machine.redmuleQuery = some q ∧
        e = ⟨{ s.machine with
          redmuleQuery := none
          fsm := { s.machine.fsm.tick with state := .idle } }, none, .resp q⟩) := by
  cases state : s.machine.fsm.state with
  | idle => exact absurd state (sound.event.mp enqueued)
  | finished =>
    rw [fsmHandler_finished state] at handled
    by_cases query : s.machine.redmuleQuery = none
    · rw [if_pos (Option.isNone_iff_eq_none.mpr query)] at handled
      exact Or.inr (Or.inl ⟨rfl, query, (Option.some.inj handled).symm⟩)
    · rw [if_neg fun free => query (Option.isNone_iff_eq_none.mp free)] at handled
      exact Or.inr (Or.inr (Or.inl ⟨rfl, query, (Option.some.inj handled).symm⟩))
  | acknowledge =>
    obtain ⟨q, query, rfl⟩ := fsmHandler_acknowledge state handled
    exact Or.inr (Or.inr (Or.inr ⟨rfl, q, query, rfl⟩))
  | _ =>
    have active := active_of_eq state rfl
    exact Or.inl ⟨rfl, fsmHandler_worked sound.machine active handled⟩

theorem initial_sound {elemSize : Nat} {buffers : Datapath} {mem : Buffer} :
    (System.initial elemSize buffers mem : System Q).Sound := by
  have four : (4 : Nat) < 2 ^ 32 := by decide
  have zero : (0 : Nat) < 2 ^ 32 := by decide
  have fsm : (⟨.idle, 0, 0, 0, []⟩ : Fsm).Sound :=
    ⟨Nat.le_refl _, zero, fun _ mem => absurd mem List.not_mem_nil, fun active => by cases active⟩
  refine ⟨⟨⟨fsm, four, four, four, zero⟩, fun active => ?_, fun active => ?_, fun active => ?_,
    fun _ => rfl, fun ack => ?_⟩, fun event => ?_, fun busy => absurd rfl busy⟩
  · cases active
  · cases active
  · cases active
  · cases ack
  · cases event

/-- An accelerator that is not working on a job. -/
theorem resting_sound {m : Machine Q} {f : Fsm} (query : Option Q) (sound : m.Sound)
    (counters : f.fsmCounter = m.fsm.fsmCounter ∧ f.tcdmBlockTotal = m.fsm.tcdmBlockTotal ∧
      f.pendingReqQueue = m.fsm.pendingReqQueue)
    (resting : f.state.active = false) (idle : f.state = .idle → query = none)
    (acknowledge : f.state = .acknowledge → query ≠ none) :
    ({ m with fsm := f, redmuleQuery := query } : Machine Q).Sound := by
  obtain ⟨counter, total, queue⟩ := counters
  have never : ∀ {P : Prop}, f.state.active = true → P := fun active =>
    absurd active (Bool.eq_false_iff.mp resting)
  have fsm : f.Sound := by
    refine ⟨?_, ?_, ?_, never⟩
    · rw [counter, total]
      exact sound.bounded.fsm.counter_le
    · rw [total]
      exact sound.bounded.fsm.total_lt
    · rw [queue]
      exact sound.bounded.fsm.stamps
  exact ⟨{ sound.bounded with fsm := fsm }, never, never, never, idle, acknowledge⟩

/-- Every step keeps the invariant. -/
theorem step_sound (sound : s.Sound) (stepped : StepCase A s i s' a) : s'.Sound := by
  have machine := sound.machine
  cases stepped with
  | registers R bounded busy =>
    exact ⟨⟨bounded, machine.blocks, machine.tiles, machine.iter, machine.idle,
      machine.acknowledge⟩, sound.event⟩
  | trigger isTrigger idle running preload =>
    refine ⟨running, fun _ idle => ?_, fun _ => rfl⟩
    dsimp only at idle
    rw [preload] at idle
    cases idle
  | wait read offset free busy =>
    exact ⟨⟨machine.bounded, machine.blocks, machine.tiles, machine.iter,
      fun idle => absurd idle busy, fun _ => Option.some_ne_none _⟩, sound.event⟩
  | event enqueued handled =>
    obtain ⟨-, worked⟩ | ⟨state, query, rfl⟩ | ⟨state, query, rfl⟩ | ⟨state, q, query, rfl⟩ :=
      event_cases sound enqueued handled
    · refine ⟨worked.sound, fun _ idle => ?_, fun _ => worked.enqueue⟩
      dsimp only at idle
      obtain ⟨active, -⟩ | ⟨finished, -⟩ := worked.next
      · exact ne_of_active active rfl idle
      · rw [idle] at finished
        cases finished
    · have finished : s.machine.fsm.tick.state = .finished := state
      refine ⟨resting_sound s.machine.redmuleQuery machine ⟨rfl, rfl, rfl⟩
        (by rw [finished]; rfl) (fun _ => query) fun ack => ?_, fun _ idle => ?_, fun _ => rfl⟩
      · rw [finished] at ack
        cases ack
      · dsimp only at idle
        rw [finished] at idle
        cases idle
    · exact ⟨resting_sound s.machine.redmuleQuery machine ⟨rfl, rfl, rfl⟩ rfl
        (fun idle => (by cases idle)) fun _ => query, fun _ idle => (by cases idle), fun _ => rfl⟩
    · exact ⟨resting_sound none machine ⟨rfl, rfl, rfl⟩ rfl (fun _ => rfl) fun ack =>
        (by cases ack), fun event => (by cases event), fun busy => absurd rfl busy⟩

/-- A trigger of the idle accelerator starts a run; the synchronous one is held. -/
theorem accepted_step (sound : s.Sound) (stepped : StepCase A s i s' a) (isTrigger : i.IsTrigger)
    (idle : s.machine.fsm.state = .idle) : s'.machine.fsm.state = .preload ∧
      s'.machine.numMatmul = s.machine.numMatmul ∧
        ((∃ q io, i = .mmio q io ∧ io.offset = 32) →
          ∃ q io, i = .mmio q io ∧ s'.machine.redmuleQuery = some q ∧ a = .pending) := by
  cases stepped with
  | registers R bounded busy => exact absurd idle (busy isTrigger).1
  | trigger _ _ running preload num query =>
    refine ⟨preload, num, fun ⟨q, io, issued, offset⟩ => ?_⟩
    obtain ⟨-, -, other⟩ | ⟨q', io', issued', -, held, pending⟩ := query
    · exact absurd offset (other q io issued)
    · exact ⟨q', io', issued', held, pending⟩
  | wait _ _ _ busy => exact absurd idle busy
  | event enqueued => exact absurd idle (sound.event.mp enqueued)

/-- A step of a resting accelerator that triggers no run keeps it resting and sends no request to
the TCDM. -/
theorem resting_step (sound : s.Sound) (stepped : StepCase A s i s' a)
    (resting : s.machine.fsm.state.active = false)
    (noTrigger : ¬ (i.IsTrigger ∧ s.machine.fsm.state = .idle)) :
    s'.machine.fsm.state.active = false ∧ s'.machine.trace = s.machine.trace ∧
      s'.machine.numMatmul = s.machine.numMatmul := by
  cases stepped with
  | registers R bounded busy => exact ⟨resting, rfl, rfl⟩
  | trigger isTrigger idle running preload => exact absurd ⟨isTrigger, idle⟩ noTrigger
  | wait read offset free busy => exact ⟨resting, rfl, rfl⟩
  | event enqueued handled =>
    obtain ⟨active, -⟩ | ⟨-, -, rfl⟩ | ⟨-, -, rfl⟩ | ⟨-, q, -, rfl⟩ :=
      event_cases sound enqueued handled
    · exact absurd active (Bool.eq_false_iff.mp resting)
    · exact ⟨resting, rfl, rfl⟩
    · exact ⟨rfl, rfl, rfl⟩
    · exact ⟨rfl, rfl, rfl⟩

/-- A step of a busy accelerator that holds a request keeps holding it and does not increase the
rank, or it answers that request. -/
theorem held_step {q : Q} (sound : s.Sound) (stepped : StepCase A s i s' a)
    (busy : s.machine.fsm.state ≠ .idle) (held : s.machine.redmuleQuery = some q) :
    (s'.machine.fsm.state ≠ .idle ∧ s'.machine.redmuleQuery = some q ∧
        rank s'.machine ≤ rank s.machine ∧ (∀ q', a ≠ .resp q') ∧
          ((∃ status, i = .fsm status) → rank s'.machine < rank s.machine)) ∨
      (s.machine.fsm.state.active = false ∧ s'.machine.fsm.state = .idle ∧ a = .resp q) := by
  cases stepped with
  | registers R bounded _ request =>
    refine Or.inl ⟨busy, held, le_refl (rank s.machine), fun q' => by nofun,
      fun ⟨status, event⟩ => ?_⟩
    exact absurd event (request status)
  | trigger isTrigger idle => exact absurd idle busy
  | wait read offset free _ =>
    rw [held] at free
    cases free
  | event enqueued handled =>
    obtain ⟨active, worked⟩ | ⟨-, free, -⟩ | ⟨state, -, rfl⟩ | ⟨state, q', held', rfl⟩ :=
      event_cases sound enqueued handled
    · refine Or.inl ⟨fun idle => ?_, worked.query.trans held, le_of_lt worked.rank, fun q' => ?_,
        fun _ => worked.rank⟩
      · dsimp only at idle
        obtain ⟨active', -⟩ | ⟨finished, -⟩ := worked.next
        · rw [idle] at active'
          cases active'
        · rw [idle] at finished
          cases finished
      · rw [worked.answer]
        nofun
    · rw [held] at free
      cases free
    · have less : rank { s.machine with fsm := { s.machine.fsm.tick with state := .acknowledge } } <
          rank s.machine := by
        apply rank_lt_of_phase
        unfold Machine.phasesLeft
        rw [state]
        exact Nat.lt_succ_self 1
      exact Or.inl ⟨fun idle => (by cases idle), held, le_of_lt less, fun q' => (by nofun),
        fun _ => less⟩
    · rw [held] at held'
      obtain rfl := Option.some.inj held'
      exact Or.inr ⟨by rw [state]; rfl, rfl, rfl⟩

/-- A request is held from the step on that issues it. -/
theorem query_step {q : Q} (sound : s.Sound) (stepped : StepCase A s i s' a)
    (held : s'.machine.redmuleQuery = some q) :
    s.machine.redmuleQuery = some q ∨ ∃ io, i = .mmio q io := by
  cases stepped with
  | registers R bounded busy => exact Or.inl held
  | trigger isTrigger idle running preload num query =>
    obtain ⟨free, -⟩ | ⟨q', io, rfl, -, held', -⟩ := query
    · dsimp only at held
      rw [free] at held
      cases held
    · dsimp only at held
      rw [held'] at held
      obtain rfl := Option.some.inj held
      exact Or.inr ⟨io, rfl⟩
  | wait =>
    obtain rfl := Option.some.inj held
    exact Or.inr ⟨_, rfl⟩
  | event enqueued handled =>
    obtain ⟨-, worked⟩ | ⟨-, -, rfl⟩ | ⟨-, -, rfl⟩ | ⟨-, q', -, rfl⟩ :=
      event_cases sound enqueued handled
    · exact Or.inl (worked.query.symm.trans held)
    · exact Or.inl held
    · exact Or.inl held
    · cases held

/-- Only a request that is held is answered later, and it is held no longer. -/
theorem answer_step {q : Q} (sound : s.Sound) (stepped : StepCase A s i s' (.resp q)) :
    s.machine.redmuleQuery = some q ∧ s'.machine.redmuleQuery = none := by
  generalize given : Answer.resp q = a at stepped
  cases stepped with
  | registers => cases given
  | trigger isTrigger idle running preload num query =>
    obtain ⟨-, rfl, -⟩ | ⟨q', io, -, -, -, rfl⟩ := query
    · cases given
    · cases given
  | wait => cases given
  | event enqueued handled =>
    obtain ⟨-, worked⟩ | ⟨-, -, rfl⟩ | ⟨-, -, rfl⟩ | ⟨-, q', held, rfl⟩ :=
      event_cases sound enqueued handled
    · rw [worked.answer] at given
      cases given
    · cases given
    · cases given
    · obtain rfl := Answer.resp.inj given
      exact ⟨held, rfl⟩

/-- If the TCDM answers, an event that is enqueued is not fatal. -/
theorem step_event_isSome (sound : s.Sound) (enqueued : s.event = true) (latency : Nat) :
    (s.step A (.fsm (.ok latency))).isSome := by
  dsimp only [System.step]
  rw [if_pos enqueued, Option.isSome_map]
  exact fsmHandler_isSome sound.machine latency

/-- A trigger of a busy accelerator is answered at once and ignored. -/
theorem busy_trigger (stepped : StepCase A s i s' a) (isTrigger : i.IsTrigger)
    (busy : s.machine.fsm.state ≠ .idle) : s' = s ∧ a = .ok := by
  cases stepped with
  | registers R bounded same =>
    obtain ⟨-, rfl⟩ := same isTrigger
    exact ⟨rfl, rfl⟩
  | trigger _ idle => exact absurd idle busy
  | wait read offset =>
    obtain ⟨-, sync | async⟩ := isTrigger
    · exact absurd (offset.symm.trans sync) (by decide)
    · exact absurd (offset.symm.trans async) (by decide)
  | event => exact absurd isTrigger id

/-- Only a trigger ends the idleness. -/
theorem idle_step (sound : s.Sound) (stepped : StepCase A s i s' a)
    (idle : s.machine.fsm.state = .idle) (busy : s'.machine.fsm.state ≠ .idle) : i.IsTrigger := by
  cases stepped with
  | registers => exact absurd idle busy
  | trigger isTrigger => exact isTrigger
  | wait => exact absurd idle busy
  | event enqueued => exact absurd idle (sound.event.mp enqueued)

/-- A wait that finds a busy accelerator that holds no request is held. -/
theorem step_wait {q : Q} {io : IoReq} (read : io.isWrite = false) (offset : io.offset = 40)
    (free : s.machine.redmuleQuery = none) (busy : s.machine.fsm.state ≠ .idle) :
    s.step A (.mmio q io) =
      some (⟨{ s.machine with redmuleQuery := some q }, s.event⟩, .pending) := by
  have held : req A q io s.machine =
      some ⟨{ s.machine with redmuleQuery := some q }, none, .pending⟩ := by
    unfold req
    rw [if_neg fun sync => absurd (offset.symm.trans sync.2.1) (by decide),
      if_neg fun async => absurd (offset.symm.trans async.2.1) (by decide),
      if_pos ⟨read, offset, Option.isNone_iff_eq_none.mpr free, busy⟩]
  dsimp only [System.step]
  rw [held]
  dsimp only [Option.map_some, Option.isSome_none]
  rw [Bool.or_false]

/-- A step of a working accelerator does not increase the rank, or it finishes the job. -/
theorem active_step (sound : s.Sound) (stepped : StepCase A s i s' a)
    (active : s.machine.fsm.state.active = true) :
    (s'.machine.fsm.state.active = true ∧ s'.machine.numMatmul = s.machine.numMatmul ∧
        rank s'.machine ≤ rank s.machine ∧
          ((∃ status, i = .fsm status) → rank s'.machine < rank s.machine)) ∨
      (s'.machine.fsm.state = .finished ∧ s'.machine.numMatmul = s.machine.numMatmul + 1) := by
  have busy : s.machine.fsm.state ≠ .idle := ne_of_active active rfl
  cases stepped with
  | registers R bounded _ request =>
    exact Or.inl ⟨active, rfl, le_refl (rank s.machine), fun ⟨status, event⟩ =>
      absurd event (request status)⟩
  | trigger isTrigger idle => exact absurd idle busy
  | wait =>
      exact Or.inl ⟨active, rfl, le_refl (rank s.machine), fun ⟨status, event⟩ => by cases event⟩
  | event enqueued handled =>
    obtain ⟨-, worked⟩ | ⟨state, -, -⟩ | ⟨state, -, -⟩ | ⟨state, -⟩ :=
      event_cases sound enqueued handled
    · obtain ⟨active', num⟩ | finished := worked.next
      · exact Or.inl ⟨active', num, le_of_lt worked.rank, fun _ => worked.rank⟩
      · exact Or.inr finished
    all_goals exact absurd state (ne_of_active active rfl)

end

/-! ## Executions -/

/-- An infinite execution from the construction, in which request `n` is the one issued at step
`n`. -/
structure Execution (A : Arch) where
  state : Nat → System Nat
  input : Nat → Input Nat
  answer : Nat → Answer Nat
  start : ∃ elemSize buffers mem, state 0 = System.initial elemSize buffers mem
  step : ∀ n, (state n).step A (input n) = some (state (n + 1), answer n)
  named : ∀ n q io, input n = .mmio q io → q = n

namespace Execution

variable {A : Arch} (E : Execution A)

/-- An event that is enqueued is executed at some time. -/
def Fair : Prop := ∀ n, (E.state n).event = true → ∃ m ≥ n, ∃ status, E.input m = .fsm status

/-- The state of the state machine before step `n`. -/
def at' (n : Nat) : RedmuleState := (E.state n).machine.fsm.state

/-- Step `n` is a trigger of the idle accelerator. -/
def Triggers (n : Nat) : Prop := (E.input n).IsTrigger ∧ E.at' n = .idle

/-- Request `n` is held: a wait that finds a busy accelerator that holds no request, or a
synchronous trigger of the idle accelerator. -/
def Holds (n : Nat) : Prop := ∃ io, E.input n = .mmio n io ∧ io.isWrite = false ∧
  ((io.offset = 40 ∧ (E.state n).machine.redmuleQuery = none ∧ E.at' n ≠ .idle) ∨
    (io.offset = 32 ∧ E.at' n = .idle))

/-- Until the next trigger, nothing is sent to the TCDM from step `m` on, and no run is
completed. -/
def Quiet (m : Nat) : Prop := ∀ k ≥ m, (∀ j, m ≤ j → j < k → ¬ E.Triggers j) →
  (E.state k).machine.trace = (E.state m).machine.trace ∧
    (E.state k).machine.numMatmul = (E.state m).machine.numMatmul

/-- Step `m` is the only one that answers request `n`, it belongs to the run that was busy after
step `n`, and that run has sent its last request to the TCDM. -/
structure Answered (n m : Nat) : Prop where
  later : n < m
  pending : E.answer n = .pending
  answer : E.answer m = .resp n
  once : ∀ m', E.answer m' = .resp n → m' = m
  same : ∀ k, n < k → k ≤ m → E.at' k ≠ .idle
  quiet : E.Quiet m

/-- The trigger at step `n` leads to one run, which is complete before step `f`. -/
structure CompleteRun (n f : Nat) : Prop where
  later : n < f
  running : ∀ k, n < k → k < f → (E.at' k).active = true
  finished : E.at' f = .finished
  counted : (E.state f).machine.numMatmul = (E.state n).machine.numMatmul + 1
  quiet : E.Quiet f

variable {E}

theorem sound (n : Nat) : (E.state n).Sound := by
  induction n with
  | zero =>
    obtain ⟨elemSize, buffers, mem, start⟩ := E.start
    rw [start]
    exact initial_sound
  | succ n ih => exact step_sound ih (step_cases ih (E.step n))

theorem stepCase (n : Nat) : StepCase A (E.state n) (E.input n) (E.state (n + 1)) (E.answer n) :=
  step_cases (sound n) (E.step n)

/-- A resting accelerator is quiet. -/
theorem quiet_of_resting {m : Nat} (resting : (E.at' m).active = false) : E.Quiet m := by
  intro k le noTrigger
  have kept : (E.at' k).active = false ∧
      (E.state k).machine.trace = (E.state m).machine.trace ∧
        (E.state k).machine.numMatmul = (E.state m).machine.numMatmul := by
    induction k, le using Nat.le_induction with
    | base => exact ⟨resting, rfl, rfl⟩
    | succ k le ih =>
      obtain ⟨resting', trace, num⟩ := ih fun j low high => noTrigger j low (Nat.lt_succ_of_lt high)
      obtain ⟨resting'', trace', num'⟩ := resting_step (sound k) (stepCase k) resting'
        (noTrigger k le (Nat.lt_succ_self k))
      exact ⟨resting'', trace'.trans trace, num'.trans num⟩
  exact kept.2

/-- A request that is held has been held since it was issued. -/
theorem held_since {k q : Nat} (held : (E.state k).machine.redmuleQuery = some q) :
    q < k ∧ ∀ j, q < j → j ≤ k → (E.state j).machine.redmuleQuery = some q := by
  induction k with
  | zero =>
    obtain ⟨elemSize, buffers, mem, start⟩ := E.start
    rw [start] at held
    cases held
  | succ k ih =>
    obtain before | ⟨io, issued⟩ := query_step (sound k) (stepCase k) held
    · obtain ⟨less, since⟩ := ih before
      refine ⟨Nat.lt_succ_of_lt less, fun j low high => ?_⟩
      rcases Nat.eq_or_lt_of_le high with rfl | high
      · exact held
      · exact since j low (Nat.le_of_lt_succ high)
    · obtain rfl := E.named k q io issued
      refine ⟨Nat.lt_succ_self q, fun j low high => ?_⟩
      obtain rfl : j = q + 1 := Nat.le_antisymm high low
      exact held

/-- A request is answered later at most once. -/
theorem answered_once {n m m' : Nat} (answer : E.answer m = .resp n)
    (answer' : E.answer m' = .resp n) :
    m' = m := by
  have step : ∀ k, E.answer k = .resp n → (E.state k).machine.redmuleQuery = some n ∧
      (E.state (k + 1)).machine.redmuleQuery = none := fun k resp =>
    answer_step (sound k) (resp ▸ stepCase k)
  have never : ∀ k k', E.answer k = .resp n → E.answer k' = .resp n → ¬ k < k' := by
    intro k k' resp resp' less
    obtain ⟨held, free⟩ := step k resp
    have since := (held_since (step k' resp').1).2 (k + 1)
      (Nat.lt_succ_of_lt (held_since held).1) less
    rw [free] at since
    cases since
  exact Nat.le_antisymm (Nat.le_of_not_lt (never m m' answer answer'))
    (Nat.le_of_not_lt (never m' m answer' answer))

/-- What is held after step `n` is answered once, after the last store of the run. -/
theorem eventually_answered (fair : E.Fair) {n : Nat} (pending : E.answer n = .pending)
    (held : (E.state (n + 1)).machine.redmuleQuery = some n) (busy : E.at' (n + 1) ≠ .idle) :
    ∃ m, E.Answered n m := by
  obtain ⟨m, le, idle, before⟩ := eventually_of_rank
    (fun k => (E.state k).machine.redmuleQuery = some n) (fun k => E.at' k = .idle)
    (fun k => ∃ status, E.input k = .fsm status) (fun k => rank (E.state k).machine)
    (fun k _ busy => fair k ((sound k).event.mpr busy))
    (fun k held busy => by
      obtain ⟨-, held', le, -⟩ | ⟨-, idle, -⟩ := held_step (sound k) (stepCase k) busy held
      · exact Or.inr ⟨held', le⟩
      · exact Or.inl idle)
    (fun k held busy act => by
      obtain ⟨-, -, -, -, less⟩ | ⟨-, idle, -⟩ := held_step (sound k) (stepCase k) busy held
      · exact Or.inr (less act)
      · exact Or.inl idle)
    (n + 1) held
  obtain ⟨m, rfl⟩ : ∃ m', m = m' + 1 := Nat.exists_eq_succ_of_ne_zero (by omega)
  have less : n < m := by
    rcases Nat.eq_or_lt_of_le le with same | less
    · exact absurd (same ▸ idle) busy
    · exact Nat.lt_of_succ_lt_succ less
  obtain ⟨held', busy'⟩ := before m less (Nat.lt_succ_self m)
  obtain ⟨still, -⟩ | ⟨resting, -, answer⟩ := held_step (sound m) (stepCase m) busy' held'
  · exact absurd idle still
  · exact ⟨m, ⟨less, pending, answer, fun m' answer' => answered_once answer answer',
      fun k low high => (before k low (Nat.lt_succ_of_le high)).2, quiet_of_resting resting⟩⟩

/-- A request that is held is answered once, after the last store of its run. -/
theorem held_answered (fair : E.Fair) {n : Nat} (holds : E.Holds n) : ∃ m, E.Answered n m := by
  obtain ⟨io, issued, read, ⟨offset, free, busy⟩ | ⟨offset, idle⟩⟩ := holds
  · have held := step_wait (A := A) (q := n) read offset free busy
    rw [← issued, E.step n] at held
    obtain ⟨state, pending⟩ := Prod.mk.inj (Option.some.inj held)
    apply eventually_answered fair pending
    · rw [state]
    · unfold at'
      rw [state]
      exact busy
  · have isTrigger : (E.input n).IsTrigger := by
      rw [issued]
      exact ⟨read, Or.inl offset⟩
    obtain ⟨preload, -, sync⟩ := accepted_step (sound n) (stepCase n) isTrigger idle
    obtain ⟨q, io', issued', held, pending⟩ := sync ⟨n, io, issued, offset⟩
    obtain rfl := E.named n q io' issued'
    apply eventually_answered fair pending held
    unfold at'
    rw [preload]
    decide

/-- A trigger of the idle accelerator leads to one run, which ends. -/
theorem trigger_runs (fair : E.Fair) {n : Nat} (triggers : E.Triggers n) :
    ∃ f, E.CompleteRun n f := by
  obtain ⟨isTrigger, idle⟩ := triggers
  obtain ⟨preload, num, -⟩ := accepted_step (sound n) (stepCase n) isTrigger idle
  have keep : ∀ k, (E.at' k).active = true ∧
      (E.state k).machine.numMatmul = (E.state n).machine.numMatmul →
      (E.at' (k + 1) = .finished ∧
        (E.state (k + 1)).machine.numMatmul = (E.state n).machine.numMatmul + 1) ∨
      (((E.at' (k + 1)).active = true ∧
        (E.state (k + 1)).machine.numMatmul = (E.state n).machine.numMatmul) ∧
        rank (E.state (k + 1)).machine ≤ rank (E.state k).machine ∧
          ((∃ status, E.input k = .fsm status) →
            rank (E.state (k + 1)).machine < rank (E.state k).machine)) := by
    rintro k ⟨active, num⟩
    obtain ⟨active', num', le, less⟩ | ⟨finished, num'⟩ := active_step (sound k) (stepCase k) active
    · exact Or.inr ⟨⟨active', num'.trans num⟩, le, less⟩
    · exact Or.inl ⟨finished, num'.trans (congrArg (· + 1) num)⟩
  obtain ⟨f, le, ⟨finished, counted⟩, before⟩ := eventually_of_rank
    (fun k => (E.at' k).active = true ∧
      (E.state k).machine.numMatmul = (E.state n).machine.numMatmul)
    (fun k => E.at' k = .finished ∧
      (E.state k).machine.numMatmul = (E.state n).machine.numMatmul + 1)
    (fun k => ∃ status, E.input k = .fsm status) (fun k => rank (E.state k).machine)
    (fun k inv _ => fair k ((sound k).event.mpr (ne_of_active inv.1 rfl)))
    (fun k inv _ => by
      obtain reached | ⟨inv', le, -⟩ := keep k inv
      · exact Or.inl reached
      · exact Or.inr ⟨inv', le⟩)
    (fun k inv _ act => by
      obtain reached | ⟨-, -, less⟩ := keep k inv
      · exact Or.inl reached
      · exact Or.inr (less act))
    (n + 1) ⟨by unfold at'; rw [preload]; rfl, num⟩
  refine ⟨f, Nat.lt_of_succ_le le, fun k low high => (before k low high).1.1, finished, counted, ?_⟩
  apply quiet_of_resting
  rw [finished]
  rfl

theorem CompleteRun.unique {n f f' : Nat} (run : E.CompleteRun n f) (run' : E.CompleteRun n f') :
    f = f' := by
  have never : ∀ {g g'}, E.CompleteRun n g → E.CompleteRun n g' → ¬ g < g' := by
    intro g g' run run' less
    exact ne_of_active (run'.running g run.later less) rfl run.finished
  exact Nat.le_antisymm (Nat.le_of_not_lt (never run' run)) (Nat.le_of_not_lt (never run run'))

/-- The next trigger comes after the run. -/
theorem CompleteRun.before_trigger {n n' f : Nat} (run : E.CompleteRun n f)
    (triggers : E.Triggers n') (later : n < n') : f < n' := by
  by_contra early
  have idle := triggers.2
  rcases Nat.eq_or_lt_of_le (Nat.le_of_not_lt early) with rfl | less
  · rw [run.finished] at idle
    cases idle
  · exact ne_of_active (run.running n' later less) rfl idle

end Execution

/-- Whatever the cores request, and if every event that is enqueued is executed some time: a wait
that finds a busy accelerator and no other request held, like the synchronous trigger of an idle
one, is answered exactly once, after the last request of its run to the TCDM.  A trigger of an idle
accelerator leads to exactly one run, which is complete before the next trigger starts one, and
there is no other run; a trigger of a busy accelerator is ignored.  No event is fatal unless the
TCDM fails. -/
theorem trigger_wait {A : Arch} (E : Execution A) (fair : E.Fair) :
    (∀ n, E.Holds n → ∃ m, E.Answered n m) ∧
      (∀ n, E.Triggers n → ∃! f, E.CompleteRun n f) ∧
      (∀ n n' f, E.CompleteRun n f → E.Triggers n' → n < n' → f < n') ∧
      (∀ n, E.at' n = .idle → E.at' (n + 1) ≠ .idle → E.Triggers n) ∧
      (∀ n, (E.input n).IsTrigger → E.at' n ≠ .idle →
        E.state (n + 1) = E.state n ∧ E.answer n = .ok) ∧
      (∀ n latency, (E.state n).event = true →
        ((E.state n).step A (.fsm (.ok latency))).isSome) := by
  refine ⟨fun n => Execution.held_answered fair, fun n triggers => ?_,
    fun n n' f run => run.before_trigger, fun n idle busy => ?_, fun n isTrigger busy => ?_,
    fun n latency enqueued => step_event_isSome (Execution.sound n) enqueued latency⟩
  · obtain ⟨f, run⟩ := Execution.trigger_runs fair triggers
    exact ⟨f, run, fun f' run' => run'.unique run⟩
  · exact ⟨idle_step (Execution.sound n) (Execution.stepCase n) idle busy, idle⟩
  · exact busy_trigger (Execution.stepCase n) isTrigger busy

/-! ## An execution -/

/-- A run is triggered, a core waits for it, and the events follow. -/
def waitingInput (s : System Nat) : Nat → Input Nat
  | 0 => .mmio 0 (readAt 36 0)
  | 1 => .mmio 1 (readAt 40 0)
  | n + 2 => if s.event then .fsm (.ok 0) else .mmio (n + 2) (readAt 100 0)

/-- The states of the execution. -/
def waitingState : Nat → System Nat
  | 0 => System.initial 2 zeroDatapath fun _ => 0
  | n + 1 =>
      ((waitingState n).step tinyArch (waitingInput (waitingState n) n)).elim (waitingState n)
      Prod.fst

/-- A request that is neither a trigger nor a wait is answered. -/
theorem step_read_isSome {A : Arch} {Q : Type*} {s : System Q} {q : Q} :
    (s.step A (.mmio q (readAt 100 0))).isSome := by
  dsimp only [System.step]
  rw [Option.isSome_map]
  unfold req
  rw [if_neg fun sync => absurd sync.2.1 (by decide),
    if_neg fun async => absurd async.2.1 (by decide),
    if_neg fun wait => absurd wait.2.1 (by decide)]
  rfl

theorem waiting_step (n : Nat) : (waitingState n).Sound ∧
    ((waitingState n).step tinyArch (waitingInput (waitingState n) n)).isSome := by
  have follows : ∀ n, (waitingState n).Sound →
      ((waitingState n).step tinyArch (waitingInput (waitingState n) n)).isSome := by
    intro n sound
    match n with
    | 0 => rfl
    | 1 => rfl
    | n + 2 =>
      unfold waitingInput
      dsimp only
      split
      · rename_i enqueued
        exact step_event_isSome sound enqueued 0
      · exact step_read_isSome
  induction n with
  | zero => exact ⟨initial_sound, follows 0 initial_sound⟩
  | succ n ih =>
    obtain ⟨sound, some⟩ := ih
    obtain ⟨⟨s', a⟩, stepped⟩ := Option.isSome_iff_exists.mp some
    have next : waitingState (n + 1) = s' := by
      rw [waitingState, stepped]
      rfl
    have sound' : (waitingState (n + 1)).Sound := by
      rw [next]
      exact step_sound sound (step_cases sound stepped)
    exact ⟨sound', follows (n + 1) sound'⟩

/-- The execution in which request 1 waits for the run that request 0 triggers. -/
def waitingExecution : Execution tinyArch where
  state := waitingState
  input n := waitingInput (waitingState n) n
  answer n :=
    ((waitingState n).step tinyArch (waitingInput (waitingState n) n)).elim .silent Prod.snd
  start := ⟨_, _, _, rfl⟩
  step n := by
    obtain ⟨⟨s', a⟩, stepped⟩ := Option.isSome_iff_exists.mp (waiting_step n).2
    rw [waitingState, stepped]
    rfl
  named n q io issued := by
    match n with
    | 0 => exact (Input.mmio.inj issued).1.symm
    | 1 => exact (Input.mmio.inj issued).1.symm
    | n + 2 =>
      unfold waitingInput at issued
      dsimp only at issued
      split at issued
      · cases issued
      · exact (Input.mmio.inj issued).1.symm

theorem waitingExecution_fair : waitingExecution.Fair := by
  intro n enqueued
  match n with
  | 0 => cases enqueued
  | 1 => exact ⟨2, by decide, .ok 0, rfl⟩
  | n + 2 => exact ⟨n + 2, le_refl _, .ok 0, if_pos enqueued⟩

theorem trigger_wait_waitingExecution :
    (∃ m, waitingExecution.Answered 1 m) ∧ ∃! f, waitingExecution.CompleteRun 0 f := by
  obtain ⟨answered, runs, -⟩ := trigger_wait waitingExecution waitingExecution_fair
  have holds : waitingExecution.Holds 1 :=
    ⟨readAt 40 0, rfl, rfl, Or.inl ⟨rfl, rfl, show RedmuleState.preload ≠ .idle by decide⟩⟩
  have triggers : waitingExecution.Triggers 0 := ⟨⟨rfl, Or.inr rfl⟩, rfl⟩
  exact ⟨answered 1 holds, runs 0 triggers⟩

/-- A second wait is answered before the run has sent any request to the TCDM, and a second trigger
is answered and changes nothing. -/
theorem busy_requests_answered : ∃ s₁ s₂ s₃ s₄ : System Unit,
    tinySystem.step tinyArch (.mmio () (readAt 36 0)) = some (s₁, .ok) ∧
      s₁.step tinyArch (.mmio () (readAt 40 0)) = some (s₂, .pending) ∧
      s₂.step tinyArch (.mmio () (readAt 40 0)) = some (s₃, .ok) ∧
      s₃.machine.fsm.state = .preload ∧ s₃.machine.fsm.tcdmBlockTotal = 2 ∧ s₃.machine.trace = [] ∧
      s₃.step tinyArch (.mmio () (readAt 36 0)) = some (s₄, .ok) ∧ s₄ = s₃ :=
  ⟨_, _, _, _, rfl, rfl, rfl, rfl, rfl, rfl, rfl, rfl⟩

end SoftHier.Redmule
