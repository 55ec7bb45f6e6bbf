import SoftHier.Redmule.Counters
import SoftHier.Redmule.Protocol
import SoftHier.Redmule.Report

/-!
# The runs of a job

A job with computation from its trigger on, whatever is requested meanwhile, as long as its sizes
stay: its counters, the iterations it goes through, and its end.

* `Tiles.triples`: the iterations in the order of nested loops.
* `JobRun`: the runs of a job, with the iterations they have begun.
* `System.after`: the state after some inputs.
* `counters_run`: the counters agree in every state, the iterations are those of the nested loops,
  no size subtraction underflows, and the run finishes.
-/

namespace SoftHier.Redmule

/-! ## Nested loops -/

/-- The indices of all iterations, in the order of nested loops. -/
def Tiles.triples (T : Tiles) : List Iter :=
  (List.range T.zColTiles).flatMap fun i => (List.range T.zRowTiles).flatMap fun j =>
    (List.range T.xRowTiles).map fun k => ⟨i, j, k⟩

/-- The first `n` iterations. -/
def Tiles.firsts (T : Tiles) (n : Nat) : List Iter := (List.range n).map (iterAt T)

/-- The lexicographic order. -/
def Iter.Precedes (it it' : Iter) : Prop :=
  it.i < it'.i ∨ it.i = it'.i ∧ (it.j < it'.j ∨ it.j = it'.j ∧ it.k < it'.k)

section

variable {T : Tiles}

theorem mem_triples {it : Iter} : it ∈ T.triples ↔ it.Inside T := by
  unfold Tiles.triples
  simp only [List.mem_flatMap, List.mem_map, List.mem_range]
  constructor
  · intro listed
    obtain ⟨i, hi, j, hj, k, hk, rfl⟩ := listed
    exact ⟨hi, hj, hk⟩
  · intro inside
    exact ⟨it.i, inside.i, it.j, inside.j, it.k, inside.k, rfl⟩

theorem triples_pairwise (T : Tiles) : T.triples.Pairwise Iter.Precedes := by
  unfold Tiles.triples
  refine List.pairwise_flatMap.mpr ⟨fun i _ => List.pairwise_flatMap.mpr ⟨fun j _ => ?_, ?_⟩, ?_⟩
  · rw [List.pairwise_map]
    exact List.pairwise_lt_range.imp fun less => Or.inr ⟨rfl, Or.inr ⟨rfl, less⟩⟩
  · refine List.pairwise_lt_range.imp fun less it mem it' mem' => ?_
    obtain ⟨k, -, rfl⟩ := List.mem_map.mp mem
    obtain ⟨k', -, rfl⟩ := List.mem_map.mp mem'
    exact Or.inr ⟨rfl, Or.inl less⟩
  · refine List.pairwise_lt_range.imp fun less it mem it' mem' => ?_
    obtain ⟨j, -, inner⟩ := List.mem_flatMap.mp mem
    obtain ⟨j', -, inner'⟩ := List.mem_flatMap.mp mem'
    obtain ⟨k, -, rfl⟩ := List.mem_map.mp inner
    obtain ⟨k', -, rfl⟩ := List.mem_map.mp inner'
    exact Or.inl less

/-- The nested loops go through the iterations by their numbers. -/
theorem triples_eq (T : Tiles) : T.triples = T.firsts T.total := by
  unfold Tiles.triples Tiles.firsts Tiles.total
  rw [List.map_eq_flatMap, flatMap_range_mul, flatMap_range_mul]
  refine List.flatMap_congr fun i hi => List.flatMap_congr fun j hj => ?_
  rw [List.map_eq_flatMap]
  refine List.flatMap_congr fun k hk => ?_
  have inside : Iter.Inside T ⟨i, j, k⟩ :=
    ⟨List.mem_range.mp hi, List.mem_range.mp hj, List.mem_range.mp hk⟩
  exact congrArg (fun it => [it]) (iterAt_index inside).symm

theorem firsts_prefix {n : Nat} (le : n ≤ T.total) : T.firsts n <+: T.triples := by
  have front : List.range n = (List.range T.total).take n := by
    rw [List.take_range, Nat.min_eq_left le]
  rw [triples_eq]
  unfold Tiles.firsts
  rw [front]
  exact (List.take_prefix n _).map (iterAt T)

theorem firsts_succ {it : Iter} (inside : it.Inside T) :
    T.firsts (it.index T + 1) = T.firsts (it.index T) ++ [it] := by
  unfold Tiles.firsts
  rw [List.range_succ, List.map_append, List.map_singleton, iterAt_index inside]

end

/-! ## Requests and events -/

section

variable {Q : Type*} {A : Arch} {s s' : Machine Q} {e : Effect Q}

theorem leave_fresh (active : s.fsm.state.active = true) (received : s.fsm.pendingReqQueue = []) :
    (leave A s).fsm.Fresh := by
  cases state : s.fsm.state with
  | preload =>
    have fsm : (leavePreload A s).fsm = (enterRoutine A s).fsm := forwardYZ_fsm
    rw [leave_preload state, fsm]
    exact Fsm.fresh_enter received _ _
  | routine =>
    have queue : (forwardLast A s).fsm.pendingReqQueue = [] := by
      rw [forwardLast_fsm]
      exact received
    rw [leave_routine state]
    unfold nextPhase
    dsimp only
    split
    · exact Fsm.fresh_enter queue _ _
    · exact Fsm.fresh_enter queue _ _
  | storing =>
    rw [leave_storing state]
    exact Fsm.fresh_enter received _ _
  | _ =>
    rw [state] at active
    cases active

theorem fsmHandler_fresh {status : TcdmStatus} (sound : s.Sound) (fresh : s.fsm.Fresh)
    (handled : fsmHandler A status s = some e) : e.machine.fsm.Fresh := by
  by_cases active : s.fsm.state.active = true
  · obtain ⟨s₁, accessed, next⟩ := fsmHandler_active active handled
    obtain ⟨-, ⟨latency, fsm⟩, -⟩ := accessPhase_spec sound active accessed
    have fresh₁ : s₁.fsm.Fresh := by
      rw [fsm]
      exact fresh.advance sound.bounded.fsm active _ _
    have active₁ : s₁.fsm.state.active = true := by
      rw [fsm, Fsm.advance_state]
      exact active
    rw [next]
    split
    · rename_i drained
      exact leave_fresh active₁ (Fsm.drained_iff.mp drained).2
    · exact fresh₁
  · have none := fresh.resting (Bool.eq_false_iff.mpr active)
    cases state : s.fsm.state with
    | idle =>
      rw [fsmHandler_idle state] at handled
      obtain rfl := Option.some.inj handled
      exact ⟨fresh.start, fresh.resting⟩
    | finished =>
      rw [fsmHandler_finished state] at handled
      obtain rfl := Option.some.inj handled
      dsimp only
      split
      · exact ⟨fresh.start, fresh.resting⟩
      · exact ⟨fresh.start, fun _ => none⟩
    | acknowledge =>
      obtain ⟨q, -, rfl⟩ := fsmHandler_acknowledge state handled
      exact ⟨fresh.start, fun _ => none⟩
    | _ =>
      rw [state] at active
      exact absurd rfl active

theorem trigger_fresh (fresh : s.fsm.Fresh) (idle : s.fsm.state = .idle)
    (triggered : trigger A s = some s') : s'.fsm.Fresh := by
  have none := fresh.resting (by rw [idle]; rfl)
  obtain ⟨-, -, -, rfl⟩ := trigger_eq triggered
  exact Fsm.fresh_enter (fresh.start none) _ _

/-- A trigger leaves the blocks of the first phase. -/
theorem trigger_counted (triggered : trigger A s = some s') (enabled : s'.computeAble ≠ 0)
    (m : s'.regs.mSize < 2 ^ 16) (n : s'.regs.nSize < 2 ^ 16) : Counted A s' := by
  obtain ⟨-, -, -, rfl⟩ := trigger_eq triggered
  have total := preload_total (A := A) (R := s.regs) (a := initAccess s.regs s.access) m
  exact ⟨⟨enabled, rfl, m, n⟩, (Nat.zero_add _).trans total.symm, fun _ => rfl,
    fun later => absurd rfl later⟩

end

section

variable {Q : Type*} {A : Arch} {s t : System Q} {i : Input Q} {a : Answer Q}

theorem step_fresh (sound : s.Sound) (fresh : s.machine.fsm.Fresh)
    (stepped : s.step A i = some (t, a)) :
    t.machine.fsm.Fresh := by
  cases i with
  | mmio q io =>
    obtain ⟨e, requested, rfl, -⟩ := step_mmio stepped
    obtain ⟨-, -, -, idle, u, triggered, rfl⟩ | ⟨-, -, idle, u, triggered, rfl⟩ |
      ⟨-, -, -, -, rfl⟩ | rfl :=
      req_cases requested
    · have fresh' : u.fsm.Fresh := trigger_fresh fresh idle triggered
      exact fresh'
    · have fresh' : u.fsm.Fresh := trigger_fresh fresh idle triggered
      exact fresh'
    · exact fresh
    · exact fresh
  | coreAcc io =>
    obtain ⟨e, requested, rfl, -⟩ := step_coreAcc stepped
    obtain ⟨-, -, rfl⟩ | ⟨-, idle, u, triggered, rfl⟩ | ⟨rfl, -⟩ := coreAccReq_cases requested
    · exact fresh
    · exact trigger_fresh (s := configureXWY io s.machine) fresh idle triggered
    · exact fresh
  | fsm status =>
    obtain ⟨-, e, handled, rfl, -⟩ := step_fsm stepped
    exact fsmHandler_fresh sound.machine fresh handled

/-- Only the request of a core starts a job with computation. -/
theorem step_start (sound : s.Sound) (stepped : s.step A i = some (t, a))
    (idle : s.machine.fsm.state = .idle) (preload : t.machine.fsm.state = .preload)
    (enabled : t.machine.computeAble ≠ 0) : ∃ u, trigger A u = some t.machine := by
  have other : ∀ {m : Machine Q}, m.fsm = s.machine.fsm → m.fsm.state ≠ .preload := by
    intro m same
    rw [same, idle]
    decide
  cases i with
  | mmio q io =>
    obtain ⟨e, requested, rfl, -⟩ := step_mmio stepped
    obtain ⟨-, -, -, -, u, -, rfl⟩ | ⟨-, -, -, u, -, rfl⟩ | ⟨-, -, -, -, rfl⟩ | rfl :=
      req_cases requested
    · exact absurd rfl enabled
    · exact absurd rfl enabled
    · exact absurd preload (other rfl)
    · exact absurd preload (other rfl)
  | coreAcc io =>
    obtain ⟨e, requested, rfl, -⟩ := step_coreAcc stepped
    obtain ⟨-, -, rfl⟩ | ⟨-, -, u, triggered, rfl⟩ | ⟨rfl, -⟩ := coreAccReq_cases requested
    · exact absurd preload (other rfl)
    · exact ⟨_, triggered⟩
    · exact absurd preload (other rfl)
  | fsm status => exact absurd idle (sound.event.mp (step_fsm stepped).1)

end

/-! ## Runs -/

/-- The sizes of a job. -/
def Regs.sizes (R : Regs) : Nat × Nat × Nat := (R.mSize, R.nSize, R.kSize)

section

variable {Q : Type*}

/-- What the constructor and any requests and events lead to. -/
inductive Reached (A : Arch) : System Q → Prop
  | initial (elemSize : Nat) (buffers : Datapath) (mem : Buffer) :
      Reached A (System.initial elemSize buffers mem)
  | step {s t : System Q} {i : Input Q} {a : Answer Q} (reached : Reached A s)
      (stepped : s.step A i = some (t, a)) : Reached A t

/-- The iteration that an input begins: none of its requests has been sent. -/
def begun (i : Input Q) (s : Machine Q) : List Iter :=
  match i with
  | .fsm _ => if s.fsm.state = .routine ∧ s.fsm.fsmCounter = 0 then [s.iter] else []
  | _ => []

/-- The runs of a job from its trigger on, with the iterations that they have begun.  Any requests
come between the events, but none that changes the sizes. -/
inductive JobRun (A : Arch) : System Q → List Iter → Prop
  | trigger {s t : System Q} {i : Input Q} {a : Answer Q} (reached : Reached A s)
      (idle : s.machine.fsm.state = .idle) (stepped : s.step A i = some (t, a))
      (triggered : t.machine.fsm.state = .preload) : JobRun A t []
  | step {s t : System Q} {i : Input Q} {a : Answer Q} {visited : List Iter}
    (run : JobRun A s visited)
      (busy : s.machine.fsm.state ≠ .idle) (stepped : s.step A i = some (t, a))
      (sizes : t.machine.regs.sizes = s.machine.regs.sizes) :
      JobRun A t (visited ++ begun i t.machine)

/-- The iterations that have begun, by the state of the state machine. -/
def Machine.visits (s : Machine Q) : List Iter :=
  match s.fsm.state with
  | .preload => []
  | .routine => s.tiles.firsts (s.iter.index s.tiles + 1)
  | _ => s.tiles.triples

variable {A : Arch} {s t : System Q} {i : Input Q} {a : Answer Q} {visited : List Iter}

theorem Reached.sound (reached : Reached A s) : s.Sound ∧ s.machine.fsm.Fresh := by
  induction reached with
  | initial elemSize buffers mem => exact ⟨initial_sound, fun _ => rfl, fun _ => rfl⟩
  | step _ stepped ih =>
    obtain ⟨sound, fresh⟩ := ih
    exact ⟨step_sound sound (step_cases sound stepped), step_fresh sound fresh stepped⟩

theorem JobRun.reached (run : JobRun A s visited) : Reached A s := by
  induction run with
  | trigger reached _ stepped => exact .step reached stepped
  | step _ _ stepped _ ih => exact .step ih stepped

theorem begun_request {s : Machine Q} (request : ∀ status, i ≠ .fsm status) : begun i s = [] := by
  cases i with
  | fsm status => exact absurd rfl (request status)
  | _ => rfl

theorem begun_eq_nil {s : Machine Q} (other : s.fsm.state = .routine → s.fsm.fsmCounter ≠ 0) :
    begun i s = [] := by
  cases i with
  | fsm status => exact if_neg fun both => other both.1 both.2
  | _ => rfl

theorem visits_preload {s : Machine Q} (state : s.fsm.state = .preload) : s.visits = [] := by
  unfold Machine.visits
  rw [state]

theorem visits_routine {s : Machine Q} (state : s.fsm.state = .routine) :
    s.visits = s.tiles.firsts (s.iter.index s.tiles + 1) := by
  unfold Machine.visits
  rw [state]

theorem visits_later {s : Machine Q} (state : s.fsm.state = .storing ∨ s.fsm.state.active = false) :
    s.visits = s.tiles.triples := by
  unfold Machine.visits
  split
  · rename_i preload
    rw [preload] at state
    obtain same | same := state <;> cases same
  · rename_i routine
    rw [routine] at state
    obtain same | same := state <;> cases same
  · rfl

/-- What an event begins is the next iteration. -/
theorem Move.visits {s t : Machine Q} {status : TcdmStatus} (move : Move s t)
    (tiles : t.tiles = s.tiles) (sound : t.Sound) :
    t.visits = s.visits ++ begun (.fsm status : Input Q) t := by
  cases move with
  | stay state iter sent =>
    rw [begun_eq_nil fun _ => Nat.ne_of_gt sent, List.append_nil]
    unfold Machine.visits
    rw [state, iter, tiles]
  | first preload routine iter start =>
    have one : begun (.fsm status : Input Q) t = [t.iter] := if_pos ⟨routine, start⟩
    rw [visits_preload preload, visits_routine routine, one, firsts_succ (sound.inside routine),
      iter, index_first]
    rfl
  | next routine routine' iter start =>
    have one : begun (.fsm status : Input Q) t = [t.iter] := if_pos ⟨routine', start⟩
    rw [visits_routine routine, visits_routine routine', one, firsts_succ (sound.inside routine'),
      tiles, iter]
  | last routine storing iter =>
    have none : begun (.fsm status : Input Q) t = [] :=
      begun_eq_nil (other_state storing (by decide))
    rw [visits_routine routine, visits_later (Or.inl storing), tiles, iter, triples_eq, none,
      List.append_nil]
  | finish storing finished =>
    have none : begun (.fsm status : Input Q) t = [] :=
      begun_eq_nil (other_state finished (by decide))
    rw [visits_later (Or.inl storing), visits_later (Or.inr (by rw [finished]; rfl)), tiles, none,
      List.append_nil]

/-- The tiling depends on the sizes and the element size. -/
theorem initTiles_congr {R R' : Regs} (sizes : R.sizes = R'.sizes)
    (elem : R.elemSize = R'.elemSize) :
    initTiles A R = initTiles A R' := by
  obtain ⟨m, rest⟩ := Prod.mk.inj sizes
  obtain ⟨n, k⟩ := Prod.mk.inj rest
  unfold initTiles
  rw [m, n, k, elem]

theorem Counted.of_regs {s : Machine Q} {R : Regs} (counted : Counted A s)
    (sizes : R.sizes = s.regs.sizes) (elem : R.elemSize = s.regs.elemSize) :
    Counted A { s with regs := R } := by
  have m : R.mSize = s.regs.mSize := congrArg Prod.fst sizes
  have n : R.nSize = s.regs.nSize := congrArg (fun p => p.2.1) sizes
  have job := counted.job
  refine ⟨⟨job.enabled, ?_, ?_, ?_⟩, counted.counters, counted.first, fun later => ?_⟩
  · exact job.tiles.trans (initTiles_congr sizes elem).symm
  · exact Nat.lt_of_le_of_lt (Nat.le_of_eq m) job.mSize
  · exact Nat.lt_of_le_of_lt (Nat.le_of_eq n) job.nSize
  · exact Nat.le_trans (counted.height later) (Nat.le_of_eq m.symm)

/-- A job that is over stays over, with nothing to count. -/
theorem resting_counted {s : Machine Q} {f : Fsm} (query : Option Q) (counted : Counted A s)
    (resting : s.fsm.state.active = false) (resting' : f.state.active = false)
    (counter : f.fsmCounter = s.fsm.fsmCounter) (total : f.tcdmBlockTotal = s.fsm.tcdmBlockTotal)
    (status : TcdmStatus) : Counted A { s with fsm := f, redmuleQuery := query } ∧
      ({ s with fsm := f, redmuleQuery := query } : Machine Q).visits =
        s.visits ++ begun (.fsm status : Input Q) { s with fsm := f, redmuleQuery := query } := by
  refine ⟨⟨counted.job.of_job rfl, ?_, fun preload => ?_, fun _ => ?_⟩, ?_⟩
  · dsimp only
    rw [counter, total]
    exact counted.counters
  · exact absurd (active_of_eq preload rfl) (Bool.eq_false_iff.mp resting')
  · apply counted.height
    intro preload
    exact absurd (active_of_eq preload rfl) (Bool.eq_false_iff.mp resting)
  · rw [visits_later (Or.inr resting), visits_later (Or.inr resting'), begun_eq_nil,
      List.append_nil]
    intro routine
    exact absurd (active_of_eq routine rfl) (Bool.eq_false_iff.mp resting')

/-- Every step of a job keeps the counters, and begins the next iteration or none. -/
theorem busy_step (sound : s.Sound) (fresh : s.machine.fsm.Fresh) (counted : Counted A s.machine)
    (busy : s.machine.fsm.state ≠ .idle) (stepped : s.step A i = some (t, a))
    (sizes : t.machine.regs.sizes = s.machine.regs.sizes) :
    Counted A t.machine ∧ t.machine.visits = s.machine.visits ++ begun i t.machine := by
  have elem := step_elemSize busy stepped
  have sound' := step_sound sound (step_cases sound stepped)
  cases step_cases sound stepped with
  | registers R _ _ request =>
    rw [begun_request request, List.append_nil]
    exact ⟨counted.of_regs sizes elem, rfl⟩
  | trigger _ idle => exact absurd idle busy
  | wait => exact ⟨⟨counted.job.of_job rfl, counted.counters, counted.first, counted.height⟩,
      (List.append_nil _).symm⟩
  | @event status e enqueued handled =>
    obtain ⟨active, -⟩ | ⟨finished, -, rfl⟩ | ⟨finished, -, rfl⟩ | ⟨acknowledge, q, -, rfl⟩ :=
      event_cases sound enqueued handled
    · obtain ⟨counted', move⟩ := event_moves sound.machine fresh counted active handled
      have tiles : e.machine.tiles = s.machine.tiles :=
        congrArg (fun j => j.2.2) (fsmHandler_job handled)
      exact ⟨counted', move.visits tiles sound'.machine⟩
    · have resting : s.machine.fsm.state.active = false := by rw [finished]; rfl
      exact resting_counted (f := s.machine.fsm.tick) s.machine.redmuleQuery counted resting resting
        rfl rfl status
    · exact resting_counted (f := { s.machine.fsm.tick with state := .acknowledge })
        s.machine.redmuleQuery counted (by rw [finished]; rfl) rfl rfl rfl status
    · exact resting_counted (f := { s.machine.fsm.tick with state := .idle }) none counted
        (by rw [acknowledge]; rfl) rfl rfl rfl status

/-- A busy accelerator keeps its mode. -/
theorem busy_mode (sound : s.Sound) (busy : s.machine.fsm.state ≠ .idle)
    (stepped : s.step A i = some (t, a)) : t.machine.computeAble = s.machine.computeAble := by
  cases step_cases sound stepped with
  | registers => rfl
  | trigger _ idle => exact absurd idle busy
  | wait => rfl
  | event enqueued handled => exact congrArg (fun j => j.2.1) (fsmHandler_job handled)

/-- The counters and the iterations of a run. -/
theorem JobRun.counted (run : JobRun A s visited) (enabled : s.machine.computeAble ≠ 0)
    (m : s.machine.regs.mSize < 2 ^ 16) (n : s.machine.regs.nSize < 2 ^ 16) :
    Counted A s.machine ∧ visited = s.machine.visits := by
  induction run with
  | trigger reached idle stepped triggered =>
    obtain ⟨u, accepted⟩ := step_start reached.sound.1 stepped idle triggered enabled
    exact ⟨trigger_counted accepted enabled m n, (visits_preload triggered).symm⟩
  | step run busy stepped sizes ih =>
    obtain ⟨sound, fresh⟩ := run.reached.sound
    have sizeM := congrArg Prod.fst sizes
    have sizeN := congrArg (fun p => p.2.1) sizes
    obtain ⟨counted, visits⟩ := ih (busy_mode sound busy stepped ▸ enabled)
      (Nat.lt_of_le_of_lt (Nat.le_of_eq sizeM.symm) m)
      (Nat.lt_of_le_of_lt (Nat.le_of_eq sizeN.symm) n)
    obtain ⟨counted', visits'⟩ := busy_step sound fresh counted busy stepped sizes
    exact ⟨counted', by rw [visits, visits']⟩

end

/-! ## The end of a run -/

section

variable {Q : Type*}

/-- The state after the first `n` inputs. -/
def System.after (A : Arch) (s : System Q) (input : Nat → Input Q) : Nat → Option (System Q)
  | 0 => some s
  | n + 1 => (s.after A input n).bind fun t => (t.step A (input n)).map Prod.fst

/-- Events come again and again, and the TCDM answers each access after a finite time. -/
structure Timely (input : Nat → Input Q) : Prop where
  answered : ∀ n status, input n = .fsm status → ∃ latency, status = .ok latency
  events : ∀ n, ∃ m ≥ n, ∃ status, input m = .fsm status

/-- The accelerator is finished after some inputs, and was working until then. -/
def Completes (A : Arch) (s : System Q) (input : Nat → Input Q) : Prop :=
  ∃ n t, s.after A input n = some t ∧ t.machine.fsm.state = .finished ∧
    ∀ m < n, ∃ u, s.after A input m = some u ∧ u.machine.fsm.state.active = true

variable {A : Arch} {s t : System Q} {i : Input Q}

/-- A busy accelerator takes every request. -/
theorem request_isSome (busy : s.machine.fsm.state ≠ .idle) (request : ∀ status, i ≠ .fsm status) :
    (s.step A i).isSome := by
  cases i with
  | mmio q io =>
    dsimp only [System.step]
    rw [Option.isSome_map]
    unfold req
    rw [if_neg fun sync => busy sync.2.2.2, if_neg fun async => busy async.2.2]
    split <;> rfl
  | coreAcc io =>
    dsimp only [System.step]
    rw [Option.isSome_map]
    unfold coreAccReq
    rw [if_neg busy, if_neg busy]
    split
    · rfl
    · split <;> rfl
  | fsm status => exact absurd rfl (request status)

/-- No input of a timely sequence is fatal to a busy accelerator. -/
theorem timely_isSome {input : Nat → Input Q} (timely : Timely input) (sound : s.Sound)
    (busy : s.machine.fsm.state ≠ .idle) (n : Nat) : (s.step A (input n)).isSome := by
  cases given : input n with
  | fsm status =>
    obtain ⟨latency, rfl⟩ := timely.answered n status given
    exact step_event_isSome sound (sound.event.mpr busy) latency
  | _ => exact request_isSome busy fun status same => by cases same

theorem completes {input : Nat → Input Q} (timely : Timely input) (sound : s.Sound)
    (active : s.machine.fsm.state.active = true) : Completes A s input := by
  let at' (n : Nat) : System Q := (s.after A input n).getD s
  let inv (n : Nat) : Prop := s.after A input n = some (at' n) ∧ (at' n).Sound ∧
    (at' n).machine.fsm.state.active = true
  let goal (n : Nat) : Prop := s.after A input n = some (at' n) ∧
    (at' n).machine.fsm.state = .finished
  have next : ∀ n, inv n → goal (n + 1) ∨ inv (n + 1) ∧
      rank (at' (n + 1)).machine ≤ rank (at' n).machine ∧
        ((∃ status, input n = .fsm status) →
          rank (at' (n + 1)).machine < rank (at' n).machine) := by
    intro n here
    obtain ⟨came, sound, active⟩ := here
    have busy : (at' n).machine.fsm.state ≠ .idle := ne_of_active active rfl
    obtain ⟨⟨t, a⟩, stepped⟩ :=
      Option.isSome_iff_exists.mp (timely_isSome (A := A) timely sound busy n)
    have came' : s.after A input (n + 1) = some t := by
      rw [System.after, came, Option.bind_some, stepped]
      rfl
    have same : at' (n + 1) = t := congrArg (·.getD s) came'
    have case := step_cases sound stepped
    rw [← same] at case came'
    obtain ⟨active', -, le, less⟩ | ⟨finished, -⟩ := active_step sound case active
    · exact Or.inr ⟨⟨came', step_sound sound case, active'⟩, le, less⟩
    · exact Or.inl ⟨came', finished⟩
  obtain ⟨n, -, ⟨came, finished⟩, before⟩ := eventually_of_rank inv goal
    (fun n => ∃ status, input n = .fsm status) (fun n => rank (at' n).machine)
    (fun n _ _ => timely.events n)
    (fun n here _ => (next n here).imp id fun later => ⟨later.1, later.2.1⟩)
    (fun n here _ act => (next n here).imp id fun later => later.2.2 act) 0 ⟨rfl, sound, active⟩
  refine ⟨n, at' n, came, finished, fun m less => ?_⟩
  obtain ⟨⟨came', -, active'⟩, -⟩ := before m (Nat.zero_le m) less
  exact ⟨at' m, came', active'⟩

/-! ## The invariant -/

/-- A run has gone through the front of the nested loops, up to the current iteration, and in the
end through all of them. -/
structure Visits (T : Tiles) (s : Machine Q) (visited : List Iter) : Prop where
  front : visited <+: T.triples
  ordered : visited.Pairwise Iter.Precedes
  current : s.fsm.state = .routine → visited.getLast? = some s.iter
  complete : s.fsm.state = .storing ∨ s.fsm.state.active = false →
    visited = T.triples ∧ ∀ it : Iter, it ∈ visited ↔ it.Inside T

/-- No subtraction of the function that has counted the blocks of the phase underflows. -/
structure NoUnderflow (A : Arch) (s : Machine Q) : Prop where
  routine : s.fsm.state = .routine → ∀ zStoreHeight a,
    routineChecked A s.regs s.tiles s.iter zStoreHeight a =
      some (getRoutineAccessBlockNumber A s.regs s.tiles s.iter zStoreHeight a)
  storing : s.fsm.state = .storing → ∀ zStoreHeight a,
    storingChecked A s.regs s.tiles zStoreHeight a =
      some (getStoringAccessBlockNumber A s.regs s.tiles zStoreHeight a)

theorem Counted.noUnderflow {m : Machine Q} (sound : m.Sound) (counted : Counted A m) :
    NoUnderflow A m where
  routine state := routine_checked counted.job.tiles (sound.tiles (active_of_eq state rfl))
    (sound.inside state) sound.bounded.mSize
  storing state := storing_checked (sound.tiles (active_of_eq state rfl))

theorem visits_spec {m : Machine Q} (sound : m.Sound) : Visits m.tiles m m.visits := by
  have front : m.visits <+: m.tiles.triples := by
    cases state : m.fsm.state with
    | preload =>
      rw [visits_preload state]
      exact List.nil_prefix
    | routine =>
      rw [visits_routine state]
      exact firsts_prefix (index_lt (sound.inside state))
    | storing => rw [visits_later (Or.inl state)]
    | _ => rw [visits_later (Or.inr (by rw [state]; rfl))]
  refine ⟨front, (triples_pairwise _).sublist front.sublist, fun routine => ?_, fun later => ?_⟩
  · rw [visits_routine routine, firsts_succ (sound.inside routine)]
    exact List.getLast?_concat
  · rw [visits_later later]
    exact ⟨rfl, fun it => mem_triples⟩

/-- In every state of a run of a job with computation, whose M and N have 16 bits, and whatever is
requested meanwhile: what the state machine has counted and the blocks that are left are the total
of the phase, and as long as there is something to request there is an address.  The iterations are
those of the nested loops, in their order.  No size subtraction underflows, and if the TCDM answers
each access after a finite time the run finishes. -/
theorem counters_run {visited : List Iter} (run : JobRun A s visited)
    (enabled : s.machine.computeAble ≠ 0) (m : s.machine.regs.mSize < 2 ^ 16)
    (n : s.machine.regs.nSize < 2 ^ 16) :
    s.machine.fsm.fsmCounter + (s.machine.access.xAccBlock + s.machine.access.wAccBlock +
        s.machine.access.yAccBlock + s.machine.access.zAccBlock) = s.machine.fsm.tcdmBlockTotal ∧
      (s.machine.fsm.fsmCounter < s.machine.fsm.tcdmBlockTotal →
        (nextAddr A s.machine.regs s.machine.data.zStoreWidth s.machine.access).isSome) ∧
      Visits (initTiles A s.machine.regs) s.machine visited ∧ NoUnderflow A s.machine ∧
      (s.machine.fsm.state.active = true → ∀ input, Timely input → Completes A s input) := by
  obtain ⟨sound, -⟩ := run.reached.sound
  obtain ⟨counted, rfl⟩ := run.counted enabled m n
  have counters := counted.counters
  have blocks : s.machine.access.blocks = s.machine.access.xAccBlock + s.machine.access.wAccBlock +
      s.machine.access.yAccBlock + s.machine.access.zAccBlock := by
    unfold Access.blocks
    omega
  refine ⟨blocks ▸ counters, fun more => nextAddr_isSome (by omega), ?_,
    counted.noUnderflow sound.machine, fun active input timely => completes timely sound active⟩
  rw [← counted.job.tiles]
  exact visits_spec sound.machine

end

/-! ## A job of eight iterations -/

section

variable {Q : Type*} {A : Arch} {s t : System Q}

/-- What a job has come to after some more inputs, and the iterations it has begun. -/
def watch (A : Arch) : List (Input Q) → System Q → List Iter → Option (System Q × List Iter)
  | [], s, visited => some (s, visited)
  | i :: inputs, s, visited =>
    (s.step A i).bind fun (t, _) =>
      if s.machine.fsm.state ≠ .idle ∧ t.machine.regs.sizes = s.machine.regs.sizes then
        watch A inputs t (visited ++ begun i t.machine)
      else none

theorem watch_run {inputs : List (Input Q)} {visited visited' : List Iter}
    (run : JobRun A s visited) (watched : watch A inputs s visited = some (t, visited')) :
    JobRun A t visited' := by
  induction inputs generalizing s visited with
  | nil =>
    obtain ⟨rfl, rfl⟩ := Prod.mk.inj (Option.some.inj watched)
    exact run
  | cons i inputs ih =>
    obtain ⟨⟨u, a⟩, stepped, rest⟩ := Option.bind_eq_some_iff.mp watched
    dsimp only at rest
    split at rest
    · rename_i kept
      exact ih (.step run kept.1 stepped kept.2) rest
    · cases rest

end

/-- A job of the given sizes, which a core configures and starts with unsigned 16-bit elements. -/
def watchedJob (A : Arch) (m n k : BitVec 16) (inputs : List (Input Unit)) :
    Option (System Unit × List Iter) :=
  (tinySystem.step A (.coreAcc (sizesAt m n k))).bind fun (s, _) =>
    if s.machine.fsm.state = .idle then
      (s.step A (.coreAcc (startAt 1))).bind fun (t, _) =>
        if t.machine.fsm.state = .preload then watch A inputs t [] else none
    else none

theorem watchedJob_run {A : Arch} {m n k : BitVec 16} {inputs : List (Input Unit)} {s : System Unit}
    {visited : List Iter} (watched : watchedJob A m n k inputs = some (s, visited)) :
    JobRun A s visited := by
  obtain ⟨⟨u, a⟩, configured, rest⟩ := Option.bind_eq_some_iff.mp watched
  dsimp only at rest
  split at rest
  · rename_i idle
    obtain ⟨⟨t, a'⟩, started, rest⟩ := Option.bind_eq_some_iff.mp rest
    dsimp only at rest
    split at rest
    · rename_i preload
      have reached : Reached A u := .step (.initial 2 zeroDatapath fun _ => 0) configured
      exact watch_run (.trigger reached idle started preload) rest
    · cases rest
  · cases rest

/-- What is seen of a job. -/
def progress (r : System Unit × List Iter) : RedmuleState × Iter × Nat × Nat × Nat × Nat :=
  (r.1.machine.fsm.state, r.1.machine.iter, r.1.machine.computeAble, r.1.machine.regs.mSize,
    r.1.machine.regs.nSize, r.2.length)

/-- A core waits for a job whose tiles are two in each direction, of which six have begun. -/
theorem counters_run_tinyArch : ∃ (s : System Unit)
    (visited : List Iter), JobRun tinyArch s visited ∧
    s.machine.iter = ⟨1, 0, 1⟩ ∧ visited.length = 6 ∧
      s.machine.fsm.fsmCounter + (s.machine.access.xAccBlock + s.machine.access.wAccBlock +
        s.machine.access.yAccBlock + s.machine.access.zAccBlock) = s.machine.fsm.tcdmBlockTotal ∧
      Visits (initTiles tinyArch s.machine.regs) s.machine visited ∧
        NoUnderflow tinyArch s.machine ∧
      Completes tinyArch s fun _ => .fsm (.ok 0) := by
  have seen : (watchedJob tinyArch 2 3 3
      (.fsm (.ok 0) :: .mmio () (readAt 40 0) :: List.replicate 20 (.fsm (.ok 0)))).map progress =
        some (.routine, ⟨1, 0, 1⟩, 1, 2, 3, 6) := by decide +kernel
  obtain ⟨⟨s, visited⟩, watched, same⟩ := Option.map_eq_some_iff.mp seen
  obtain ⟨state, iter, mode, m, n, length⟩ := by simpa only [progress, Prod.mk.injEq] using same
  have run := watchedJob_run watched
  obtain ⟨counters, -, visits, noUnderflow, finishes⟩ := counters_run run (by rw [mode]; decide)
    (by rw [m]; decide) (by rw [n]; decide)
  have timely : Timely fun _ => (.fsm (.ok 0) : Input Unit) :=
    ⟨fun _ status same => ⟨0, (Input.fsm.inj same).symm⟩, fun n => ⟨n, le_refl n, .ok 0, rfl⟩⟩
  exact ⟨s, visited, run, iter, length, counters, visits, noUnderflow,
    finishes (by rw [state]; rfl) _ timely⟩

end SoftHier.Redmule
