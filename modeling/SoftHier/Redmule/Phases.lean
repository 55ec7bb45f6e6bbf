import SoftHier.Redmule.Progress

/-!
# The phases of a job

A job without its timing: a phase makes all its accesses and jumps.  Whatever the latencies of the
TCDM, the events of the state machine go through these phases, so that the state at the end of a
job does not depend on them.

* `events`: the events of the state machine, given the latency of the access at each.
* `phase`: the accesses of a phase, and its jump.
* `phase_event`: an event ends the phase, or leaves the rest of the phase what it was.
* `Finishes`, `finishes_iff`: where the events arrive when the job is finished.
-/

namespace SoftHier.Redmule

section

variable {Q : Type*} (A : Arch)

/-- The first `n` events, where the access at event `i` takes `latency i`. -/
def events (latency : Nat → Nat) : Nat → Machine Q → Option (Machine Q)
  | 0, s => some s
  | n + 1, s => (fsmHandler A (.ok (latency 0)) s).bind fun e =>
      events (fun i => latency (i + 1)) n e.machine

/-- The accesses whose data is processed before they are sent. -/
def processedBefore : RedmuleState → IterInstruction → Bool
  | .preload => fun _ => false
  | _ => isStorZ

/-- The accesses whose data is processed after they are sent. -/
def processedAfter : RedmuleState → IterInstruction → Bool
  | .preload => fun _ => true
  | .routine => fun instr => !isStorZ instr
  | _ => fun _ => false

/-- The jump out of a phase. -/
def leave (s : Machine Q) : Machine Q :=
  match s.fsm.state with
  | .preload => leavePreload A s
  | .routine => leaveRoutine A s
  | .storing => leaveStoring s
  | _ => s

/-- The next `n` accesses of a phase. -/
def accesses : Nat → Machine Q → Option (Machine Q)
  | 0, s => some s
  | n + 1, s =>
    (sendRequest A (processedBefore s.fsm.state) (processedAfter s.fsm.state) s).bind (accesses n)

/-- The counters at the start of a phase. -/
def settle (s : Machine Q) : Machine Q := { s with fsm := ⟨s.fsm.state, 0, 0, 0, []⟩ }

/-- The rest of a phase. -/
def phase (s : Machine Q) : Option (Machine Q) :=
  (accesses A (s.fsm.tcdmBlockTotal - s.fsm.fsmCounter) (settle s)).map (leave A)

/-- The next `n` phases. -/
def phases : Nat → Machine Q → Option (Machine Q)
  | 0, s => some s
  | n + 1, s => (phases n s).bind (phase A)

/-- The events of a job lead to its end, which is reached first in `s'`. -/
def Finishes (latency : Nat → Nat) (s s' : Machine Q) : Prop :=
  s'.fsm.state = .finished ∧ ∃ n, events A latency n s = some s' ∧
    ∀ m < n, ∀ u, events A latency m s = some u → u.fsm.state ≠ .finished

end

section

variable {Q : Type*} {A : Arch} {s s' : Machine Q} {e : Effect Q}

/-- An event of a working accelerator: an access, and the jump if the phase is over. -/
theorem fsmHandler_active {status : TcdmStatus} (active : s.fsm.state.active = true)
    (handled : fsmHandler A status s = some e) :
    ∃ s₁, accessPhase A (processedBefore s.fsm.state) (processedAfter s.fsm.state) status
        { s with fsm := s.fsm.tick } = some s₁ ∧
      e.machine = if s₁.fsm.drained then leave A s₁ else s₁ := by
  have kept : ∀ {before after s₁}, accessPhase A before after status { s with fsm := s.fsm.tick } =
      some s₁ → s₁.fsm.state = s.fsm.state := by
    intro before after s₁ accessed
    obtain ⟨-, rfl⟩ | ⟨-, latency, sent, -, -, rfl⟩ := accessPhase_cases accessed
    · rfl
    · rfl
  cases state : s.fsm.state with
  | preload =>
    obtain ⟨s₁, accessed, rfl⟩ := fsmHandler_preload state handled
    have state₁ := (kept accessed).trans state
    exact ⟨s₁, accessed, by simp only [leave, state₁]⟩
  | routine =>
    obtain ⟨s₁, latency, accessed, rfl⟩ := fsmHandler_routine state handled
    have state₁ := (kept accessed).trans state
    exact ⟨s₁, accessed, by simp only [leave, state₁]⟩
  | storing =>
    obtain ⟨s₁, accessed, rfl⟩ := fsmHandler_storing state handled
    have state₁ := (kept accessed).trans state
    exact ⟨s₁, accessed, by simp only [leave, state₁]⟩
  | _ =>
    rw [state] at active
    cases active

/-- A request looks at nothing of the counters but the state. -/
theorem sendRequest_settle (before after : IterInstruction → Bool) :
    sendRequest A before after (settle s) = (sendRequest A before after s).map settle := by
  unfold sendRequest
  rw [Option.map_map]
  rfl

/-! ## A jump looks at nothing of the counters but the state and the queue -/

theorem enter_congr {f g : Fsm} (queue : f.pendingReqQueue = g.pendingReqQueue)
    (state : RedmuleState) (total : Nat) : f.enter state total = g.enter state total := by
  unfold Fsm.enter
  rw [queue]

theorem forwardYZ_settle : forwardYZ A (settle s) = settle (forwardYZ A s) := by
  unfold forwardYZ
  split
  · rename_i enabled
    have enabled' : s.computeAble ≠ 0 := enabled
    rw [if_pos enabled']
    rfl
  · rename_i disabled
    have disabled' : ¬ s.computeAble ≠ 0 := disabled
    rw [if_neg disabled']

theorem forwardLast_settle : forwardLast A (settle s) = settle (forwardLast A s) := by
  unfold forwardLast
  split
  · rename_i last
    have last' : u32 (s.iter.k + 1) = s.tiles.xRowTiles := last
    rw [if_pos last', forwardYZ_settle]
  · rename_i more
    have more' : ¬ u32 (s.iter.k + 1) = s.tiles.xRowTiles := more
    rw [if_neg more']

@[simp] theorem forwardLast_fsm : (forwardLast A s).fsm = s.fsm := by
  unfold forwardLast
  split
  · exact forwardYZ_fsm
  · rfl

theorem enterRoutine_settle {it : Iter} (drained : s.fsm.pendingReqQueue = []) :
    enterRoutine A { settle s with iter := it } = enterRoutine A { s with iter := it } := by
  have entered : ∀ total, (settle s).fsm.enter .routine total = s.fsm.enter .routine total :=
    fun total => enter_congr drained.symm _ _
  unfold enterRoutine
  dsimp only
  rw [entered]
  rfl

theorem enterStoring_settle {it : Iter} (drained : s.fsm.pendingReqQueue = []) :
    enterStoring A { settle s with iter := it } = enterStoring A { s with iter := it } := by
  have entered : ∀ total, (settle s).fsm.enter .storing total = s.fsm.enter .storing total :=
    fun total => enter_congr drained.symm _ _
  unfold enterStoring
  dsimp only
  rw [entered]
  rfl

theorem nextPhase_settle (drained : s.fsm.pendingReqQueue = []) :
    nextPhase A (settle s) = nextPhase A s := by
  unfold nextPhase
  dsimp only
  rw [enterRoutine_settle drained, enterStoring_settle drained]
  rfl

theorem leave_settle (active : s.fsm.state.active = true) (drained : s.fsm.pendingReqQueue = []) :
    leave A (settle s) = leave A s := by
  have same : (settle s).fsm.state = s.fsm.state := rfl
  unfold leave
  rw [same]
  cases state : s.fsm.state with
  | preload => exact congrArg (forwardYZ A) (enterRoutine_settle drained)
  | routine =>
    have forwarded : (forwardLast A s).fsm.pendingReqQueue = [] := by
      rw [forwardLast_fsm]
      exact drained
    have next := nextPhase_settle (A := A) forwarded
    rw [← forwardLast_settle] at next
    exact next
  | storing =>
    have entered := enter_congr (f := (settle s).fsm) (g := s.fsm) drained.symm .finished 0
    exact congrArg (fun fsm => { s with fsm := fsm, numMatmul := s.numMatmul + 1 }) entered
  | _ =>
    rw [state] at active
    cases active

/-! ## Events and phases -/

theorem settle_congr {f : Fsm} (state : f.state = s.fsm.state) :
    settle { s with fsm := f } = settle s := by
  unfold settle
  rw [state]

/-- After the last access comes the jump. -/
theorem phase_of_drained (active : s.fsm.state.active = true) (drained : s.fsm.drained = true) :
    phase A s = some (leave A s) := by
  obtain ⟨all, received⟩ := Fsm.drained_iff.mp drained
  unfold phase
  rw [Nat.sub_eq_zero_of_le all, accesses, Option.map_some, leave_settle active received]

/-- The first half of an event makes an access of the phase or none. -/
theorem accessPhase_phase {latency : Nat} (sound : s.Sound)
    (accessed : accessPhase A (processedBefore s.fsm.state) (processedAfter s.fsm.state)
      (.ok latency)
      { s with fsm := s.fsm.tick } = some s') :
    phase A s' = phase A s ∧ s'.fsm.state = s.fsm.state := by
  obtain ⟨-, rfl⟩ | ⟨send, latency', sent, -, made, rfl⟩ := accessPhase_cases accessed
  · exact ⟨rfl, rfl⟩
  · have counter := Fsm.push_counter latency' sound.bounded.fsm send
    have less : s.fsm.fsmCounter < s.fsm.tcdmBlockTotal := (Fsm.canSend_iff.mp send).1
    have first : sendRequest A (processedBefore s.fsm.state) (processedAfter s.fsm.state)
        (settle s) = some (settle sent) := by
      have settled := sendRequest_settle (A := A) (s := { s with fsm := s.fsm.tick })
        (processedBefore s.fsm.state) (processedAfter s.fsm.state)
      rw [made] at settled
      exact settled
    have state : (s.fsm.tick.push latency').receive.state = sent.fsm.state := by
      obtain ⟨r, a, d, mem, -, rfl⟩ := sendRequest_cases made
      rfl
    have count : s.fsm.tcdmBlockTotal - s.fsm.fsmCounter =
        (s.fsm.tcdmBlockTotal - (s.fsm.tick.push latency').fsmCounter) + 1 := by omega
    refine ⟨?_, rfl⟩
    unfold phase
    rw [settle_congr state, count, accesses]
    have same : (settle s).fsm.state = s.fsm.state := rfl
    rw [same, first]
    rfl

/-- An event ends the phase, or leaves the rest of it what it was. -/
theorem phase_event {latency : Nat} (sound : s.Sound) (active : s.fsm.state.active = true)
    (handled : fsmHandler A (.ok latency) s = some e) :
    phase A s = some e.machine ∨
      (phase A e.machine = phase A s ∧ e.machine.fsm.state = s.fsm.state) := by
  obtain ⟨s₁, accessed, next⟩ := fsmHandler_active active handled
  obtain ⟨whole, state⟩ := accessPhase_phase sound accessed
  rw [next]
  cases drained : s₁.fsm.drained with
  | false => exact Or.inr ⟨whole, state⟩
  | true => exact Or.inl (whole.symm.trans (phase_of_drained (by rw [state]; exact active) drained))

/-- Whatever the latencies, the events come to the end of the phase. -/
theorem exists_events (latency : Nat → Nat) (sound : s.Sound) (active : s.fsm.state.active = true) :
    ∃ n s', 0 < n ∧ events A latency n s = some s' ∧ phase A s = some s' ∧ s'.Sound ∧
      (∀ m < n, ∃ u, events A latency m s = some u ∧ u.fsm.state.active = true) := by
  induction hr : rank s using WellFoundedLT.induction generalizing s latency with
  | ind r ih =>
    obtain ⟨e, handled⟩ :=
      Option.isSome_iff_exists.mp (fsmHandler_isSome (A := A) sound (latency 0))
    have worked := fsmHandler_worked sound active handled
    obtain ended | ⟨whole, state⟩ := phase_event sound active handled
    · refine ⟨1, e.machine, Nat.one_pos, ?_, ended, worked.sound, fun m less => ?_⟩
      · rw [events, handled]
        rfl
      · obtain rfl : m = 0 := Nat.lt_one_iff.mp less
        exact ⟨s, rfl, active⟩
    · obtain ⟨n, s', -, ran, ended, sound', before⟩ := ih (rank e.machine) (hr ▸ worked.rank)
        (fun i => latency (i + 1)) worked.sound (by rw [state]; exact active) rfl
      refine ⟨n + 1, s', Nat.succ_pos n, ?_, whole ▸ ended, sound', fun m less => ?_⟩
      · rw [events, handled]
        exact ran
      · cases m with
        | zero => exact ⟨s, rfl, active⟩
        | succ m =>
          obtain ⟨u, ran', active'⟩ := before m (Nat.lt_of_succ_lt_succ less)
          refine ⟨u, ?_, active'⟩
          rw [events, handled]
          exact ran'

/-! ## The phases in order -/

/-- What the accesses of a phase keep. -/
theorem accesses_kept {n : Nat} (ran : accesses A n s = some s') :
    s'.fsm = s.fsm ∧ s'.iter = s.iter ∧ s'.job = s.job ∧ s'.numMatmul = s.numMatmul := by
  induction n generalizing s with
  | zero =>
    obtain rfl := Option.some.inj ran
    exact ⟨rfl, rfl, rfl, rfl⟩
  | succ n ih =>
    obtain ⟨sent, made, ran'⟩ := Option.bind_eq_some_iff.mp ran
    obtain ⟨fsm, iter, job, num⟩ := ih ran'
    obtain ⟨r, a, d, mem, -, rfl⟩ := sendRequest_cases made
    exact ⟨fsm, iter, job, num⟩

theorem phase_eq_some (ended : phase A s = some s') :
    ∃ u, accesses A (s.fsm.tcdmBlockTotal - s.fsm.fsmCounter) (settle s) = some u ∧
      u.fsm.state = s.fsm.state ∧ u.iter = s.iter ∧ u.job = s.job ∧ s' = leave A u := by
  obtain ⟨u, ran, left⟩ := Option.map_eq_some_iff.mp ended
  obtain ⟨fsm, iter, job, -⟩ := accesses_kept ran
  have state : u.fsm.state = s.fsm.state := by
    rw [fsm]
    rfl
  exact ⟨u, ran, state, iter, job, left.symm⟩

/-- The state of the state machine in phase `n`. -/
def Tiles.stateAt (T : Tiles) (n : Nat) : RedmuleState :=
  if n = 0 then .preload
  else if n ≤ T.total then .routine
  else if n = T.total + 1 then .storing
  else .finished

/-- The accelerator is at the start of phase `n`. -/
structure Located (T : Tiles) (n : Nat) (s : Machine Q) : Prop where
  sound : s.Sound
  tiles : s.tiles = T
  fresh : s.fsm.fsmCounter = 0
  state : s.fsm.state = T.stateAt n
  start : n = 0 → s.iter = ⟨0, 0, 0⟩
  iter : s.fsm.state = .routine → s.iter.index T + 1 = n

theorem Located.active {T : Tiles} {n : Nat} (at' : Located T n s) (le : n ≤ T.total + 1) :
    s.fsm.state.active = true := by
  rw [at'.state]
  unfold Tiles.stateAt
  split
  · rfl
  · split
    · rfl
    · rw [if_pos (by omega)]
      rfl

theorem Located.tilesSound {T : Tiles} {n : Nat} (at' : Located T n s) (le : n ≤ T.total + 1) :
    T.Sound :=
  at'.tiles ▸ at'.sound.tiles (at'.active le)

theorem Located.inside {T : Tiles} {n : Nat} (at' : Located T n s)
    (state : s.fsm.state = .routine) :
    s.iter.Inside T :=
  at'.tiles ▸ at'.sound.inside state

theorem leave_preload (state : s.fsm.state = .preload) : leave A s = leavePreload A s := by
  unfold leave
  rw [state]

theorem leave_routine (state : s.fsm.state = .routine) :
    leave A s = nextPhase A (forwardLast A s) := by
  unfold leave leaveRoutine
  rw [state]

theorem leave_storing (state : s.fsm.state = .storing) : leave A s = leaveStoring s := by
  unfold leave
  rw [state]

@[simp] theorem forwardLast_iter : (forwardLast A s).iter = s.iter := by
  unfold forwardLast
  split
  · exact forwardYZ_iter
  · rfl

@[simp] theorem forwardLast_job : (forwardLast A s).job = s.job := by
  unfold forwardLast
  split
  · exact forwardYZ_job
  · rfl

/-- After an iteration comes the next one, or the last phase. -/
theorem nextPhase_cases (tiles : s.tiles.Sound) (inside : s.iter.Inside s.tiles) :
    (s.iter.index s.tiles + 1 < s.tiles.total ∧ ∃ it : Iter, it.Inside s.tiles ∧
        it.index s.tiles = s.iter.index s.tiles + 1 ∧ it = (nextIteration s.tiles s.iter).1 ∧
          nextPhase A s = enterRoutine A { s with iter := it }) ∨
      (s.iter.index s.tiles + 1 = s.tiles.total ∧
        nextPhase A s = enterStoring A { s with iter := (nextIteration s.tiles s.iter).1 }) := by
  unfold nextPhase
  obtain ⟨more, inside', index⟩ | ⟨ended, index⟩ := nextIteration_spec tiles inside
  · have below := index_lt inside'
    refine Or.inl ⟨by omega, _, inside', index, rfl, ?_⟩
    dsimp only
    rw [more, if_neg Bool.false_ne_true]
  · refine Or.inr ⟨index, ?_⟩
    dsimp only
    rw [ended, if_pos rfl]

section

variable {T : Tiles} {n : Nat}

theorem stateAt_routine (pos : 0 < n) (le : n ≤ T.total) : T.stateAt n = .routine := by
  unfold Tiles.stateAt
  rw [if_neg (Nat.ne_of_gt pos), if_pos le]

theorem stateAt_storing (T : Tiles) : T.stateAt (T.total + 1) = .storing := by
  unfold Tiles.stateAt
  rw [if_neg (Nat.succ_ne_zero _), if_neg (Nat.not_succ_le_self _), if_pos rfl]

theorem stateAt_finished (T : Tiles) : T.stateAt (T.total + 2) = .finished := by
  unfold Tiles.stateAt
  rw [if_neg (by omega), if_neg (by omega), if_neg (by omega)]

/-- The preload leads to the first iteration. -/
theorem located_leavePreload (sound : (leavePreload A s).Sound) (tiles : s.tiles = T)
    (start : s.iter = ⟨0, 0, 0⟩) (pos : 0 < T.total) : Located T 1 (leavePreload A s) := by
  have state : (leavePreload A s).fsm.state = .routine := congrArg Fsm.state forwardYZ_fsm
  have iter : (leavePreload A s).iter = s.iter := forwardYZ_iter
  refine ⟨sound, forwardYZ_tiles.trans tiles, congrArg Fsm.fsmCounter forwardYZ_fsm, ?_,
    fun zero => absurd zero Nat.one_ne_zero, fun _ => ?_⟩
  · rw [state, stateAt_routine Nat.one_pos pos]
  · rw [iter, start, index_first]

/-- An iteration leads to the next one, or to the last phase. -/
theorem located_leaveRoutine (sound : (nextPhase A (forwardLast A s)).Sound) (tiles : s.tiles = T)
    (tilesSound : T.Sound) (inside : s.iter.Inside T) (index : s.iter.index T + 1 = n) :
    Located T (n + 1) (nextPhase A (forwardLast A s)) ∧
      (nextPhase A (forwardLast A s)).job = s.job := by
  have job : (forwardLast A s).job = s.job := forwardLast_job
  have tiles' : (forwardLast A s).tiles = T := (congrArg (fun j => j.2.2) job).trans tiles
  have iter : (forwardLast A s).iter = s.iter := forwardLast_iter
  have later : n + 1 ≠ 0 := Nat.succ_ne_zero n
  obtain ⟨more, it, -, index', -, next⟩ | ⟨ended, next⟩ := nextPhase_cases (A := A)
    (s := forwardLast A s) (by rw [tiles']; exact tilesSound) (by rw [iter, tiles']; exact inside)
  · rw [tiles', iter, index] at more
    rw [tiles', iter, index] at index'
    rw [next] at sound ⊢
    refine ⟨⟨sound, tiles', rfl, (stateAt_routine (Nat.succ_pos n) more).symm,
      fun zero => absurd zero later, fun _ => ?_⟩, job⟩
    exact congrArg (· + 1) index'
  · rw [tiles', iter, index] at ended
    rw [next] at sound ⊢
    rw [ended]
    refine ⟨⟨sound, tiles', rfl, (stateAt_storing T).symm,
      fun zero => absurd zero (Nat.succ_ne_zero _), fun routine => ?_⟩, job⟩
    cases routine

/-- The last phase ends the job. -/
theorem located_leaveStoring (sound : (leaveStoring s).Sound) (tiles : s.tiles = T) :
    Located T (T.total + 2) (leaveStoring s) := by
  refine ⟨sound, tiles, rfl, (stateAt_finished T).symm,
    fun zero => absurd zero (Nat.succ_ne_zero _), fun routine => ?_⟩
  cases routine

end

/-- A phase leads to the next one. -/
theorem Located.next {T : Tiles} {n : Nat} (at' : Located T n s) (le : n ≤ T.total + 1) :
    ∃ s', phase A s = some s' ∧ Located T (n + 1) s' ∧ s'.job = s.job := by
  obtain ⟨-, s', -, -, ended, sound, -⟩ :=
    exists_events (A := A) (fun _ => 0) at'.sound (at'.active le)
  obtain ⟨u, -, same, iter, job, rfl⟩ := phase_eq_some ended
  have tiles : u.tiles = T := (congrArg (fun j => j.2.2) job).trans at'.tiles
  refine ⟨_, ended, ?_⟩
  rcases Nat.eq_zero_or_pos n with rfl | pos
  · have state : u.fsm.state = .preload := same.trans at'.state
    rw [leave_preload state] at sound ⊢
    exact ⟨located_leavePreload sound tiles (iter.trans (at'.start rfl))
      (at'.tilesSound le).total_pos, leavePreload_job.trans job⟩
  · rcases Nat.lt_or_eq_of_le le with before | rfl
    · have routine : s.fsm.state = .routine :=
        at'.state.trans (stateAt_routine pos (Nat.le_of_lt_succ before))
      rw [leave_routine (same.trans routine)] at sound ⊢
      obtain ⟨located, job'⟩ := located_leaveRoutine sound tiles (at'.tilesSound le)
        (iter ▸ at'.inside routine) (iter ▸ at'.iter routine)
      exact ⟨located, job'.trans job⟩
    · have storing : u.fsm.state = .storing := same.trans (at'.state.trans (stateAt_storing T))
      rw [leave_storing storing] at sound ⊢
      exact ⟨located_leaveStoring sound tiles, job⟩

/-- The phases of a job one after the other, with what each of them keeps. -/
theorem phases_induct {T : Tiles} (P : Nat → Machine Q → Prop) (at' : Located T 0 s) (start : P 0 s)
    (step : ∀ n u u', n ≤ T.total + 1 → Located T n u → u.job = s.job → P n u →
      phase A u = some u' → Located T (n + 1) u' → P (n + 1) u') :
    ∀ n ≤ T.total + 2, ∃ u, phases A n s = some u ∧ Located T n u ∧ u.job = s.job ∧ P n u := by
  intro n
  induction n with
  | zero => exact fun _ => ⟨s, rfl, at', rfl, start⟩
  | succ n ih =>
    intro le
    obtain ⟨u, ran, located, job, kept⟩ := ih (Nat.le_of_succ_le le)
    obtain ⟨u', ended, located', job'⟩ := located.next (A := A) (Nat.le_of_succ_le_succ le)
    refine ⟨u', ?_, located', job'.trans job,
      step n u u' (Nat.le_of_succ_le_succ le) located job kept ended located'⟩
    rw [phases, ran]
    exact ended

/-! ## Events and phases of a job -/

theorem events_add (latency : Nat → Nat) (n m : Nat) (s : Machine Q) :
    events A latency (n + m) s =
      (events A latency n s).bind (events A (fun i => latency (n + i)) m) := by
  induction n generalizing latency s with
  | zero => simp only [Nat.zero_add, events, Option.bind_some]
  | succ n ih =>
    have shift : ∀ i, n + i + 1 = n + 1 + i := fun i => by omega
    rw [Nat.succ_add, events, events, Option.bind_assoc]
    simp only [ih, shift]

/-- Whatever the latencies, the events go through the phases. -/
theorem events_phases {T : Tiles} (latency : Nat → Nat) (at' : Located T 0 s) {n : Nat}
    (le : n ≤ T.total + 2) : ∃ k u, phases A n s = some u ∧ Located T n u ∧
      events A latency k s = some u ∧
        ∀ m < k, ∃ v, events A latency m s = some v ∧ v.fsm.state.active = true := by
  induction n with
  | zero => exact ⟨0, s, rfl, at', rfl, fun m less => absurd less (Nat.not_lt_zero m)⟩
  | succ n ih =>
    obtain ⟨k, u, ran, located, came, before⟩ := ih (Nat.le_of_succ_le le)
    obtain ⟨u', ended, located', -⟩ := located.next (A := A) (Nat.le_of_succ_le_succ le)
    obtain ⟨k', u'', -, came', ended', -, before'⟩ := exists_events (A := A)
      (fun i => latency (k + i)) located.sound (located.active (Nat.le_of_succ_le_succ le))
    obtain rfl := Option.some.inj (ended.symm.trans ended')
    have later : ∀ m, events A latency (k + m) s = events A (fun i => latency (k + i)) m u := by
      intro m
      rw [events_add, came]
      rfl
    refine ⟨k + k', u', ?_, located', (later k').trans came', fun m less => ?_⟩
    · rw [phases, ran]
      exact ended
    · rcases Nat.lt_or_ge m k with early | late
      · exact before m early
      · obtain ⟨v, came'', active⟩ := before' (m - k) (by omega)
        have split := later (m - k)
        rw [Nat.add_sub_of_le late] at split
        exact ⟨v, split.trans came'', active⟩

/-- Whatever the latencies, a job finishes after its phases. -/
theorem finishes_iff {T : Tiles} (latency : Nat → Nat) (at' : Located T 0 s) :
    Finishes A latency s s' ↔ phases A (T.total + 2) s = some s' := by
  obtain ⟨k, u, ran, located, came, before⟩ := events_phases (A := A) latency at' (Nat.le_refl _)
  have finished : u.fsm.state = .finished := located.state.trans (stateAt_finished T)
  have notBefore : ∀ m < k, ∀ v, events A latency m s = some v → v.fsm.state ≠ .finished := by
    intro m less v came' finished'
    obtain ⟨v', came'', active⟩ := before m less
    obtain rfl := Option.some.inj (came'.symm.trans came'')
    exact ne_of_active active rfl finished'
  constructor
  · rintro ⟨finished', n, came', first⟩
    have same : n = k := by
      rcases Nat.lt_trichotomy n k with less | same | more
      · exact absurd finished' (notBefore n less s' came')
      · exact same
      · exact absurd finished (first k more u came)
    rw [same, came] at came'
    rw [ran, came']
  · intro ran'
    obtain rfl := Option.some.inj (ran.symm.trans ran')
    exact ⟨finished, k, came, notBefore⟩

end

end SoftHier.Redmule
