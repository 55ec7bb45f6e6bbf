import SoftHier.Barrier.GroupMap

/-!
# Group barriers are barriers with wakeups

A run of the groups is seen as one run of the global barrier and one run for each group, all of the
machine with wakeups.  A cluster that has left the global barrier stays at its end there; until then
it waits, in its group, for a first wakeup.

* `GroupRun.whole`, `GroupRun.project`: the views of a state.
* `GroupInv`, `groupInv_step`: the views keep the invariant of the machine with wakeups.
* `group_barrier`: the barriers of the groups are barriers, apart from each other, and never stuck.
-/

namespace SoftHier.Barrier

namespace GroupRun

variable {M : GroupMachine}

/-- The number of a cluster's words. -/
abbrev home (c : M.Clusters) : Nat × Nat := (c.1.val, c.2.val)

/-- A cluster that has left the global barrier. -/
def finished (n : Nat) : Local n := ⟨fun _ => ⟨.out, 1⟩, 0, none, none, [], [0, 1]⟩

/-- The global barrier in a state. -/
def whole (s : GroupRun M) : Wakeup M.toMachine :=
  Wakeup.ofLocal
    (fun c => match s.part c with
      | .global => s.toWakeup.at c
      | .grid => finished M.nbCores)
    s.barrierX s.barrierY s.broadcasts

/-- The words of a row of the group; before their reset they hold anything. -/
def rowWord (s : GroupRun M) (g : Group M) (y : Nat) : BitVec 32 :=
  if s.resets (g.syncX, g.y * M.gridYDim + y) = 0 then 0
  else s.level1 (g.syncX, g.y * M.gridYDim + y)

/-- The word of the second level of the group. -/
def colWord (s : GroupRun M) (g : Group M) : BitVec 32 :=
  if s.resets (g.syncX, g.syncY) < 2 then 0 else s.level2 (g.syncX, g.syncY)

/-- The barrier of a group in a state. -/
def project (s : GroupRun M) (g : Group M) : Wakeup g.machine :=
  Wakeup.ofLocal
    (fun d => match s.part (g.embed d) with
      | .global => Local.fresh g.machine
      | .grid => s.toWakeup.at (g.embed d))
    (fun y => s.rowWord g y) (s.colWord g) (s.groupBroadcasts (g.x, g.y) + 1)

/-! ## The views of a cluster -/

section

variable {s s' : GroupRun M} {g : Group M} {c : M.Clusters} {d : g.machine.Clusters}

theorem whole_at_global (part : s.part c = .global) : s.whole.at c = s.toWakeup.at c := by
  show (match s.part c with
    | .global => s.toWakeup.at c
    | .grid => finished M.nbCores) = _
  rw [part]

theorem whole_at_grid (part : s.part c = .grid) : s.whole.at c = finished M.nbCores := by
  show (match s.part c with
    | .global => s.toWakeup.at c
    | .grid => finished M.nbCores) = _
  rw [part]

theorem project_at_global (part : s.part (g.embed d) = .global) :
    (s.project g).at d = Local.fresh g.machine := by
  show (match s.part (g.embed d) with
    | .global => Local.fresh g.machine
    | .grid => s.toWakeup.at (g.embed d)) = _
  rw [part]

theorem project_at_grid (part : s.part (g.embed d) = .grid) :
    (s.project g).at d = s.toWakeup.at (g.embed d) := by
  show (match s.part (g.embed d) with
    | .global => Local.fresh g.machine
    | .grid => s.toWakeup.at (g.embed d)) = _
  rw [part]

theorem whole_core_global (part : s.part c = .global) : s.whole.core c = s.core c :=
  congrArg Local.core (whole_at_global part)

theorem whole_core_grid (part : s.part c = .grid) : s.whole.core c = fun _ => ⟨.out, 1⟩ :=
  congrArg Local.core (whole_at_grid part)

theorem project_core_grid (part : s.part (g.embed d) = .grid) :
    (s.project g).core d = s.core (g.embed d) := congrArg Local.core (project_at_grid part)

theorem rowWord_congr (resets : s'.resets = s.resets) (level1 : s'.level1 = s.level1) (g : Group M)
    (y : Nat) : s'.rowWord g y = s.rowWord g y := by
  unfold rowWord
  rw [resets, level1]

theorem colWord_congr (resets : s'.resets = s.resets) (level2 : s'.level2 = s.level2)
    (g : Group M) : s'.colWord g = s.colWord g := by
  unfold colWord
  rw [resets, level2]

/-- A cluster looks the same to the global barrier. -/
theorem whole_at_congr (part : s'.part c = s.part c)
    (same : s.part c = .global → s'.toWakeup.at c = s.toWakeup.at c) :
    s'.whole.at c = s.whole.at c := by
  cases here : s.part c with
  | global => rw [whole_at_global here, whole_at_global (part.trans here), same here]
  | grid => rw [whole_at_grid here, whole_at_grid (part.trans here)]

/-- A cluster looks the same to its group. -/
theorem project_at_congr (part : s'.part (g.embed d) = s.part (g.embed d))
    (same : s.part (g.embed d) = .grid → s'.toWakeup.at (g.embed d) = s.toWakeup.at (g.embed d)) :
    (s'.project g).at d = (s.project g).at d := by
  cases here : s.part (g.embed d) with
  | global => rw [project_at_global here, project_at_global (part.trans here)]
  | grid => rw [project_at_grid here, project_at_grid (part.trans here), same here]

end

end GroupRun

/-! ## The invariant -/

/-- What holds in every state: the views keep their invariants; a core that has entered the global
barrier has the words of its cluster reset; a cluster leaves the global barrier at once. -/
structure GroupInv {M : GroupMachine} (rounds : Nat) (s : GroupRun M) : Prop where
  whole : WakeupInv 1 s.whole
  few : s.broadcasts ≤ 2
  group : ∀ g, WakeupInv rounds (s.project g)
  ready : ∀ c : M.Clusters, 0 < s.whole.entered c M.core0 → 2 ≤ s.resets (GroupRun.home c)
  stay : ∀ c, s.part c = .global → ∃ j, s.core c j ≠ ⟨.out, 1⟩

section

variable {M : GroupMachine} {rounds : Nat} {s s' : GroupRun M} {c : M.Clusters} {j : Fin M.nbCores}

theorem groupInv_init (barrierX : Fin M.numY → BitVec 32) (barrierY : BitVec 32)
    (level1 level2 : Nat × Nat → BitVec 32) :
    GroupInv rounds (GroupRun.init barrierX barrierY level1 level2 : GroupRun M) := by
  refine ⟨wakeupInv_init barrierX barrierY, Nat.zero_le _,
    fun g => wakeupInv_fresh g.machine rounds, fun c entered => ?_, fun c _ => ⟨M.dmCore, ?_⟩⟩
  · have none : (GroupRun.init barrierX barrierY level1 level2 : GroupRun M).whole.entered c
        M.core0 = 0 := by
      show 0 + (if (if M.core0 = M.dmCore then (if c = M.first then .initY else .reg .init)
        else .sync .init : WakeupPc).inCall = true then 1 else 0) = 0
      split_ifs <;> first | rfl | contradiction
    omega
  · show (⟨if M.dmCore = M.dmCore then (if c = M.first then .initY else .reg .init)
      else .sync .init, 0⟩ : WakeupCore) ≠ ⟨.out, 1⟩
    intro eq
    cases congrArg WakeupCore.calls eq

/-! ## Leaving the global barrier -/

/-- A cluster whose cores have all returned from the global barrier has no wakeup left. -/
theorem at_of_returned (inv : WakeupInv 1 s.whole) (few : s.broadcasts ≤ 2)
    (part : s.part c = .global) (returned : ∀ j, s.core c j = ⟨.out, 1⟩) :
    s.toWakeup.at c = GroupRun.finished M.nbCores := by
  have same := GroupRun.whole_at_global part
  have core : s.whole.core c = fun _ => ⟨.out, 1⟩ :=
    (congrArg Local.core same).trans (funext returned)
  have slot := inv.slot c
  have bits := (inv.intra c).bits
  have high := (inv.intra c).high
  rw [core] at slot bits
  rw [← same]
  -- all its wakeups are noticed
  have all : (2 = s.broadcasts ∧ (s.whole.regs c).globalBarrierMutex = none ∧
      s.whole.inFlight c = []) := by
    rcases slot.slot with all | ⟨late, -⟩
    · exact all
    · have late : 2 + 1 = s.broadcasts := late
      omega
  have status : (s.whole.regs c).barrierStatus = 0 := by
    refine BitVec.eq_of_getLsbD_eq fun i _ => Eq.trans ?_ BitVec.getLsbD_zero.symm
    rcases Nat.lt_or_ge i M.nbCores with low | top
    · exact Bool.eq_false_iff.mpr fun set => nomatch (bits ⟨i, low⟩).mp set
    · exact high i top
  have query : (s.whole.regs c).globalBarrierQuery = none := slot.query
  have consumed : s.whole.consumed c = [0, 1] := slot.consumed
  unfold Wakeup.at
  rw [core, status, query, all.2.1, all.2.2, consumed]
  rfl

/-- The cluster `c`, and no other one, has gone on to its group. -/
structure GroupRun.Left (s s' : GroupRun M) (c : M.Clusters) : Prop where
  here : s'.part c = .grid
  joined : s'.toWakeup.at c = Local.joined M.toMachine
  part : ∀ d, d ≠ c → s'.part d = s.part d
  others : ∀ d, d ≠ c → s'.toWakeup.at d = s.toWakeup.at d
  barrierX : s'.barrierX = s.barrierX
  barrierY : s'.barrierY = s.barrierY
  broadcasts : s'.broadcasts = s.broadcasts
  resets : s'.resets = s.resets
  level1 : s'.level1 = s.level1
  level2 : s'.level2 = s.level2
  groupBroadcasts : s'.groupBroadcasts = s.groupBroadcasts

theorem left_of_returned (returned : ∀ j, s.core c j = ⟨.out, 1⟩)
    (at' : s.toWakeup.at c = GroupRun.finished M.nbCores) : s.Left (s.leave c) c := by
  have status : (s.regs c).barrierStatus = 0 := congrArg Local.barrierStatus at'
  have query : (s.regs c).globalBarrierQuery = none := congrArg Local.globalBarrierQuery at'
  have mutex : (s.regs c).globalBarrierMutex = none := congrArg Local.globalBarrierMutex at'
  have inFlight : s.inFlight c = [] := congrArg Local.inFlight at'
  rw [GroupRun.leave, if_pos returned]
  refine ⟨Function.update_self _ _ _, ?_, fun d other => Function.update_of_ne other _ _,
    fun d other => ?_, rfl, rfl, rfl, rfl, rfl, rfl, rfl⟩
  · simp only [Wakeup.at, Function.update_self, status, query, mutex, inFlight]
    rfl
  · simp only [Wakeup.at, Function.update_of_ne other]

/-- To the global barrier the cluster stays at its end. -/
theorem whole_of_left (left : s.Left s' c) (part : s.part c = .global)
    (at' : s.toWakeup.at c = GroupRun.finished M.nbCores) : s'.whole = s.whole := by
  refine eq_of_at (fun d => ?_) left.barrierX left.barrierY left.broadcasts
  rcases eq_or_ne d c with rfl | other
  · rw [GroupRun.whole_at_grid left.here, GroupRun.whole_at_global part, at']
  · exact GroupRun.whole_at_congr (left.part d other) fun _ => left.others d other

/-- The group of the cluster is joined, and no other group notices. -/
theorem project_of_left (left : s.Left s' c) (part : s.part c = .global) {g : Group M}
    (group : WakeupInv rounds (s.project g)) : WakeupInv rounds (s'.project g) := by
  have wordsX : (s'.project g).barrierX = (s.project g).barrierX :=
    funext fun y => GroupRun.rowWord_congr left.resets left.level1 g y
  have wordsY : (s'.project g).barrierY = (s.project g).barrierY :=
    GroupRun.colWord_congr left.resets left.level2 g
  have wordsB : (s'.project g).broadcasts = (s.project g).broadcasts :=
    congrArg (· + 1) (congrFun left.groupBroadcasts _)
  by_cases member : ∃ d, g.embed d = c
  · obtain ⟨d, rfl⟩ := member
    refine wakeupInv_join group (GroupRun.project_at_global part)
      ((GroupRun.project_at_grid left.here).trans left.joined) (fun e other => ?_) wordsX wordsY
      wordsB
    have apart : g.embed e ≠ g.embed d := fun same => other (Group.embed_injective g same)
    exact GroupRun.project_at_congr (left.part _ apart) fun _ => left.others _ apart
  · have same : s'.project g = s.project g := by
      refine eq_of_at (fun e => ?_) wordsX wordsY wordsB
      have apart : g.embed e ≠ c := fun same => member ⟨e, same⟩
      exact GroupRun.project_at_congr (left.part _ apart) fun _ => left.others _ apart
    rw [same]
    exact group

/-- The step from the global barrier to the barriers of the group. -/
theorem groupInv_leave (whole : WakeupInv 1 s.whole) (few : s.broadcasts ≤ 2)
    (group : ∀ g, WakeupInv rounds (s.project g))
    (ready : ∀ c : M.Clusters, 0 < s.whole.entered c M.core0 → 2 ≤ s.resets (GroupRun.home c))
    (stay : ∀ d, d ≠ c → s.part d = .global → ∃ j, s.core d j ≠ ⟨.out, 1⟩)
    (part : s.part c = .global) : GroupInv rounds (s.leave c) := by
  by_cases returned : ∀ j, s.core c j = ⟨.out, 1⟩
  · have at' := at_of_returned whole few part returned
    have left := left_of_returned returned at'
    have same := whole_of_left left part at'
    refine ⟨same ▸ whole, left.broadcasts ▸ few, fun g => project_of_left left part (group g), ?_,
      fun d here => ?_⟩
    · rw [same, left.resets]
      exact ready
    · rcases eq_or_ne d c with rfl | other
      · rw [left.here] at here
        cases here
      · have core : (s.leave c).core d = s.core d := congrArg Local.core (left.others d other)
        rw [core]
        exact stay d other ((left.part d other).symm.trans here)
  · rw [GroupRun.leave, if_neg returned]
    refine ⟨whole, few, group, ready, fun d here => ?_⟩
    rcases eq_or_ne d c with rfl | other
    · exact not_forall.mp returned
    · exact stay d other here

/-! ## Steps in the global barrier -/

/-- A store of `grid_sync_group_init` leaves the words of the groups zero, as they are until
then. -/
theorem rowWord_reset (s : GroupRun M) (c : M.Clusters) (g : Group M) (y : Nat) :
    (s.reset c).rowWord g y = s.rowWord g y := by
  unfold GroupRun.rowWord GroupRun.reset
  dsimp only
  by_cases first : s.resets (GroupRun.home c) = 0
  · rw [if_pos first]
    by_cases here : (g.syncX, g.y * M.gridYDim + y) = GroupRun.home c
    · simp [here, first]
    · simp [here]
  · rw [if_neg first]
    by_cases here : (g.syncX, g.y * M.gridYDim + y) = GroupRun.home c
    · simp [here, first]
    · simp [here]

theorem colWord_reset (more : s.resets (GroupRun.home c) < 2) (g : Group M) :
    (s.reset c).colWord g = s.colWord g := by
  unfold GroupRun.colWord GroupRun.reset
  dsimp only
  by_cases first : s.resets (GroupRun.home c) = 0
  · rw [if_pos first]
    by_cases here : (g.syncX, g.syncY) = GroupRun.home c
    · simp [here, first]
    · simp [here]
  · rw [if_neg first]
    by_cases here : (g.syncX, g.syncY) = GroupRun.home c
    · simp [here, more]
    · simp [here]

/-- A store of `grid_sync_group_init` keeps the invariant. -/
theorem groupInv_reset (inv : GroupInv rounds s) (more : s.resets (GroupRun.home c) < 2) :
    GroupInv rounds (s.reset c) := by
  -- the stores leave the clusters and the words of the global barrier alone
  have frame : (s.reset c).toWakeup = s.toWakeup ∧ (s.reset c).part = s.part ∧
      (s.reset c).groupBroadcasts = s.groupBroadcasts := by
    unfold GroupRun.reset
    dsimp only
    split <;> exact ⟨rfl, rfl, rfl⟩
  obtain ⟨wakeup, part, groups⟩ := frame
  have whole : (s.reset c).whole = s.whole := by
    unfold GroupRun.whole
    rw [wakeup, part]
  refine ⟨whole ▸ inv.whole, ?_, fun g => ?_, fun d entered => ?_, fun d here => ?_⟩
  · rw [wakeup]
    exact inv.few
  · have same : (s.reset c).project g = s.project g := by
      unfold GroupRun.project
      rw [wakeup, part, groups, colWord_reset more]
      simp only [rowWord_reset]
    rw [same]
    exact inv.group g
  · rw [whole] at entered
    have done := inv.ready d entered
    rcases eq_or_ne (GroupRun.home d) (GroupRun.home c) with same | other
    · rw [same] at done
      omega
    · unfold GroupRun.reset
      dsimp only
      split <;> simpa only [Function.update_of_ne other] using done
  · rw [wakeup]
    rw [part] at here
    exact inv.stay d here

section

variable {w : Wakeup M.toMachine}

/-- A state that differs from `s` in the global barrier alone. -/
theorem project_of_global (others : ∀ d, s.part d = .grid → w.at d = s.toWakeup.at d)
    (g : Group M) :
    ({ s with toWakeup := w } : GroupRun M).project g = s.project g :=
  eq_of_at (fun _ => GroupRun.project_at_congr rfl fun here => others _ here) rfl rfl rfl

/-- While the global barrier can broadcast, no cluster has left it. -/
theorem all_global (inv : GroupInv rounds s) (part : s.part c = .global) {stage : Stage}
    (pc : (s.core c j).pc = .wakeup stage) :
    (∀ d, s.part d = .global) ∧ s.broadcasts ≤ 1 := by
  have core := GroupRun.whole_core_global part
  have busy : (s.whole.core c j).pc.synchronises = false := by
    rw [core, pc]
    rfl
  obtain rfl : j = M.dmCore := inv.whole.eq_dmCore busy
  have lead : s.whole.abs.phase c = .colDone := by
    show (s.whole.core c M.dmCore).pc.phase = .colDone
    rw [core, pc]
    rfl
  have all := fun d => (inv.whole.all_noticed lead d).1
  have one : s.broadcasts ≤ 1 := by
    have here : (s.whole.core c M.dmCore).noticed = s.broadcasts := all c
    have ok := (inv.whole.intra c).ok M.dmCore
    rw [core] at here ok
    rcases me : s.core c M.dmCore with ⟨p, calls⟩
    rw [me] at here ok pc
    obtain rfl : p = .wakeup stage := pc
    cases stage with
    | init =>
      have none : 0 = s.broadcasts := here
      omega
    | call =>
      have more : calls < 1 := ok.running rfl
      have round : calls + 1 = s.broadcasts := here
      omega
  refine ⟨fun d => ?_, one⟩
  cases left : s.part d with
  | global => rfl
  | grid =>
    have core := GroupRun.whole_core_grid left
    have done : (s.whole.core d M.dmCore).noticed = s.broadcasts := all d
    rw [core] at done
    have two : 2 = s.broadcasts := done
    omega

/-- An access in the global barrier is one of its view. -/
theorem whole_exec (inv : GroupInv rounds s) (part : s.part c = .global)
    (ran : s.toWakeup.exec 1 c j = some w) :
    s.whole.exec 1 c j = some ({ s with toWakeup := w } : GroupRun M).whole ∧ w.broadcasts ≤ 2 ∧
      (∀ d, d ≠ c → w.core d = s.core d) ∧ ∀ d, s.part d = .grid → w.at d = s.toWakeup.at d := by
  have at' := GroupRun.whole_at_global part
  have apart : ∀ d, s.part d = .grid → d ≠ c := by
    rintro d left rfl
    rw [part] at left
    cases left
  by_cases quiet : (s.core c j).pc.isWakeup = false
  · obtain ⟨others, hbroadcasts⟩ := exec_frame quiet ran
    obtain ⟨t, ran', same, hx, hy⟩ := exec_agree at' rfl rfl quiet ran
    have quiet' : (s.whole.core c j).pc.isWakeup = false := by
      have core : s.whole.core c = s.core c := congrArg Local.core at'
      rw [core]
      exact quiet
    obtain ⟨others', hbroadcasts'⟩ := exec_frame quiet' ran'
    refine ⟨ran'.trans (congrArg some (eq_of_at (fun d => ?_) hx hy ?_)), ?_,
      fun d other => congrArg Local.core (others d other), fun d left => others d (apart d left)⟩
    · rcases eq_or_ne d c with rfl | other
      · rw [same]
        exact (GroupRun.whole_at_global (s := { s with toWakeup := w }) part).symm
      · have kept : ({ s with toWakeup := w } : GroupRun M).whole.at d = s.whole.at d :=
          GroupRun.whole_at_congr rfl fun _ => others d other
        rw [others' d other, kept]
    · rw [hbroadcasts']
      exact hbroadcasts.symm
    · rw [hbroadcasts]
      exact inv.few
  · rcases pc : (s.core c j).pc with _ | _ | _ | _ | _ | _ | stage | _ | _ | _ | _ | _
    case wakeup =>
      obtain ⟨everywhere, few⟩ := all_global inv part pc
      have same : ∀ u : Wakeup M.toMachine, ({ s with toWakeup := u } : GroupRun M).whole = u :=
        fun u => eq_of_at (fun d => GroupRun.whole_at_global (everywhere d)) rfl rfl rfl
      have here : s.whole = s.toWakeup := same s.toWakeup
      refine ⟨?_, ?_, fun d other => ?_, fun d left => ?_⟩
      · rw [here, same]
        exact ran
      · rw [Wakeup.exec, pc] at ran
        obtain rfl := Option.some.inj ran
        exact Nat.succ_le_succ few
      · rw [Wakeup.exec, pc] at ran
        obtain rfl := Option.some.inj ran
        exact put_there rfl d other
      · rw [everywhere d] at left
        cases left
    all_goals
      rw [pc] at quiet
      exact absurd rfl quiet

/-- An access in the global barrier, up to the step to the group. -/
theorem groupInv_global (inv : GroupInv rounds s) (part : s.part c = .global)
    (reset : ¬ ((s.core c j).pc = .out ∧ j = M.core0 ∧ s.resets (GroupRun.home c) < 2))
    (ran : s.toWakeup.exec 1 c j = some w) :
    GroupInv rounds (({ s with toWakeup := w } : GroupRun M).leave c) := by
  obtain ⟨ran', few, there, others⟩ := whole_exec inv part ran
  refine groupInv_leave (wakeupInv_step inv.whole (.exec ran')) few (fun g => ?_)
    (fun d entered => ?_) (fun d other here => ?_) part
  · rw [project_of_global others]
    exact inv.group g
  · rcases entered_exec ran' d M.core0 with before | ⟨rfl, isCore0, pc⟩
    · exact inv.ready d (Nat.lt_of_lt_of_le entered before)
    · have core := GroupRun.whole_core_global part
      rw [core] at pc
      exact Nat.not_lt.mp fun less => reset ⟨pc, isCore0.symm, less⟩
  · obtain ⟨k, away⟩ := inv.stay d here
    refine ⟨k, ?_⟩
    rw [there d other]
    exact away

end

end

/-! ## Steps in a group -/

section

variable {M : GroupMachine} {rounds : Nat} {s s' : GroupRun M} {g g' : Group M}
  {d : g.machine.Clusters} {j : Fin M.nbCores} {p : WakeupPc} {v : BitVec 32}

/-- The words of different groups are different. -/
theorem word_apart (differ : g' ≠ g) (y' : Fin g'.machine.numY) (y : Fin g.machine.numY) :
    (g'.syncX, g'.y * M.gridYDim + y'.val) ≠ (g.syncX, g.y * M.gridYDim + y.val) := by
  obtain ⟨e, x, row⟩ := g.exists_word y
  obtain ⟨e', x', row'⟩ := g'.exists_word y'
  intro same
  rw [Prod.mk.injEq, ← x, ← x', ← row, ← row'] at same
  have cluster : g'.embed e' = g.embed e := Prod.ext (Fin.ext same.1) (Fin.ext same.2)
  refine differ ?_
  rw [← Group.of_embed e', cluster, Group.of_embed]

/-- Once a cluster has left the global barrier, the words of all clusters are reset. -/
theorem GroupInv.resets_ge (inv : GroupInv rounds s) {c : M.Clusters} (part : s.part c = .grid)
    (e : M.Clusters) : 2 ≤ s.resets (GroupRun.home e) := by
  refine inv.ready e ?_
  have returned := inv.whole.calls_le_entered c e M.dmCore M.core0
  have core := GroupRun.whole_core_grid part
  rw [core] at returned
  exact returned

/-- The words of a group that has begun. -/
theorem GroupInv.words (inv : GroupInv rounds s) (part : s.part (g.embed d) = .grid) :
    (∀ y : Fin g.machine.numY, s.rowWord g y = s.level1 (g.syncX, g.y * M.gridYDim + y)) ∧
      s.colWord g = s.level2 (g.syncX, g.syncY) := by
  have ready : ∀ y : Fin g.machine.numY, 2 ≤ s.resets (g.syncX, g.y * M.gridYDim + y) := by
    intro y
    obtain ⟨e, x, row⟩ := g.exists_word y
    have done := inv.resets_ge part (g.embed e)
    rwa [GroupRun.home, x, row] at done
  constructor
  · intro y
    have done := ready y
    exact if_neg (by omega)
  · obtain ⟨y, row⟩ := g.exists_row
    have done := ready y
    rw [← row] at done
    exact if_neg (by omega)

/-- A step in group `g` keeps the invariant if the view of the group does. -/
theorem groupInv_grid (inv : GroupInv rounds s) (hpart : s'.part = s.part)
    (hresets : s'.resets = s.resets) (hx : s'.barrierX = s.barrierX) (hy : s'.barrierY = s.barrierY)
    (hbroadcasts : s'.broadcasts = s.broadcasts)
    (kept : ∀ c, s.part c = .global → s'.toWakeup.at c = s.toWakeup.at c)
    (apart : ∀ c, Group.of c ≠ g → s'.toWakeup.at c = s.toWakeup.at c)
    (own : WakeupInv rounds (s'.project g))
    (rest : ∀ g', g' ≠ g → (∀ y : Fin g'.machine.numY, s'.rowWord g' y = s.rowWord g' y) ∧
      s'.colWord g' = s.colWord g' ∧
      s'.groupBroadcasts (g'.x, g'.y) = s.groupBroadcasts (g'.x, g'.y)) : GroupInv rounds s' := by
  have whole : s'.whole = s.whole := eq_of_at
    (fun c => GroupRun.whole_at_congr (congrFun hpart c) (kept c)) hx hy hbroadcasts
  refine ⟨whole ▸ inv.whole, hbroadcasts ▸ inv.few, fun g' => ?_, ?_, fun c here => ?_⟩
  · by_cases same : g' = g
    · rw [same]
      exact own
    · obtain ⟨row, col, groups⟩ := rest g' same
      have view : s'.project g' = s.project g' := by
        refine eq_of_at (fun e => ?_) (funext row) col (congrArg (· + 1) groups)
        refine GroupRun.project_at_congr (congrFun hpart _) fun _ => apart _ ?_
        rw [Group.of_embed]
        exact same
      rw [view]
      exact inv.group g'
  · rw [whole, hresets]
    exact inv.ready
  · rw [hpart] at here
    have core : s'.core c = s.core c := congrArg Local.core (kept c here)
    rw [core]
    exact inv.stay c here

theorem of_ne_of_embed {c : M.Clusters} (other : Group.of c ≠ g) : c ≠ g.embed d := by
  rintro rfl
  exact other (Group.of_embed d)

theorem ne_of_global {c c' : M.Clusters} (left : s.part c = .grid) (here : s.part c' = .global) :
    c' ≠ c := by
  rintro rfl
  rw [left] at here
  cases here

/-- A step of a cluster of the group that leaves its words alone. -/
theorem groupInv_cluster {w : Wakeup M.toMachine} (inv : GroupInv rounds s)
    (part : s.part (g.embed d) = .grid)
    (others : ∀ c, c ≠ g.embed d → w.at c = s.toWakeup.at c) (hx : w.barrierX = s.barrierX)
    (hy : w.barrierY = s.barrierY) (hbroadcasts : w.broadcasts = s.broadcasts)
    (own : WakeupInv rounds (({ s with toWakeup := w } : GroupRun M).project g)) :
    GroupInv rounds ({ s with toWakeup := w } : GroupRun M) :=
  groupInv_grid inv rfl rfl hx hy hbroadcasts
    (fun _ here => others _ (ne_of_global part here))
    (fun _ other => others _ (of_ne_of_embed other))
    own fun _ _ => ⟨fun _ => rfl, rfl, rfl⟩

/-- The view of the group after a step of cluster `d` alone. -/
theorem project_step {w : Wakeup M.toMachine} {t : Wakeup g.machine}
    (part : s.part (g.embed d) = .grid)
    (others : ∀ c, c ≠ g.embed d → w.at c = s.toWakeup.at c) (here : t.at d = w.at (g.embed d))
    (others' : ∀ e, e ≠ d → t.at e = (s.project g).at e)
    (hx : t.barrierX = (s.project g).barrierX) (hy : t.barrierY = (s.project g).barrierY)
    (hbroadcasts : t.broadcasts = (s.project g).broadcasts) :
    t = ({ s with toWakeup := w } : GroupRun M).project g := by
  refine eq_of_at (fun e => ?_) hx hy hbroadcasts
  rcases eq_or_ne e d with rfl | other
  · rw [here]
    exact (GroupRun.project_at_grid (s := { s with toWakeup := w }) part).symm
  · have away : g.embed e ≠ g.embed d := fun same => other (Group.embed_injective g same)
    have kept : (({ s with toWakeup := w } : GroupRun M).project g).at e = (s.project g).at e :=
      GroupRun.project_at_congr rfl fun _ => others _ away
    rw [others' e other, kept]

/-- An access to the registers of a cluster. -/
theorem groupInv_local (inv : GroupInv rounds s) (part : s.part (g.embed d) = .grid)
    (here : (s.core (g.embed d) j).pc.isLocal = true) {w : Wakeup M.toMachine}
    (ran : s.toWakeup.exec rounds (g.embed d) j = some w) :
    GroupInv rounds ({ s with toWakeup := w } : GroupRun M) := by
  have at' := GroupRun.project_at_grid part
  have quiet : (s.core (g.embed d) j).pc.isWakeup = false := by
    cases pc : (s.core (g.embed d) j).pc with
    | wakeup stage =>
      rw [pc] at here
      cases here
    | _ => rfl
  obtain ⟨⟨hx, hy⟩, t, ran', same, hx', hy'⟩ := exec_agree_local at' here ran
  obtain ⟨others, hbroadcasts⟩ := exec_frame quiet ran
  have quiet' : ((s.project g).core d j).pc.isWakeup = false := by
    have core : (s.project g).core d = s.core (g.embed d) := congrArg Local.core at'
    rw [core]
    exact quiet
  obtain ⟨others', hbroadcasts'⟩ := exec_frame quiet' ran'
  refine groupInv_cluster inv part others hx hy hbroadcasts ?_
  rw [← project_step part others same others' hx' hy' hbroadcasts']
  exact wakeupInv_step (inv.group g) (.exec ran')

/-- The clusters of the group after core `j` of cluster `d` became `me`. -/
theorem project_at_put {me : WakeupCore} (part : s.part (g.embed d) = .grid)
    (hwakeup : s'.toWakeup = s.put (g.embed d) j me) (hpart : s'.part = s.part)
    (e : g.machine.Clusters) : (s'.project g).at e = ((s.project g).put d j me).at e := by
  have at' := GroupRun.project_at_grid part
  have core : (s.project g).core d = s.core (g.embed d) := congrArg Local.core at'
  rcases eq_or_ne e d with rfl | other
  · rw [GroupRun.project_at_grid ((congrFun hpart _).trans part), hwakeup, at_put]
    refine Eq.trans ?_ at_put.symm
    rw [at', core]
  · have away : g.embed e ≠ g.embed d := fun same => other (Group.embed_injective g same)
    refine Eq.trans (GroupRun.project_at_congr (congrFun hpart _) fun _ => ?_)
      (at_put_of_ne other).symm
    rw [hwakeup]
    exact at_put_of_ne away

/-- An access to the word of the row. -/
theorem groupInv_level1 (inv : GroupInv rounds s) (part : s.part (g.embed d) = .grid)
    (ran : (s.project g).exec rounds d j = some { (s.project g).put d j
      { s.core (g.embed d) j with pc := p } with
        barrierX := Function.update (s.project g).barrierX d.2 v })
    (hwakeup : s'.toWakeup = s.put (g.embed d) j { s.core (g.embed d) j with pc := p })
    (hpart : s'.part = s.part) (hresets : s'.resets = s.resets)
    (hlevel1 : s'.level1 = Function.update s.level1 (g.syncX, g.y * M.gridYDim + d.2.val) v)
    (hlevel2 : s'.level2 = s.level2) (hgroups : s'.groupBroadcasts = s.groupBroadcasts) :
    GroupInv rounds s' := by
  have others : ∀ c, c ≠ g.embed d → s'.toWakeup.at c = s.toWakeup.at c := by
    intro c other
    rw [hwakeup]
    exact at_put_of_ne other
  have col := GroupRun.colWord_congr hresets hlevel2
  refine groupInv_grid inv hpart hresets (by rw [hwakeup]; rfl) (by rw [hwakeup]; rfl)
    (by rw [hwakeup]; rfl) (fun _ here => others _ (ne_of_global part here))
    (fun _ other => others _ (of_ne_of_embed other)) ?_
    fun g' differ => ⟨fun y => ?_, col g', by rw [hgroups]⟩
  · have row : (s'.project g).barrierX = Function.update (s.project g).barrierX d.2 v := by
      funext y
      obtain ⟨e, x, row⟩ := g.exists_word y
      have done := inv.resets_ge part (g.embed e)
      rw [GroupRun.home, x, row] at done
      have used : (s'.project g).barrierX y = s'.level1 (g.syncX, g.y * M.gridYDim + y) :=
        if_neg (by rw [hresets]; omega)
      rw [used, hlevel1]
      rcases eq_or_ne y d.2 with rfl | other
      · rw [Function.update_self, Function.update_self]
      · have away : (g.syncX, g.y * M.gridYDim + y.val) ≠ (g.syncX, g.y * M.gridYDim + d.2.val) :=
          fun same => other (Fin.ext (Nat.add_left_cancel (Prod.mk.inj same).2))
        rw [Function.update_of_ne other, Function.update_of_ne away]
        exact ((inv.words part).1 y).symm
    have view : s'.project g = { (s.project g).put d j { s.core (g.embed d) j with pc := p } with
        barrierX := Function.update (s.project g).barrierX d.2 v } :=
      eq_of_at (project_at_put part hwakeup hpart) row (col g)
        (congrArg (· + 1) (congrFun hgroups _))
    rw [view]
    exact wakeupInv_step (inv.group g) (.exec ran)
  · unfold GroupRun.rowWord
    rw [hresets, hlevel1, Function.update_of_ne (word_apart differ y d.2)]

/-- An access to the word of the second level. -/
theorem groupInv_level2 (inv : GroupInv rounds s) (part : s.part (g.embed d) = .grid)
    (ran : (s.project g).exec rounds d j = some { (s.project g).put d j
      { s.core (g.embed d) j with pc := p } with barrierY := v })
    (hwakeup : s'.toWakeup = s.put (g.embed d) j { s.core (g.embed d) j with pc := p })
    (hpart : s'.part = s.part) (hresets : s'.resets = s.resets) (hlevel1 : s'.level1 = s.level1)
    (hlevel2 : s'.level2 = Function.update s.level2 (g.syncX, g.syncY) v)
    (hgroups : s'.groupBroadcasts = s.groupBroadcasts) : GroupInv rounds s' := by
  have others : ∀ c, c ≠ g.embed d → s'.toWakeup.at c = s.toWakeup.at c := by
    intro c other
    rw [hwakeup]
    exact at_put_of_ne other
  have row := GroupRun.rowWord_congr hresets hlevel1
  obtain ⟨y, middle⟩ := g.exists_row
  refine groupInv_grid inv hpart hresets (by rw [hwakeup]; rfl) (by rw [hwakeup]; rfl)
    (by rw [hwakeup]; rfl) (fun _ here => others _ (ne_of_global part here))
    (fun _ other => others _ (of_ne_of_embed other)) ?_
    fun g' differ => ⟨fun y => row g' y, ?_, by rw [hgroups]⟩
  · have col : (s'.project g).barrierY = v := by
      obtain ⟨e, x, here⟩ := g.exists_word y
      have done := inv.resets_ge part (g.embed e)
      rw [GroupRun.home, x, here, ← middle] at done
      have used : (s'.project g).barrierY = s'.level2 (g.syncX, g.syncY) :=
        if_neg (by rw [hresets]; omega)
      rw [used, hlevel2, Function.update_self]
    have view : s'.project g = { (s.project g).put d j { s.core (g.embed d) j with pc := p } with
        barrierY := v } :=
      eq_of_at (project_at_put part hwakeup hpart) (funext fun y => row g y) col
        (congrArg (· + 1) (congrFun hgroups _))
    rw [view]
    exact wakeupInv_step (inv.group g) (.exec ran)
  · obtain ⟨y', middle'⟩ := g'.exists_row
    have away := word_apart differ y' y
    rw [← middle, ← middle'] at away
    unfold GroupRun.colWord
    rw [hresets, hlevel2, Function.update_of_ne away]

/-- When a group can broadcast, all its clusters have left the global barrier. -/
theorem all_grid (inv : GroupInv rounds s) (part : s.part (g.embed d) = .grid) {stage : Stage}
    (pc : (s.core (g.embed d) j).pc = .wakeup stage) (e : g.machine.Clusters) :
    s.part (g.embed e) = .grid := by
  have core := GroupRun.project_core_grid part
  have busy : ((s.project g).core d j).pc.synchronises = false := by
    rw [core, pc]
    rfl
  obtain rfl : j = g.machine.dmCore := (inv.group g).eq_dmCore busy
  have lead : (s.project g).abs.phase d = .colDone := by
    show ((s.project g).core d g.machine.dmCore).pc.phase = .colDone
    rw [core, pc]
    rfl
  cases there : s.part (g.embed e) with
  | grid => rfl
  | global =>
    have noticed := ((inv.group g).all_noticed lead e).1
    have fresh : (s.project g).core e = (Local.fresh g.machine).core :=
      congrArg Local.core (GroupRun.project_at_global there)
    have zero : ((Local.fresh g.machine).core g.machine.dmCore).noticed = 0 := by
      simp [Local.fresh, WakeupCore.noticed]
    rw [fresh, zero] at noticed
    exact absurd noticed (Nat.succ_ne_zero _).symm

/-- A broadcast of the group reaches its clusters. -/
theorem selects_iff_of (d : g.machine.Clusters) (c : M.Clusters) :
    M.Selects (g.embed d) c ↔ Group.of c = g := by
  rw [GroupMachine.selects_iff, ← Group.of_eq_iff, Group.of_embed]
  exact eq_comm

theorem corner_apart (differ : g' ≠ g) : (g'.x, g'.y) ≠ (g.x, g.y) := by
  intro same
  obtain ⟨x, y⟩ := Prod.mk.inj same
  refine differ ?_
  obtain ⟨x', y', _, _⟩ := g'
  obtain ⟨x'', y'', _, _⟩ := g
  dsimp only at x y
  subst x y
  rfl

/-- A cluster of the group after the broadcast of core `j` of cluster `d`, as its view has it. -/
theorem project_at_wakeup {me : WakeupCore} {round : Nat}
    (everywhere : ∀ e, s.part (g.embed e) = .grid)
    (hwakeup : s'.toWakeup = { s.put (g.embed d) j me with
      inFlight := fun c => if M.Selects (g.embed d) c then s.inFlight c ++ [round]
        else s.inFlight c })
    (hpart : s'.part = s.part) (e : g.machine.Clusters) : (s'.project g).at e =
      ({ (s.project g).put d j me with
        inFlight := fun e => (s.project g).inFlight e ++ [round]
        broadcasts := (s.project g).broadcasts + 1 } : Wakeup g.machine).at e := by
  have there := GroupRun.project_at_grid (everywhere e)
  have selected : M.Selects (g.embed d) (g.embed e) :=
    (selects_iff_of d _).mpr (Group.of_embed e)
  have core := GroupRun.project_core_grid (everywhere e)
  have inFlight : (s.project g).inFlight e = s.inFlight (g.embed e) := congrArg Local.inFlight there
  have consumed : (s.project g).consumed e = s.consumed (g.embed e) := congrArg Local.consumed there
  have regs := regs_of_at there
  rw [GroupRun.project_at_grid ((congrFun hpart _).trans (everywhere e)), hwakeup]
  rcases eq_or_ne e d with rfl | other
  · simp only [Wakeup.at, Wakeup.put, Function.update_self, if_pos selected, inFlight, regs,
      consumed, core]
  · have away : g.embed e ≠ g.embed d := fun same => other (Group.embed_injective g same)
    simp only [Wakeup.at, Wakeup.put, Function.update_of_ne away, Function.update_of_ne other,
      if_pos selected, inFlight, regs, consumed, core]

/-- The leader of a group wakes its clusters. -/
theorem groupInv_wakeup (inv : GroupInv rounds s) (part : s.part (g.embed d) = .grid)
    {stage : Stage} (pc : (s.core (g.embed d) j).pc = .wakeup stage)
    (ran : s.execGrid rounds (g.embed d) j = some s') : GroupInv rounds s' := by
  have everywhere := all_grid inv part pc
  obtain ⟨idX, idY, -⟩ := Group.info_embed d
  rw [GroupRun.execGrid, pc] at ran
  dsimp only at ran
  rw [idX, idY] at ran
  obtain ⟨hwakeup, hpart, hresets, hlevel1, hlevel2, hgroups⟩ :
      s'.toWakeup = { s.put (g.embed d) j { s.core (g.embed d) j with pc := .reg stage } with
        inFlight := fun c => if M.Selects (g.embed d) c then
          s.inFlight c ++ [stage.round (s.core (g.embed d) j).calls] else s.inFlight c } ∧
      s'.part = s.part ∧ s'.resets = s.resets ∧ s'.level1 = s.level1 ∧ s'.level2 = s.level2 ∧
      s'.groupBroadcasts =
        Function.update s.groupBroadcasts (g.x, g.y) (s.groupBroadcasts (g.x, g.y) + 1) := by
    rw [← Option.some.inj ran]
    exact ⟨rfl, rfl, rfl, rfl, rfl, rfl⟩
  have apart : ∀ c, Group.of c ≠ g → s'.toWakeup.at c = s.toWakeup.at c := by
    intro c other
    have unselected : ¬ M.Selects (g.embed d) c := fun selected =>
      other ((selects_iff_of d c).mp selected)
    have away : c ≠ g.embed d := of_ne_of_embed other
    rw [hwakeup]
    simp only [Wakeup.at, Wakeup.put, Function.update_of_ne away, if_neg unselected]
  have outside : ∀ c, s.part c = .global → Group.of c ≠ g := by
    intro c here member
    obtain ⟨e, rfl⟩ := (Group.exists_embed_iff g c).mpr member
    rw [everywhere e] at here
    cases here
  have row := GroupRun.rowWord_congr hresets hlevel1
  have col := GroupRun.colWord_congr hresets hlevel2
  refine groupInv_grid inv hpart hresets (by rw [hwakeup]; rfl) (by rw [hwakeup]; rfl)
    (by rw [hwakeup]; rfl) (fun c here => apart c (outside c here)) apart ?_
    fun g' differ => ⟨fun y => row g' y, col g', ?_⟩
  · have core := GroupRun.project_core_grid part
    have view : (s.project g).exec rounds d j = some
        { (s.project g).put d j { s.core (g.embed d) j with pc := .reg stage } with
          inFlight := fun e =>
            (s.project g).inFlight e ++ [stage.round (s.core (g.embed d) j).calls]
          broadcasts := (s.project g).broadcasts + 1 } := by
      rw [Wakeup.exec, core, pc]
    have same : s'.project g =
        { (s.project g).put d j { s.core (g.embed d) j with pc := .reg stage } with
          inFlight := fun e =>
            (s.project g).inFlight e ++ [stage.round (s.core (g.embed d) j).calls]
          broadcasts := (s.project g).broadcasts + 1 } := by
      refine eq_of_at (project_at_wakeup everywhere hwakeup hpart) (funext fun y => row g y) (col g)
        ?_
      show s'.groupBroadcasts (g.x, g.y) + 1 = s.groupBroadcasts (g.x, g.y) + 1 + 1
      rw [hgroups, Function.update_self]
    rw [same]
    exact wakeupInv_step (inv.group g) (.exec view)
  · rw [hgroups]
    exact Function.update_of_ne (corner_apart differ) _ _

/-- The accesses in the barrier of a group. -/
theorem groupInv_execGrid (inv : GroupInv rounds s) (part : s.part (g.embed d) = .grid)
    (ran : s.execGrid rounds (g.embed d) j = some s') : GroupInv rounds s' := by
  have core := GroupRun.project_core_grid part
  obtain ⟨-, -, numX, numY, syncX, syncY⟩ := Group.info_embed d
  obtain ⟨row, col⟩ := inv.words part
  have rowEq : (s.project g).barrierX d.2 = s.level1 (g.syncX, g.y * M.gridYDim + d.2) := row d.2
  have colEq : (s.project g).barrierY = s.level2 (g.syncX, g.syncY) := col
  have begun : (s.core (g.embed d) j).pc.starts = false := by
    refine Bool.eq_false_iff.mpr fun starts => ?_
    have busy : ((s.project g).core d j).pc.synchronises = false := by
      rw [core]
      cases pc : (s.core (g.embed d) j).pc with
      | initY | initX | wakeup => rfl
      | _ =>
        rw [pc] at starts
        cases starts
    obtain rfl : j = g.machine.dmCore := (inv.group g).eq_dmCore busy
    rw [← core] at starts
    exact absurd ((inv.group g).broadcasts_of_starts starts).1 (Nat.succ_ne_zero _)
  cases pc : (s.core (g.embed d) j).pc with
  | amoX =>
    rw [GroupRun.execGrid, pc] at ran
    dsimp only at ran
    rw [syncX, numX] at ran
    obtain rfl := Option.some.inj ran
    refine groupInv_level1 inv part ?_ rfl rfl rfl rfl rfl rfl
    rw [Wakeup.exec, core, pc]
    dsimp only
    rw [rowEq]
    rfl
  | resetX =>
    rw [GroupRun.execGrid, pc] at ran
    dsimp only at ran
    rw [syncX] at ran
    obtain rfl := Option.some.inj ran
    refine groupInv_level1 inv part ?_ rfl rfl rfl rfl rfl rfl
    rw [Wakeup.exec, core, pc]
  | amoY =>
    rw [GroupRun.execGrid, pc] at ran
    dsimp only at ran
    rw [syncX, syncY, numY] at ran
    obtain rfl := Option.some.inj ran
    refine groupInv_level2 inv part ?_ rfl rfl rfl rfl rfl rfl
    rw [Wakeup.exec, core, pc]
    dsimp only
    rw [colEq]
  | resetY =>
    rw [GroupRun.execGrid, pc] at ran
    dsimp only at ran
    rw [syncX, syncY] at ran
    obtain rfl := Option.some.inj ran
    refine groupInv_level2 inv part ?_ rfl rfl rfl rfl rfl rfl
    rw [Wakeup.exec, core, pc]
  | wakeup stage => exact groupInv_wakeup inv part pc ran
  | initY | initX =>
    rw [pc] at begun
    cases begun
  | reg | regWait | sync | syncWait | out =>
    rw [GroupRun.execGrid, pc] at ran
    obtain ⟨w, ran', rfl⟩ := Option.map_eq_some_iff.mp ran
    exact groupInv_local inv part (by rw [pc]; rfl) ran'

end

/-! ## Runs -/

section

variable {M : GroupMachine} {rounds : Nat} {s s' : GroupRun M} {c d : M.Clusters}
  {j : Fin M.nbCores}

/-- A wakeup that arrives leaves no core at the end of the global barrier. -/
theorem stay_deliver (s : GroupRun M) (c : M.Clusters) (round : Nat) {d : M.Clusters}
    (stay : ∃ k, s.core d k ≠ ⟨.out, 1⟩) :
    ∃ k, (s.toWakeup.deliver c round).core d k ≠ ⟨.out, 1⟩ := by
  obtain ⟨k, away⟩ := stay
  refine ⟨k, ?_⟩
  rcases core_deliver s.toWakeup c round with same | ⟨j, stage, -, core⟩
  · rw [same]
    exact away
  · rw [core]
    by_cases this : d = c ∧ k = j
    · obtain ⟨rfl, rfl⟩ := this
      simp only [Wakeup.put, Function.update_self]
      intro eq
      have pc : stage.after = .out := congrArg WakeupCore.pc eq
      cases stage <;> cases pc
    · have same : (s.put c j { s.core c j with pc := stage.after }).core d k = s.core d k := by
        rcases eq_or_ne d c with rfl | other
        · have other : k ≠ j := fun same => this ⟨rfl, same⟩
          simp only [Wakeup.put, Function.update_self, Function.update_of_ne other]
        · simp only [Wakeup.put, Function.update_of_ne other]
      rw [same]
      exact away

/-- The arrival of a wakeup in the global barrier is one of its view. -/
theorem whole_deliver (part : s.part c = .global) (round : Nat) :
    ({ s with toWakeup := s.toWakeup.deliver c round } : GroupRun M).whole =
      s.whole.deliver c round := by
  have same := deliver_agree (G := M.toGrid) (t := s.whole) (s := s.toWakeup)
    (GroupRun.whole_at_global part) round
  obtain ⟨others, hx, hy, hbroadcasts⟩ := deliver_frame s.toWakeup c round
  obtain ⟨others', hx', hy', hbroadcasts'⟩ := deliver_frame s.whole c round
  refine eq_of_at (fun d => ?_) (hx.trans hx'.symm) (hy.trans hy'.symm)
    (hbroadcasts.trans hbroadcasts'.symm)
  rcases eq_or_ne d c with rfl | other
  · have here : ({ s with toWakeup := s.toWakeup.deliver d round } : GroupRun M).whole.at d =
        (s.toWakeup.deliver d round).at d := GroupRun.whole_at_global part
    rw [here, same]
  · rw [others' d other]
    exact GroupRun.whole_at_congr rfl fun _ => others d other

/-- The arrival of a wakeup in the global barrier. -/
theorem groupInv_deliver_global (inv : GroupInv rounds s) (part : s.part c = .global) {round : Nat}
    (mem : round ∈ s.inFlight c) :
    GroupInv rounds ({ s with toWakeup := s.toWakeup.deliver c round } : GroupRun M) := by
  obtain ⟨others, -, -, hbroadcasts⟩ := deliver_frame s.toWakeup c round
  have view := whole_deliver part round
  have mem' : round ∈ s.whole.inFlight c := by
    have inFlight : s.whole.inFlight c = s.inFlight c :=
      congrArg Local.inFlight (GroupRun.whole_at_global part)
    rw [inFlight]
    exact mem
  refine ⟨?_, ?_, fun g => ?_, fun d entered => ?_, fun d here => ?_⟩
  · rw [view]
    exact wakeupInv_step inv.whole (.deliver mem')
  · show (s.toWakeup.deliver c round).broadcasts ≤ 2
    rw [hbroadcasts]
    exact inv.few
  · rw [project_of_global fun d left => others d (ne_of_global left part).symm]
    exact inv.group g
  · rw [view] at entered
    exact inv.ready d (Nat.lt_of_lt_of_le entered (entered_deliver _ _ _ _ _))
  · exact stay_deliver s c round (inv.stay d here)

/-- The arrival of a wakeup in a group. -/
theorem groupInv_deliver_grid (inv : GroupInv rounds s) {g : Group M} {d : g.machine.Clusters}
    (part : s.part (g.embed d) = .grid) {round : Nat} (mem : round ∈ s.inFlight (g.embed d)) :
    GroupInv rounds
      ({ s with toWakeup := s.toWakeup.deliver (g.embed d) round } : GroupRun M) := by
  have at' := GroupRun.project_at_grid part
  have same := deliver_agree at' round
  obtain ⟨others, hx, hy, hbroadcasts⟩ := deliver_frame s.toWakeup (g.embed d) round
  obtain ⟨others', hx', hy', hbroadcasts'⟩ := deliver_frame (s.project g) d round
  have mem' : round ∈ (s.project g).inFlight d := by
    have inFlight : (s.project g).inFlight d = s.inFlight (g.embed d) :=
      congrArg Local.inFlight at'
    rw [inFlight]
    exact mem
  refine groupInv_cluster inv part others hx hy hbroadcasts ?_
  rw [← project_step part others same others' hx' hy' hbroadcasts']
  exact wakeupInv_step (inv.group g) (.deliver mem')

/-- The arrival of a wakeup. -/
theorem groupInv_deliver (inv : GroupInv rounds s) {round : Nat} (mem : round ∈ s.inFlight c) :
    GroupInv rounds ({ s with toWakeup := s.toWakeup.deliver c round } : GroupRun M) := by
  cases part : s.part c with
  | global => exact groupInv_deliver_global inv part mem
  | grid =>
    obtain ⟨g, d, rfl⟩ := Group.exists_embed c
    exact groupInv_deliver_grid inv part mem

theorem groupInv_step (inv : GroupInv rounds s) (step : GroupRun.Step rounds s s') :
    GroupInv rounds s' := by
  cases step with
  | deliver mem => exact groupInv_deliver inv mem
  | exec ran =>
    rename_i c j
    unfold GroupRun.exec at ran
    cases part : s.part c with
    | global =>
      rw [part] at ran
      dsimp only at ran
      split at ran
      · rename_i first
        obtain rfl := Option.some.inj ran
        exact groupInv_reset inv first.2.2
      · rename_i reset
        obtain ⟨w, ran', rfl⟩ := Option.map_eq_some_iff.mp ran
        exact groupInv_global inv part reset ran'
    | grid =>
      rw [part] at ran
      obtain ⟨g, d, rfl⟩ := Group.exists_embed c
      exact groupInv_execGrid inv part ran

/-! ## Isolation -/

/-- What a cluster sees of a step that leaves it alone: its cores, registers, wakeups and words. -/
structure GroupRun.Unchanged (s s' : GroupRun M) (d : M.Clusters) : Prop where
  part : s'.part d = s.part d
  core : s'.core d = s.core d
  regs : s'.regs d = s.regs d
  inFlight : s'.inFlight d = s.inFlight d
  level1 : s'.level1 (GroupRun.home d) = s.level1 (GroupRun.home d)
  level2 : s'.level2 (GroupRun.home d) = s.level2 (GroupRun.home d)

theorem sameGroup_embed {g : Group M} (d e : g.machine.Clusters) :
    M.SameGroup (g.embed d) (g.embed e) := by
  rw [← Group.of_eq_iff, Group.of_embed, Group.of_embed]

/-- The words a cluster counts in are those of clusters of its group. -/
theorem words_sameGroup (c : M.Clusters) :
    (∃ e, M.SameGroup c e ∧ GroupRun.home e = ((M.info c).syncXCluster, c.2.val)) ∧
      ∃ e, M.SameGroup c e ∧
        GroupRun.home e = ((M.info c).syncXCluster, (M.info c).syncYCluster) := by
  obtain ⟨g, d, rfl⟩ := Group.exists_embed c
  obtain ⟨-, -, -, -, syncX, syncY⟩ := Group.info_embed d
  obtain ⟨y, middle⟩ := g.exists_row
  obtain ⟨e, x, row⟩ := g.exists_word d.2
  obtain ⟨e', x', row'⟩ := g.exists_word y
  rw [syncX, syncY]
  refine ⟨⟨g.embed e, sameGroup_embed d e, ?_⟩, ⟨g.embed e', sameGroup_embed d e', ?_⟩⟩
  · rw [GroupRun.home, x, row]
    rfl
  · rw [GroupRun.home, x', row', middle]

theorem unchanged_of_at {w : Wakeup M.toMachine} (same : w.at d = s.toWakeup.at d) :
    GroupRun.Unchanged s { s with toWakeup := w } d :=
  ⟨rfl, congrArg Local.core same, regs_of_at same, congrArg Local.inFlight same, rfl, rfl⟩

/-- An access in the barrier of a group leaves the clusters of the other groups alone. -/
theorem exec_isolated (part : s.part c = .grid) (other : ¬ M.SameGroup c d)
    (ran : s.exec rounds c j = some s') : s.Unchanged s' d := by
  have away : d ≠ c := by
    rintro rfl
    exact other ⟨rfl, rfl⟩
  obtain ⟨⟨e, member, xPoint⟩, ⟨e', member', yPoint⟩⟩ := words_sameGroup c
  have differ : ∀ e, M.SameGroup c e → GroupRun.home d ≠ GroupRun.home e := by
    intro e member same
    obtain ⟨x, y⟩ := Prod.mk.inj same
    obtain rfl : d = e := Prod.ext (Fin.ext x) (Fin.ext y)
    exact other member
  have offX : GroupRun.home d ≠ ((M.info c).syncXCluster, c.2.val) := xPoint ▸ differ e member
  have offY : GroupRun.home d ≠ ((M.info c).syncXCluster, (M.info c).syncYCluster) :=
    yPoint ▸ differ e' member'
  have put : ∀ me, (s.put c j me).core d = s.core d := fun me =>
    Function.update_of_ne away _ _
  unfold GroupRun.exec at ran
  rw [part] at ran
  dsimp only at ran
  cases pc : (s.core c j).pc with
  | amoX | resetX =>
    rw [GroupRun.execGrid, pc] at ran
    obtain rfl := Option.some.inj ran
    exact ⟨rfl, put _, rfl, rfl, Function.update_of_ne offX _ _, rfl⟩
  | amoY | resetY =>
    rw [GroupRun.execGrid, pc] at ran
    obtain rfl := Option.some.inj ran
    exact ⟨rfl, put _, rfl, rfl, rfl, Function.update_of_ne offY _ _⟩
  | wakeup stage =>
    have unselected : ¬ M.Selects c d :=
      fun selected => other (GroupMachine.selects_iff.mp selected)
    rw [GroupRun.execGrid, pc] at ran
    obtain rfl := Option.some.inj ran
    exact ⟨rfl, put _, rfl, if_neg unselected, rfl, rfl⟩
  | _ =>
    rw [GroupRun.execGrid, pc] at ran
    obtain ⟨w, ran', rfl⟩ := Option.map_eq_some_iff.mp ran
    exact unchanged_of_at ((exec_frame (by rw [pc]; rfl) ran').1 d away)

/-! ## Progress -/

theorem free_of_exec {N : Machine} {t t' : Wakeup N} {e : N.Clusters} {k : Fin N.nbCores}
    (ran : t.exec rounds e k = some t') : ¬ (t.core e k).Blocked rounds := by
  rw [Wakeup.exec] at ran
  rintro (waits | ⟨stage, pc⟩ | done)
  · cases pc : (t.core e k).pc with
    | syncWait point =>
      rw [pc] at ran
      cases ran
    | _ =>
      rw [pc] at waits
      cases waits
  · rw [pc] at ran
    cases ran
  · rw [done] at ran
    dsimp only at ran
    rw [if_neg (Nat.lt_irrefl rounds)] at ran
    cases ran

theorem execGrid_isSome (free : ¬ (s.core c j).Blocked rounds) (le : (s.core c j).calls ≤ rounds) :
    ∃ s', s.execGrid rounds c j = some s' := by
  obtain ⟨w, ran⟩ := exec_isSome (s := s.toWakeup) free le
  rw [GroupRun.execGrid]
  cases pc : (s.core c j).pc with
  | amoX | resetX | amoY | resetY | wakeup => exact ⟨_, rfl⟩
  | _ =>
    dsimp only
    rw [ran]
    exact ⟨_, rfl⟩

/-- While a cluster is in the global barrier, that barrier goes on. -/
theorem global_progress (inv : GroupInv rounds s) (here : s.part d = .global) :
    ∃ e, s.part e = .global ∧ (s.inFlight e ≠ [] ∨ ∃ j s', s.exec rounds e j = some s') := by
  have unfinished : ¬ s.whole.Final 1 := by
    intro final
    obtain ⟨j, away⟩ := inv.stay d here
    rw [← GroupRun.whole_core_global here] at away
    exact away (final d j)
  rcases wakeup_progress inv.whole unfinished with ⟨e, flight⟩ | ⟨e, j, t, ran⟩
  · cases part : s.part e with
    | global =>
      have inFlight : s.whole.inFlight e = s.inFlight e :=
        congrArg Local.inFlight (GroupRun.whole_at_global part)
      rw [inFlight] at flight
      exact ⟨e, part, Or.inl flight⟩
    | grid =>
      have inFlight : s.whole.inFlight e = [] :=
        congrArg Local.inFlight (GroupRun.whole_at_grid part)
      exact absurd inFlight flight
  · have free := free_of_exec ran
    cases part : s.part e with
    | global =>
      have core := GroupRun.whole_core_global part
      have le := ((inv.whole.intra e).ok j).calls_le
      rw [core] at free le
      obtain ⟨w, ran'⟩ := exec_isSome (s := s.toWakeup) free le
      refine ⟨e, part, Or.inr ⟨j, ?_⟩⟩
      unfold GroupRun.exec
      rw [part]
      dsimp only
      split
      · exact ⟨_, rfl⟩
      · rw [ran']
        exact ⟨_, rfl⟩
    | grid =>
      rw [GroupRun.whole_core_grid part] at free
      exact absurd (Or.inr (Or.inr rfl)) free

/-- Once all clusters are in the barriers of their groups, each group goes on by itself. -/
theorem grid_progress (inv : GroupInv rounds s) (everywhere : ∀ d, s.part d = .grid)
    (unfinished : ¬ s.Done rounds c) :
    ∃ d, M.SameGroup c d ∧ (s.inFlight d ≠ [] ∨ ∃ j s', s.exec rounds d j = some s') := by
  obtain ⟨g, d, rfl⟩ := Group.exists_embed c
  have core : ∀ e, (s.project g).core e = s.core (g.embed e) := fun e =>
    GroupRun.project_core_grid (everywhere _)
  have unfinished : ¬ (s.project g).Final rounds := by
    intro final
    refine unfinished ⟨everywhere _, fun j => ?_⟩
    rw [← core]
    exact final d j
  rcases wakeup_progress (inv.group g) unfinished with ⟨e, flight⟩ | ⟨e, j, t, ran⟩
  · have inFlight : (s.project g).inFlight e = s.inFlight (g.embed e) :=
      congrArg Local.inFlight (GroupRun.project_at_grid (everywhere _))
    rw [inFlight] at flight
    exact ⟨g.embed e, sameGroup_embed d e, Or.inl flight⟩
  · have free := free_of_exec ran
    have le := (((inv.group g).intra e).ok j).calls_le
    rw [core] at free le
    refine ⟨g.embed e, sameGroup_embed d e, Or.inr ⟨j, ?_⟩⟩
    unfold GroupRun.exec
    rw [everywhere]
    exact execGrid_isSome free le

/-- A cluster that is not done finds a step in its group or in the global barrier. -/
theorem group_progress (inv : GroupInv rounds s) (unfinished : ¬ s.Done rounds c) :
    ∃ d, (M.SameGroup c d ∨ s.part d = .global) ∧
      (s.inFlight d ≠ [] ∨ ∃ j s', s.exec rounds d j = some s') := by
  by_cases waiting : ∃ d, s.part d = .global
  · obtain ⟨d, here⟩ := waiting
    obtain ⟨e, part, moves⟩ := global_progress inv here
    exact ⟨e, Or.inr part, moves⟩
  · have everywhere : ∀ d, s.part d = .grid := by
      intro d
      cases part : s.part d with
      | global => exact absurd ⟨d, part⟩ waiting
      | grid => rfl
    obtain ⟨d, member, moves⟩ := grid_progress inv everywhere unfinished
    exact ⟨d, Or.inl member, moves⟩

/-- No member of a group returns from a call that another one has not entered. -/
theorem groupCalls_le (inv : GroupInv rounds s) (same : M.SameGroup c d) (j k : Fin M.nbCores) :
    s.groupCalls c j ≤ s.groupEntered d k := by
  unfold GroupRun.groupCalls GroupRun.groupEntered
  cases part : s.part c with
  | global => exact Nat.zero_le _
  | grid =>
    obtain ⟨g, e, rfl⟩ := Group.exists_embed c
    obtain ⟨e', rfl⟩ : ∃ e', g.embed e' = d := by
      rw [Group.exists_embed_iff, ← Group.of_embed e, Group.of_eq_iff]
      exact ⟨same.1.symm, same.2.symm⟩
    have bound := (inv.group g).calls_le_entered e e' j k
    have core := GroupRun.project_core_grid part
    unfold Wakeup.entered at bound
    rw [core] at bound
    dsimp only
    cases there : s.part (g.embed e') with
    | global =>
      have fresh : (s.project g).core e' = (Local.fresh g.machine).core :=
        congrArg Local.core (GroupRun.project_at_global there)
      rw [fresh] at bound
      refine bound.trans (Nat.le_of_eq ?_)
      unfold Local.fresh
      dsimp only
      split <;> rfl
    | grid =>
      have core' := GroupRun.project_core_grid there
      rw [core'] at bound
      exact bound

end

/-- In every run of `flex_barrier_xy_init`, `grid_sync_group_init` and the global barrier on all
clusters, with any contents of the words, and then of `rounds` barriers of the groups: no core
returns from the n-th barrier of its group before every core of the group has entered its n-th; a
core in the barrier of its group, and a wakeup that arrives there, change nothing a cluster of
another group sees; and until a cluster is done, a cluster of its group, or one that has not left
the global barrier, has a next access or a wakeup on its way. -/
theorem group_barrier (M : GroupMachine) (rounds : Nat) (barrierX : Fin M.numY → BitVec 32)
    (barrierY : BitVec 32) (level1 level2 : Nat × Nat → BitVec 32) (s : GroupRun M)
    (run : GroupRun.Run rounds barrierX barrierY level1 level2 s) :
    (∀ c d j k, M.SameGroup c d → s.groupCalls c j ≤ s.groupEntered d k) ∧
      (∀ c d, s.part c = .grid → ¬ M.SameGroup c d →
        (∀ j s', s.exec rounds c j = some s' → s.Unchanged s' d) ∧
        ∀ round, s.Unchanged { s with toWakeup := s.toWakeup.deliver c round } d) ∧
      ∀ c, ¬ s.Done rounds c → ∃ d, (M.SameGroup c d ∨ s.part d = .global) ∧
        (s.inFlight d ≠ [] ∨ ∃ j s', s.exec rounds d j = some s') := by
  have inv : GroupInv rounds s :=
    invariant_of_run (GroupInv rounds) (fun _ _ inv step => groupInv_step inv step)
      (groupInv_init barrierX barrierY level1 level2) run
  refine ⟨fun c d j k same => groupCalls_le inv same j k, fun c d part other => ⟨?_, ?_⟩,
    fun c unfinished => group_progress inv unfinished⟩
  · exact fun j s' ran => exec_isolated part other ran
  · intro round
    have away : d ≠ c := by
      rintro rfl
      exact other ⟨rfl, rfl⟩
    exact unchanged_of_at ((deliver_frame s.toWakeup c round).1 d away)

/-- The words hold rubbish. -/
def unevenMachineStart : GroupRun unevenMachine :=
  GroupRun.init (fun _ => 7) 9 (fun _ => 3) fun _ => 5

/-- Every core has had 24 turns, and every wakeup as many to arrive. -/
def unevenMachineLater : GroupRun unevenMachine :=
  tryEach (GroupRun.next 3) unevenMachineStart (List.replicate 24 unevenMachine.turn).flatten

/-- The second group and one cluster of the first have returned from the first barrier of their
group, and the other cluster is about to. -/
theorem group_barrier_unevenMachine :
    unevenMachineLater.groupCalls unevenLast unevenMachine.dmCore = 1 ∧
    unevenMachineLater.groupCalls unevenMachine.first unevenMachine.dmCore = 0 ∧
    unevenMachineLater.part unevenMachine.first = .grid ∧
    (∀ c d j k, unevenMachine.SameGroup c d →
      unevenMachineLater.groupCalls c j ≤ unevenMachineLater.groupEntered d k) ∧
      (∀ c d, unevenMachineLater.part c = .grid → ¬ unevenMachine.SameGroup c d →
        (∀ j s', unevenMachineLater.exec 3 c j = some s' → unevenMachineLater.Unchanged s' d) ∧
        ∀ round, unevenMachineLater.Unchanged
          { unevenMachineLater with toWakeup := unevenMachineLater.toWakeup.deliver c round } d) ∧
      ∀ c, ¬ unevenMachineLater.Done 3 c →
        ∃ d, (unevenMachine.SameGroup c d ∨ unevenMachineLater.part d = .global) ∧
          (unevenMachineLater.inFlight d ≠ [] ∨
            ∃ j s', unevenMachineLater.exec 3 d j = some s') :=
  ⟨by decide +kernel, by decide +kernel, by decide +kernel,
    group_barrier unevenMachine 3 (fun _ => 7) 9 (fun _ => 3) (fun _ => 5) unevenMachineLater
      (run_tryEach GroupRun.next_step _ _)⟩

example : unevenMachine.info unevenLast =
    ⟨true, 1, 0, 2, 2, 0, 0, 1, 1, 254, 255, 2, 0⟩ := by
  decide

end SoftHier.Barrier
