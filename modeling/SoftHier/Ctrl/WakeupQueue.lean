import Mathlib.Data.List.Sort
import SoftHier.Lib.Transition
import SoftHier.Lib.Word

/-!
# The deferred wakeups of the control registers

A write at offset 4 or 36 of the `CtrlRegisters` queues a wakeup with a time stamp, of all clusters
or of those registered for a group; one event, which is moved whenever it is enqueued again, takes
the wakeups off the queue.  Until the HBM is preloaded, its handler only polls.

* `CtrlRegisters.step`: the clock, the writes, the end of the preload, and the handler.
* `Registered`: groups are registered before they are woken up, and until they have been.
* `Sound`: what the queue is for.
* `wakeups_sound`: it holds as long as no wakeup is delivered after the next one has expired.

The state carries the requests, the deliveries and the delays of the run so far, the cycle of the
last write and the cycle in which the preload was done.
-/

namespace SoftHier.Ctrl

/-- `is_global` and `group_id` -/
inductive Target where
  | global
  | group (groupId : Nat)
  deriving DecidableEq, Repr

/-- `wakeup_payload_t` -/
structure WakeupPayload where
  target : Target
  timestamp : Nat
  deriving DecidableEq, Repr

/-- `sync_group_mapper`: the pairs of a group and one of its clusters, the clusters in order. -/
abbrev SyncGroupMapper := List (Nat × Nat)

/-- `sync_group_mapper[group_id].insert(cluster_id)` -/
def SyncGroupMapper.insert (mapper : SyncGroupMapper) (groupId clusterId : Nat) : SyncGroupMapper :=
  if (groupId, clusterId) ∈ mapper then mapper
  else List.orderedInsert (fun p q => p.2 ≤ q.2) (groupId, clusterId) mapper

/-- A wakeup that has been delivered: when, to which clusters, and which groups were registered. -/
structure Delivery where
  payload : WakeupPayload
  cycle : Nat
  clusters : List Nat
  syncGroupMapper : SyncGroupMapper
  deriving DecidableEq, Repr

/-- The configuration. -/
structure CtrlRegisters where
  numClusterX : Nat
  numClusterY : Nat
  hasPreloadBinary : Bool

/-- The registers with the clock and the cycle the wakeup event fires in. -/
structure State where
  cycles : Nat
  hbmPreloadDone : Bool
  syncGroupMapper : SyncGroupMapper
  queue : List WakeupPayload
  wakeupEvent : Option Nat
  requested : List WakeupPayload
  delivered : List Delivery
  delays : List Int
  lastWrite : Nat
  doneAt : Nat
  deriving DecidableEq, Repr

/-- `event_enqueue` of the wakeup event; what a negative delay does is not specified. -/
def State.eventEnqueue (s : State) (delay : Int) : State :=
  { s with
    wakeupEvent := if delay < 0 then none else some (s.cycles + delay.toNat)
    delays := s.delays ++ [delay] }

/-- What can happen. -/
inductive Event where
  | tick
  | write (offset value : Nat)
  | preloadDone
  | fire
  deriving DecidableEq, Repr

namespace CtrlRegisters

variable (c : CtrlRegisters)

/-- Cycles from a write to the time stamp of its wakeup. -/
def latency : Nat := c.numClusterX + c.numClusterY

/-- The state before the first access. -/
def init : State where
  cycles := 0
  hbmPreloadDone := !c.hasPreloadBinary
  syncGroupMapper := []
  queue := []
  wakeupEvent := none
  requested := []
  delivered := []
  delays := []
  lastWrite := 0
  doneAt := 0

/-- The clusters a wakeup is for; `none` is the fatal error of an unregistered group. -/
def clusters (mapper : SyncGroupMapper) : Target → Option (List Nat)
  | .global => some (List.range (c.numClusterX * c.numClusterY))
  | .group groupId =>
      match mapper.filter fun p => p.1 = groupId with
      | [] => none
      | p :: ps => some ((p :: ps).map Prod.snd)

/-- Queue a wakeup and let the event fire in the next cycle. -/
def push (s : State) (target : Target) : State :=
  let payload : WakeupPayload := ⟨target, s.cycles + c.numClusterX + c.numClusterY⟩
  { s with
    queue := s.queue ++ [payload]
    requested := s.requested ++ [payload]
    lastWrite := s.cycles }.eventEnqueue 1

/-- `CtrlRegisters::req`, a write of four bytes; the other offsets leave the queue and the groups
alone. -/
def req (s : State) (offset value : Nat) : State :=
  if offset = 4 then c.push s .global
  else if offset = 24 then { s with syncGroupMapper := [] }
  else if offset = 28 then
    { s with syncGroupMapper := s.syncGroupMapper.insert (value &&& 0xFFFF) (u16 (value >>> 16)) }
  else if offset = 36 then c.push s (.group (value &&& 0xFFFF))
  else s

/-- `CtrlRegisters::wakeup_event_handler` -/
def wakeupEventHandler (s : State) : Option State :=
  if s.hbmPreloadDone then
    match s.queue with
    | [] => some s
    | payload :: rest =>
        if payload.timestamp ≤ s.cycles then
          match c.clusters s.syncGroupMapper payload.target with
          | none => none
          | some clusters =>
              let s := { s with
                queue := rest
                delivered := s.delivered ++ [⟨payload, s.cycles, clusters, s.syncGroupMapper⟩] }
              match rest with
              | [] => some s
              | next :: _ => some (s.eventEnqueue ((next.timestamp : Int) - s.cycles))
        else some (s.eventEnqueue ((payload.timestamp : Int) - s.cycles))
  else some (s.eventEnqueue 300)

/-- `CtrlRegisters::hbm_preload_done_handler` -/
def hbmPreloadDoneHandler (s : State) : State :=
  { s with
    hbmPreloadDone := true
    doneAt := if s.hbmPreloadDone then s.doneAt else s.cycles }

/-- The clock does not pass the event, and the event fires in its cycle. -/
def step (s : State) : Event → Option State
  | .tick => if s.wakeupEvent = some s.cycles then none else some { s with cycles := s.cycles + 1 }
  | .write offset value => some (c.req s offset value)
  | .preloadDone => some (hbmPreloadDoneHandler s)
  | .fire =>
      if s.wakeupEvent = some s.cycles then c.wakeupEventHandler { s with wakeupEvent := none }
      else none

/-- A group is woken up only after it has been registered, and the groups are not reset while one of
them is still to be woken up. -/
def Registered (s : State) : Event → Prop
  | .write offset value =>
      (offset = 36 → (c.clusters s.syncGroupMapper (.group (value &&& 0xFFFF))).isSome) ∧
        (offset = 24 → ∀ w ∈ s.queue, w.target = .global)
  | _ => True

instance (s : State) : ∀ e, Decidable (c.Registered s e)
  | .write _ _ => inferInstanceAs (Decidable ((_ → _) ∧ (_ → ∀ w ∈ s.queue, _)))
  | .tick | .preloadDone | .fire => inferInstanceAs (Decidable True)

/-- When the handler delivers a wakeup, the time stamp of the next one is not yet past. -/
def Timely (s : State) (e : Event) : Prop :=
  e = .fire → s.hbmPreloadDone = true → ∀ payload ∈ s.queue.head?, ∀ next ∈ s.queue.tail.head?,
    payload.timestamp ≤ s.cycles → s.cycles ≤ next.timestamp

instance (s : State) (e : Event) : Decidable (Timely s e) :=
  inferInstanceAs (Decidable (_ → _ → _))

/-- The runs in which groups are registered and every step is `P`. -/
abbrev Run (P : State → Event → Prop) : List Event → State → Prop :=
  History c.step (fun _ s e => c.Registered s e ∧ P s e) c.init

/-- Every wakeup is delivered once, in the order of the requests, to all clusters or to those that
are registered for its group, not before its time stamp and not before the preload is done; no
delay is negative; and once the preload has been done for 300 cycles and the last request has
expired, none is left. -/
structure Sound (s : State) : Prop where
  fifo : s.requested = s.delivered.map Delivery.payload ++ s.queue
  delivered : ∀ d ∈ s.delivered, d.payload.timestamp ≤ d.cycle ∧ s.hbmPreloadDone = true ∧
    s.doneAt ≤ d.cycle ∧ c.clusters d.syncGroupMapper d.payload.target = some d.clusters
  delays : ∀ delay ∈ s.delays, 0 ≤ delay
  prompt : s.hbmPreloadDone = true → s.doneAt + 300 < s.cycles →
    s.lastWrite + max 1 c.latency < s.cycles → s.queue = []

/-! ## The invariant -/

/-- What holds of the queue and of the history, whenever the event fires. -/
structure Core (s : State) : Prop where
  fifo : s.requested = s.delivered.map Delivery.payload ++ s.queue
  delivered : ∀ d ∈ s.delivered, d.payload.timestamp ≤ d.cycle ∧ s.hbmPreloadDone = true ∧
    s.doneAt ≤ d.cycle ∧ c.clusters d.syncGroupMapper d.payload.target = some d.clusters
  delays : ∀ delay ∈ s.delays, 0 ≤ delay
  registered : ∀ w ∈ s.queue, (c.clusters s.syncGroupMapper w.target).isSome
  stamped : ∀ w ∈ s.queue, w.timestamp ≤ s.lastWrite + c.latency
  lastWrite_le : s.lastWrite ≤ s.cycles
  doneAt_le : s.doneAt ≤ s.cycles

/-- What every timely step keeps: the event is due for the first wakeup in the queue. -/
structure Inv (s : State) : Prop extends c.Core s where
  due_ge : ∀ due, s.wakeupEvent = some due → s.cycles ≤ due
  pending : ∀ w ∈ s.queue.head?, ∃ due, s.wakeupEvent = some due ∧
    (s.hbmPreloadDone = false → due ≤ s.cycles + 300) ∧
    (s.hbmPreloadDone = true →
      due ≤ s.doneAt + 300 ∨ due ≤ s.lastWrite + 1 ∨ due ≤ w.timestamp)

variable {c} {s t : State}

theorem isSome_clusters_group {mapper : SyncGroupMapper} {groupId : Nat} :
    (c.clusters mapper (.group groupId)).isSome ↔ ∃ p ∈ mapper, p.1 = groupId := by
  unfold clusters
  dsimp only
  split
  · rename_i none
    refine iff_of_false Bool.false_ne_true ?_
    rintro ⟨p, mem, group⟩
    exact List.filter_eq_nil_iff.mp none p mem (decide_eq_true group)
  · rename_i p ps some
    have mem : p ∈ mapper.filter fun p => p.1 = groupId := some ▸ List.mem_cons_self
    obtain ⟨mem, group⟩ := List.mem_filter.mp mem
    exact iff_of_true rfl ⟨p, mem, of_decide_eq_true group⟩

/-- Whoever could be woken up can be after another cluster has been registered. -/
theorem isSome_clusters_insert {mapper : SyncGroupMapper} {groupId clusterId : Nat}
    {target : Target} (known : (c.clusters mapper target).isSome) :
    (c.clusters (mapper.insert groupId clusterId) target).isSome := by
  cases target with
  | global => rfl
  | group id =>
    obtain ⟨p, mem, group⟩ := isSome_clusters_group.mp known
    refine isSome_clusters_group.mpr ⟨p, ?_, group⟩
    unfold SyncGroupMapper.insert
    split
    · exact mem
    · exact (List.mem_orderedInsert _).mpr (.inr mem)

/-- The event is due before the last request has expired, or while the preload is polled. -/
theorem Inv.sound (inv : c.Inv s) : c.Sound s := by
  refine ⟨inv.fifo, inv.delivered, inv.delays, fun done polled expired => ?_⟩
  rcases shape : s.queue with _ | ⟨w, rest⟩
  · rfl
  · obtain ⟨due, event, -, bound⟩ := inv.pending w (by rw [shape]; rfl)
    have now := inv.due_ge due event
    have stamp := inv.stamped w (shape ▸ List.mem_cons_self)
    have late := bound done
    omega

theorem inv_init : c.Inv c.init where
  fifo := rfl
  delivered := by simp [init]
  delays := by simp [init]
  registered := by simp [init]
  stamped := by simp [init]
  lastWrite_le := Nat.le_refl 0
  doneAt_le := Nat.le_refl 0
  due_ge := by simp [init]
  pending := by simp [init]

/-- The event is enqueued with a delay that is early enough for the first wakeup. -/
theorem inv_eventEnqueue (delay : Nat) (core : c.Core s)
    (polls : s.hbmPreloadDone = false → delay ≤ 300)
    (bound : s.hbmPreloadDone = true → ∀ w ∈ s.queue.head?, s.cycles + delay ≤ s.doneAt + 300 ∨
      s.cycles + delay ≤ s.lastWrite + 1 ∨ s.cycles + delay ≤ w.timestamp) :
    c.Inv (s.eventEnqueue delay) := by
  have event : (s.eventEnqueue delay).wakeupEvent = some (s.cycles + delay) := by
    have pos : ¬ (delay : Int) < 0 := by omega
    unfold State.eventEnqueue
    rw [if_neg pos]
    rfl
  refine { core with delays := ?_, due_ge := ?_, pending := ?_ }
  · intro d mem
    rcases List.mem_append.mp mem with before | last
    · exact core.delays d before
    · obtain rfl := List.mem_singleton.mp last
      exact Int.natCast_nonneg delay
  · intro due fires
    obtain rfl := Option.some.inj (event.symm.trans fires)
    exact Nat.le_add_right _ _
  · intro w front
    exact ⟨_, event, fun undone => Nat.add_le_add_left (polls undone) _,
      fun done => bound done w front⟩

theorem inv_tick (inv : c.Inv s) (next : c.step s .tick = some t) : c.Inv t := by
  rw [step] at next
  split at next
  · cases next
  · rename_i waits
    obtain rfl := Option.some.inj next
    refine { inv with lastWrite_le := ?_, doneAt_le := ?_, due_ge := ?_, pending := ?_ }
    · exact Nat.le_succ_of_le inv.lastWrite_le
    · exact Nat.le_succ_of_le inv.doneAt_le
    · intro due event
      have now := inv.due_ge due event
      have later : due ≠ s.cycles := fun same => waits (same ▸ event)
      show s.cycles + 1 ≤ due
      omega
    · intro w front
      obtain ⟨due, event, polls, bound⟩ := inv.pending w front
      exact ⟨due, event, fun undone => Nat.le_succ_of_le (polls undone), bound⟩

theorem inv_push {target : Target} (core : c.Core s)
    (known : (c.clusters s.syncGroupMapper target).isSome) :
    c.Inv (c.push s target) := by
  refine inv_eventEnqueue 1 { core with
    fifo := ?_, registered := ?_, stamped := ?_, lastWrite_le := Nat.le_refl _ }
    (fun _ => by decide) (fun _ w _ => Or.inr (Or.inl (Nat.le_refl _)))
  · show s.requested ++ [_] = _ ++ (s.queue ++ [_])
    rw [core.fifo, List.append_assoc]
  · intro w mem
    rcases List.mem_append.mp mem with before | last
    · exact core.registered w before
    · obtain rfl := List.mem_singleton.mp last
      exact known
  · intro w mem
    have past := core.lastWrite_le
    show w.timestamp ≤ s.cycles + c.latency
    rcases List.mem_append.mp mem with before | last
    · have stamp := core.stamped w before
      omega
    · obtain rfl := List.mem_singleton.mp last
      exact Nat.le_of_eq (Nat.add_assoc _ _ _)

theorem inv_write {offset value : Nat} (inv : c.Inv s)
    (known : c.Registered s (.write offset value))
    (next : c.step s (.write offset value) = some t) :
    c.Inv t := by
  obtain rfl := Option.some.inj next
  unfold req
  split
  · exact inv_push inv.toCore rfl
  split
  · rename_i reset
    refine { inv with registered := fun w mem => ?_ }
    rw [known.2 reset w mem]
    rfl
  split
  · exact { inv with registered := fun w mem => isSome_clusters_insert (inv.registered w mem) }
  split
  · rename_i group
    exact inv_push inv.toCore (known.1 group)
  · exact inv

theorem inv_preloadDone (inv : c.Inv s) (next : c.step s .preloadDone = some t) : c.Inv t := by
  obtain rfl := Option.some.inj next
  rcases done : s.hbmPreloadDone with _ | _
  · -- until now nothing has been delivered
    have none : s.delivered = [] := by
      rcases shape : s.delivered with _ | ⟨d, rest⟩
      · rfl
      · have set := (inv.delivered d (shape ▸ List.mem_cons_self)).2.1
        exact absurd (done.symm.trans set) (by decide)
    have shape : hbmPreloadDoneHandler s =
        { s with hbmPreloadDone := true, doneAt := s.cycles } := by
      unfold hbmPreloadDoneHandler
      rw [done]
      rfl
    rw [shape]
    refine { inv with delivered := ?_, doneAt_le := Nat.le_refl _, pending := ?_ }
    · intro d mem
      change d ∈ s.delivered at mem
      rw [none] at mem
      cases mem
    · intro w front
      obtain ⟨due, event, polls, -⟩ := inv.pending w front
      exact ⟨due, event, fun undone => Bool.noConfusion undone, fun _ => Or.inl (polls done)⟩
  · have shape : hbmPreloadDoneHandler s = s := by
      unfold hbmPreloadDoneHandler
      rw [done, if_pos rfl, ← done]
    rw [shape]
    exact inv

/-- The first wakeup is taken off the queue and delivered. -/
theorem core_deliver {payload : WakeupPayload} {rest : List WakeupPayload} {clusters : List Nat}
    (core : c.Core s) (shape : s.queue = payload :: rest) (done : s.hbmPreloadDone = true)
    (expired : payload.timestamp ≤ s.cycles)
    (known : c.clusters s.syncGroupMapper payload.target = some clusters) :
    c.Core { s with
      queue := rest
      delivered := s.delivered ++ [⟨payload, s.cycles, clusters, s.syncGroupMapper⟩] } := by
  have inside : ∀ w ∈ rest, w ∈ s.queue := fun w mem => shape ▸ List.mem_cons_of_mem _ mem
  refine { core with
    fifo := ?_, delivered := ?_, registered := fun w mem => core.registered w (inside w mem),
    stamped := fun w mem => core.stamped w (inside w mem) }
  · show s.requested = (s.delivered ++ [_]).map Delivery.payload ++ rest
    rw [core.fifo, shape, List.map_append, List.append_assoc]
    rfl
  · intro d mem
    rcases List.mem_append.mp mem with before | last
    · exact core.delivered d before
    · obtain rfl := List.mem_singleton.mp last
      exact ⟨expired, done, core.doneAt_le, known⟩

/-- An event that is moved to the front of the queue. -/
theorem inv_rearm {w : WakeupPayload} {rest : List WakeupPayload} (core : c.Core s)
    (done : s.hbmPreloadDone = true) (shape : s.queue = w :: rest)
    (later : s.cycles ≤ w.timestamp) :
    c.Inv (s.eventEnqueue ((w.timestamp : Int) - s.cycles)) := by
  rw [← Int.ofNat_sub later]
  refine inv_eventEnqueue _ core (fun undone => ?_) fun _ w' front => ?_
  · exact absurd (done.symm.trans undone) (by decide)
  · rw [shape] at front
    obtain rfl : w = w' := Option.some.inj front
    exact Or.inr (Or.inr (Nat.le_of_eq (Nat.add_sub_cancel' later)))

/-- Nothing is queued, and the event has fired. -/
theorem inv_idle (core : c.Core s) (idle : s.wakeupEvent = none) (empty : s.queue = []) : c.Inv s :=
  { core with
    due_ge := fun due fires => absurd (idle.symm.trans fires) (by simp)
    pending := fun w front => absurd front (by rw [empty]; simp) }

/-- A handler call that is timely keeps the invariant; the event it was called by is gone. -/
theorem inv_handler (core : c.Core s) (idle : s.wakeupEvent = none) (timely : Timely s .fire)
    (next : c.wakeupEventHandler s = some t) : c.Inv t := by
  unfold wakeupEventHandler at next
  split at next
  · rename_i done
    split at next
    · rename_i empty
      obtain rfl := Option.some.inj next
      exact inv_idle core idle empty
    · rename_i payload rest shape
      split at next
      · rename_i expired
        split at next
        · cases next
        · rename_i clusters known
          have delivered := core_deliver core shape done expired known
          dsimp only at next
          split at next
          · obtain rfl := Option.some.inj next
            exact inv_idle delivered idle rfl
          · rename_i w rest
            -- the next wakeup has not expired yet
            have later : s.cycles ≤ w.timestamp := by
              refine timely rfl done payload ?_ w ?_ expired
              · rw [shape]
                rfl
              · rw [shape]
                rfl
            obtain rfl := Option.some.inj next
            exact inv_rearm delivered done rfl later
      · rename_i waits
        obtain rfl := Option.some.inj next
        exact inv_rearm core done shape (Nat.le_of_lt (Nat.not_le.mp waits))
  · rename_i undone
    obtain rfl := Option.some.inj next
    exact inv_eventEnqueue 300 core (fun _ => Nat.le_refl _)
      fun done => absurd done undone

theorem inv_step {e : Event} (inv : c.Inv s) (known : c.Registered s e) (timely : Timely s e)
    (next : c.step s e = some t) : c.Inv t := by
  cases e with
  | tick => exact inv_tick inv next
  | write offset value => exact inv_write inv known next
  | preloadDone => exact inv_preloadDone inv next
  | fire =>
      rw [step] at next
      split at next
      · have core : c.Core { s with wakeupEvent := none } := { inv.toCore with }
        exact inv_handler core rfl timely next
      · cases next

/-- In every run whose steps are timely, every state is sound. -/
theorem wakeups_sound (c : CtrlRegisters) {es : List Event} {s : State} (run : c.Run Timely es s) :
    c.Sound s :=
  (History.invariant c.Inv inv_init
    (fun _ _ _ _ inv ok next => inv_step inv ok.1 ok.2 next) run).sound

/-- The clock or the event can always go on. -/
theorem exists_step (inv : c.Inv s) :
    (∃ t, c.step s .tick = some t) ∨ ∃ t, c.step s .fire = some t := by
  rcases Decidable.em (s.wakeupEvent = some s.cycles) with due | early
  · refine Or.inr ?_
    rw [step, if_pos due]
    unfold wakeupEventHandler
    split
    · split
      · exact ⟨_, rfl⟩
      · rename_i payload rest shape
        split
        · split
          · rename_i unknown
            have known := inv.registered payload (shape ▸ List.mem_cons_self)
            rw [unknown] at known
            cases known
          · dsimp only
            split
            · exact ⟨_, rfl⟩
            · exact ⟨_, rfl⟩
        · exact ⟨_, rfl⟩
    · exact ⟨_, rfl⟩
  · exact Or.inl ⟨_, if_neg early⟩

/-- A handler call that is not timely enqueues the event with a negative delay. -/
theorem negative_delay {payload next : WakeupPayload} {rest : List WakeupPayload}
    {clusters : List Nat} (done : s.hbmPreloadDone = true)
    (shape : s.queue = payload :: next :: rest) (expired : payload.timestamp ≤ s.cycles)
    (past : next.timestamp < s.cycles)
    (known : c.clusters s.syncGroupMapper payload.target = some clusters) :
    ∃ t, c.wakeupEventHandler s = some t ∧ ∃ delay ∈ t.delays, delay < 0 := by
  unfold wakeupEventHandler
  rw [if_pos done, shape]
  dsimp only
  rw [if_pos expired, known]
  refine ⟨_, rfl, (next.timestamp : Int) - s.cycles, ?_, by omega⟩
  exact List.mem_append.mpr (Or.inr (List.mem_singleton.mpr rfl))

/-- One cluster in each direction, without and with a binary to preload. -/
def oneByOne (hasPreloadBinary : Bool) : CtrlRegisters := ⟨1, 1, hasPreloadBinary⟩

/-- Cluster 0 is registered for group 5; all clusters are woken up, and then the group. -/
theorem wakeups_sound_oneByOne :
    ∃ s, (oneByOne false).Sound s ∧
      s.delivered = [⟨⟨.global, 2⟩, 2, [0], [(5, 0)]⟩, ⟨⟨.group 5, 3⟩, 3, [0], [(5, 0)]⟩] := by
  have run : (oneByOne false).Run Timely
      ([] ++ [.write 28 5, .write 4 1, .tick, .fire, .write 36 5, .tick, .fire, .tick, .fire]) _ :=
    History.execute .nil rfl
  exact ⟨_, wakeups_sound (oneByOne false) run, by decide⟩

/-- The clock goes on while the event is not due. -/
theorem run_ticks {es : List Event} (run : c.Run (fun _ _ => True) es s) (n : Nat)
    (early : ∀ due, s.wakeupEvent = some due → s.cycles + n ≤ due) :
    c.Run (fun _ _ => True) (es ++ List.replicate n .tick) { s with cycles := s.cycles + n } := by
  induction n with
  | zero =>
      rw [List.replicate_zero, List.append_nil]
      exact run
  | succ n ih =>
      have waits : ¬ s.wakeupEvent = some (s.cycles + n) := by
        intro event
        have late := early _ event
        omega
      rw [List.replicate_succ', ← List.append_assoc]
      exact (ih fun due event => Nat.le_of_succ_le (early due event)).snoc ⟨trivial, trivial⟩
        (if_neg waits)

/-- Two wakeups requested in cycle 0, while the preload is polled. -/
def polling (cycles : Nat) (hbmPreloadDone : Bool) (doneAt : Nat) : State where
  cycles := cycles
  hbmPreloadDone := hbmPreloadDone
  syncGroupMapper := []
  queue := [⟨.global, 2⟩, ⟨.global, 2⟩]
  wakeupEvent := some 301
  requested := [⟨.global, 2⟩, ⟨.global, 2⟩]
  delivered := []
  delays := [1, 1, 300]
  lastWrite := 0
  doneAt := doneAt

/-- The preload is done in cycle 200; in cycle 301 the handler delivers the first wakeup, and the
second one has expired long ago. -/
theorem late_poll_negative :
    ∃ es s, (oneByOne true).Run (fun _ _ => True) es s ∧ -299 ∈ s.delays ∧
      ¬ (oneByOne true).Sound s := by
  have start : (oneByOne true).Run (fun _ _ => True)
      ([] ++ [.write 4 1, .write 4 1, .tick, .fire]) (polling 1 false 0) :=
    History.execute .nil (by decide)
  have polled := run_ticks start 199 (by decide)
  have done : (oneByOne true).Run (fun _ _ => True) _ (polling 200 true 200) :=
    polled.snoc (e := .preloadDone) (by decide) rfl
  have late := run_ticks done 101 (by decide)
  have fired := late.snoc (e := .fire) (by decide) rfl
  refine ⟨_, _, fired, by decide, fun sound => ?_⟩
  exact absurd (sound.delays (-299) (by decide)) (by decide)

end CtrlRegisters

end SoftHier.Ctrl
