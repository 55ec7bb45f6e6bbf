import SoftHier.Lib.Memory

/-!
# Concurrent operations on a memory

Operations that read a list of places and write one, in any order that a relation allows.  What an
operation leaves does not depend on the order where no operation that may come before it writes
what it reads, and none that may come after it writes the place.

* `MemOp`, `runTasks`: operations, and a sequence of them.
* `Conflict`: two operations of which one writes what the other one uses.
* `Schedule`: the sequences of given operations that keep an order.
* `Schedule.runTasks_at`, `Schedule.runTasks_kept`: what a place holds after a schedule.
* `Schedule.split`: the tasks before a given one.
-/

namespace SoftHier

variable {α β τ : Type*}

/-- An operation: the contents it writes depend on those it reads. -/
structure MemOp (α β : Type*) where
  reads : List α
  writes : List α
  value : List β → List β
  length_value : ∀ xs, xs.length = reads.length → (value xs).length = writes.length

namespace MemOp

/-- Whether one operation writes what the other one uses. -/
def Conflict (p q : MemOp α β) : Prop :=
  (∃ a ∈ p.writes, a ∈ q.reads ∨ a ∈ q.writes) ∨ ∃ a ∈ q.writes, a ∈ p.reads

theorem Conflict.symm {p q : MemOp α β} (conflict : p.Conflict q) : q.Conflict p := by
  rcases conflict with ⟨a, written, read | both⟩ | ⟨a, written, read⟩
  · exact .inr ⟨a, written, read⟩
  · exact .inl ⟨a, both, .inr written⟩
  · exact .inl ⟨a, written, .inl read⟩

variable [DecidableEq α]

/-- The memory after the operation. -/
def run (m : α → β) (p : MemOp α β) : α → β := stores m p.writes (p.value (loads m p.reads))

theorem run_of_notMem {p : MemOp α β} {m : α → β} {a : α} (other : a ∉ p.writes) :
    p.run m a = m a :=
  stores_of_notMem other

/-- What it writes depends on what it reads only. -/
theorem run_congr {p : MemOp α β} {m m' : α → β} {a : α} (here : a ∈ p.writes)
    (same : ∀ r ∈ p.reads, m r = m' r) : p.run m a = p.run m' a := by
  have read : loads m p.reads = loads m' p.reads := List.map_congr_left same
  have len : p.writes.length = (p.value (loads m' p.reads)).length :=
    (p.length_value _ length_loads).symm
  unfold run
  rw [read]
  exact stores_congr here len

end MemOp

variable [DecidableEq α]

/-- The operations of a list of tasks, one after the other. -/
def runTasks (op : τ → MemOp α β) (ts : List τ) (m : α → β) : α → β :=
  ts.foldl (fun m t => (op t).run m) m

section

variable {op : τ → MemOp α β} {ts us : List τ} {m : α → β} {a : α}

theorem runTasks_append : runTasks op (ts ++ us) m = runTasks op us (runTasks op ts m) :=
  List.foldl_append

theorem runTasks_of_notMem (other : ∀ t ∈ ts, a ∉ (op t).writes) : runTasks op ts m a = m a := by
  induction ts generalizing m with
  | nil => rfl
  | cons t ts ih =>
    have rest : runTasks op ts ((op t).run m) a = (op t).run m a :=
      ih fun s mem => other s (List.mem_cons_of_mem t mem)
    exact rest.trans (MemOp.run_of_notMem (other t List.mem_cons_self))

end

/-! ## Schedules -/

/-- The tasks of a set, each once, where no task comes before one it has to come after. -/
structure Schedule (Task : τ → Prop) (After : τ → τ → Prop) (ts : List τ) : Prop where
  nodup : ts.Nodup
  mem_iff : ∀ t, t ∈ ts ↔ Task t
  ordered : ts.Pairwise fun s t => ¬ After s t

namespace Schedule

variable {Task : τ → Prop} {After : τ → τ → Prop} {op : τ → MemOp α β} {ts : List τ} {m : α → β}
  {a : α} {t : τ}

/-- A place that no task writes. -/
theorem runTasks_kept (schedule : Schedule Task After ts) (kept : ∀ s, Task s → a ∉ (op s).writes) :
    runTasks op ts m a = m a :=
  runTasks_of_notMem fun s mem => kept s ((schedule.mem_iff s).mp mem)

/-- The tasks before a given one, among them all that it has to come after. -/
theorem split (op : τ → MemOp α β) (m : α → β) (schedule : Schedule Task After ts) (task : Task t) :
    ∃ before, Schedule (· ∈ before) After before ∧ (∀ s ∈ before, Task s ∧ s ≠ t ∧ ¬ After s t) ∧
      (∀ s, Task s → s ≠ t → After t s → s ∈ before) ∧
      ∀ a ∈ (op t).writes, (∀ s, Task s → s ≠ t → ¬ After t s → a ∉ (op s).writes) →
        runTasks op ts m a = (op t).run (runTasks op before m) a := by
  obtain ⟨before, after, rfl⟩ := List.append_of_mem ((schedule.mem_iff t).mpr task)
  obtain ⟨front, tail, cross⟩ := List.pairwise_append.mp schedule.ordered
  obtain ⟨nodup', nodup, apart⟩ := List.nodup_append.mp schedule.nodup
  have isTask : ∀ s ∈ before ++ t :: after, Task s := fun s mem => (schedule.mem_iff s).mp mem
  have later : ∀ s ∈ after, Task s ∧ s ≠ t ∧ ¬ After t s := by
    intro s mem
    refine ⟨isTask s (List.mem_append_right _ (List.mem_cons_of_mem t mem)), ?_,
      (List.pairwise_cons.mp tail).1 s mem⟩
    rintro rfl
    exact (List.nodup_cons.mp nodup).1 mem
  refine ⟨before, ⟨nodup', fun s => Iff.rfl, front⟩,
    fun s mem => ⟨isTask s (List.mem_append_left _ mem), apart s mem t List.mem_cons_self,
      cross s mem t List.mem_cons_self⟩,
    fun s enabled other first => ?_, fun a here writes => ?_⟩
  · rcases List.mem_append.mp ((schedule.mem_iff s).mpr enabled) with mem | mem
    · exact mem
    · rcases List.mem_cons.mp mem with same | mem
      · exact absurd same other
      · exact absurd first (later s mem).2.2
  · have notAfter : ∀ s ∈ after, a ∉ (op s).writes := fun s mem =>
      writes s (later s mem).1 (later s mem).2.1 (later s mem).2.2
    calc runTasks op (before ++ t :: after) m a
      _ = runTasks op after ((op t).run (runTasks op before m)) a := congrFun runTasks_append a
      _ = (op t).run (runTasks op before m) a := runTasks_of_notMem notAfter

/-- A place that a task writes, where what may come before it does not write what it reads. -/
theorem runTasks_at (schedule : Schedule Task After ts) (task : Task t) (here : a ∈ (op t).writes)
    (reads : ∀ s, Task s → s ≠ t → ¬ After s t → ∀ r ∈ (op t).reads, r ∉ (op s).writes)
    (writes : ∀ s, Task s → s ≠ t → ¬ After t s → a ∉ (op s).writes) :
    runTasks op ts m a = (op t).run m a := by
  obtain ⟨before, -, earlier, -, result⟩ := schedule.split op m task
  have kept : ∀ r ∈ (op t).reads, runTasks op before m r = m r := fun r read =>
    runTasks_of_notMem fun s mem =>
      reads s (earlier s mem).1 (earlier s mem).2.1 (earlier s mem).2.2 r read
  exact (result a here writes).trans (MemOp.run_congr here kept)

/-- A place that a task writes, where nothing conflicts with it. -/
theorem runTasks_at_of_free (schedule : Schedule Task After ts) (task : Task t)
    (here : a ∈ (op t).writes) (free : ∀ s, Task s → s ≠ t → ¬ (op t).Conflict (op s)) :
    runTasks op ts m a = (op t).run m a := by
  refine schedule.runTasks_at task here (fun s enabled other _ r read written => ?_)
    fun s enabled other _ written => ?_
  · exact free s enabled other (.inr ⟨r, written, read⟩)
  · exact free s enabled other (.inl ⟨a, here, .inr written⟩)

end Schedule

end SoftHier
