import SoftHier.Lib.Busy
import SoftHier.Lib.Word
import Mathlib.Data.Fintype.Basic
import Mathlib.Order.Lattice.Nat

/-!
# Runtime accounting of the vector units

`timing_insn` delays a vector instruction until its unit and its operands are ready, books the unit
and the destination for its latency, and adds to `runtime` what its interval adds to the busy time.
It compares the interval with `last_stamp`, the end of the interval before.

* `step_accounted_iff`: one instruction is accounted for exactly if the load-store unit is not
  booked beyond the latency, and the interval adds nothing between `last_stamp` and the latest end.
* `timing_iff`: the same for whole runs.
-/

namespace SoftHier.Spatz

open Finset

/-! ## The code -/

/-- The arguments of `timing_insn`; a negative register is none. -/
structure TimedInsn where
  unitId : Fin 3
  vd : Int
  vs1 : Int
  vs2 : Int
  latency : Nat
  timestamp : Nat
  word : latency < 2 ^ 64

/-- The scoreboards and counters of the class `Spatz`. -/
structure Timing where
  unitScoreBoard : Fin 3 → Nat
  regScoreBoard : Nat → Nat
  lastStamp : Nat
  runtime : Nat

namespace Timing

/-- The constructor. -/
def init : Timing := ⟨fun _ => 0, fun _ => 0, 0, 0⟩

variable (s : Timing) (i : TimedInsn)

/-- `(board > meet_point) ? board : meet_point` -/
def later (board meetPoint : Nat) : Nat := if board > meetPoint then board else meetPoint

/-- `meet_point` -/
def meetPoint : Nat :=
  let meetPoint := later (s.unitScoreBoard i.unitId) i.timestamp
  let meetPoint := if i.vs1 ≥ 0 then later (s.regScoreBoard i.vs1.toNat) meetPoint else meetPoint
  if i.vs2 ≥ 0 then later (s.regScoreBoard i.vs2.toNat) meetPoint else meetPoint

/-- The latency, of which the load-store unit is given what is left behind its booking. -/
def shortLatency : Nat :=
  if i.unitId = 2 ∧ s.unitScoreBoard 2 > i.timestamp then
    sub64 i.latency (sub64 (s.unitScoreBoard 2) i.timestamp)
  else i.latency

/-- `future_point` -/
def futurePoint : Nat := u64 (s.meetPoint i + s.shortLatency i)

/-- `add_runtime` -/
def addRuntime : Nat :=
  if s.lastStamp ≥ s.futurePoint i then 0
  else if s.lastStamp ≥ s.meetPoint i then sub64 (s.futurePoint i) s.lastStamp
  else sub64 (s.futurePoint i) (s.meetPoint i)

/-- `Spatz::timing_insn`: the new state and the delay that it returns. -/
def timingInsn : Timing × Nat :=
  ({ unitScoreBoard := Function.update s.unitScoreBoard i.unitId (s.futurePoint i)
     regScoreBoard := if i.vd ≥ 0 then Function.update s.regScoreBoard i.vd.toNat (s.futurePoint i)
       else s.regScoreBoard
     lastStamp := s.futurePoint i
     runtime := u64 (s.runtime + s.addRuntime i) },
    sub64 (s.meetPoint i) i.timestamp)

/-! ## Bookings -/

/-- The end of the latest booking. -/
def latest : Nat := univ.sup s.unitScoreBoard

/-- When the register is ready. -/
def operandAt (v : Int) : Nat := if v ≥ 0 then s.regScoreBoard v.toNat else 0

/-- When the unit and the operands are ready. -/
def readyAt : Nat :=
  max (max (max i.timestamp (s.unitScoreBoard i.unitId)) (s.operandAt i.vs1)) (s.operandAt i.vs2)

/-- How long the instruction takes from then on. -/
def busyFor : Nat :=
  if i.unitId = 2 then i.latency - (s.unitScoreBoard 2 - i.timestamp) else i.latency

/-- The end of the interval is a word. -/
def Fits : Prop := s.readyAt i + s.busyFor i < 2 ^ 64

instance : Decidable (s.Fits i) := inferInstanceAs (Decidable (_ < _))

/-- The load-store unit is not booked for longer than the latency; and the latest end is not behind
both `last_stamp` and the begin of the interval, or the end of the interval is not. -/
structure Conforms : Prop where
  enough : i.unitId = 2 → s.unitScoreBoard 2 ≤ i.timestamp + i.latency
  front : s.latest ≤ max s.lastStamp (s.readyAt i) ∨
    s.readyAt i + s.busyFor i ≤ max s.lastStamp (s.readyAt i)

variable {s i}

theorem later_eq (board meetPoint : Nat) : later board meetPoint = max meetPoint board := by
  unfold later
  split
  · rw [max_eq_right (by omega)]
  · rw [max_eq_left (by omega)]

theorem meetPoint_eq : s.meetPoint i = s.readyAt i := by
  unfold meetPoint readyAt operandAt
  simp only [later_eq]
  split <;> split <;> simp

theorem timestamp_le : i.timestamp ≤ s.readyAt i :=
  ((le_max_left _ _).trans (le_max_left _ _)).trans (le_max_left _ _)

theorem unitScoreBoard_le : s.unitScoreBoard i.unitId ≤ s.readyAt i :=
  ((le_max_right _ _).trans (le_max_left _ _)).trans (le_max_left _ _)

theorem le_latest (u : Fin 3) : s.unitScoreBoard u ≤ s.latest := le_sup (mem_univ u)

/-- An instruction waits for nothing behind the latest end. -/
theorem readyAt_le (regs : ∀ r, s.regScoreBoard r ≤ s.latest) :
    s.readyAt i ≤ max i.timestamp s.latest := by
  have operand : ∀ v, s.operandAt v ≤ s.latest := by
    intro v
    unfold operandAt
    split
    · exact regs _
    · exact Nat.zero_le _
  refine max_le (max_le (max_le (le_max_left _ _) ?_) ?_) ?_
  · exact le_max_of_le_right (le_latest _)
  · exact le_max_of_le_right (operand _)
  · exact le_max_of_le_right (operand _)

theorem shortLatency_eq (fits : s.Fits i)
    (enough : i.unitId = 2 → s.unitScoreBoard 2 ≤ i.timestamp + i.latency) :
    s.shortLatency i = s.busyFor i := by
  have word := i.word
  have above := unitScoreBoard_le (s := s) (i := i)
  unfold Fits at fits
  unfold shortLatency busyFor
  split
  · rename_i booked
    have := enough booked.1
    rw [booked.1] at above
    rw [if_pos booked.1, sub64_of_le booked.2.le (by omega), sub64_of_le (by omega) word]
  · rename_i free
    split
    · rename_i vlsu
      have : ¬ s.unitScoreBoard 2 > i.timestamp := fun behind => free ⟨vlsu, behind⟩
      omega
    · rfl

theorem futurePoint_eq (fits : s.Fits i)
    (enough : i.unitId = 2 → s.unitScoreBoard 2 ≤ i.timestamp + i.latency) :
    s.futurePoint i = s.readyAt i + s.busyFor i := by
  unfold futurePoint
  rw [meetPoint_eq, shortLatency_eq fits enough]
  exact u64_of_lt fits

/-- The part of the interval behind `last_stamp`. -/
theorem addRuntime_eq (fits : s.Fits i)
    (enough : i.unitId = 2 → s.unitScoreBoard 2 ≤ i.timestamp + i.latency) :
    s.addRuntime i = s.readyAt i + s.busyFor i - max s.lastStamp (s.readyAt i) := by
  unfold addRuntime
  rw [meetPoint_eq, futurePoint_eq fits enough]
  unfold Fits at fits
  split
  · omega
  · split
    · rw [sub64_of_le (by omega) fits, max_eq_left (by omega)]
    · rw [sub64_of_le (by omega) fits, max_eq_right (by omega)]

/-- A booking that does not end before the one that it replaces. -/
theorem latest_timingInsn (later : s.unitScoreBoard i.unitId ≤ s.futurePoint i) :
    (s.timingInsn i).1.latest = max s.latest (s.futurePoint i) := by
  have new : ∀ u, (s.timingInsn i).1.unitScoreBoard u =
      if u = i.unitId then s.futurePoint i else s.unitScoreBoard u := fun u =>
    Function.update_apply _ _ _ _
  apply Nat.le_antisymm
  · apply Finset.sup_le
    intro u _
    rw [new]
    split
    · exact le_max_right _ _
    · exact le_max_of_le_left (le_latest u)
  · apply max_le
    · apply Finset.sup_le
      intro u _
      refine le_trans ?_ (le_latest u)
      rw [new]
      split
      · rename_i same
        rwa [same]
      · exact le_rfl
    · have booked := le_latest (s := (s.timingInsn i).1) i.unitId
      rwa [new, if_pos rfl] at booked

end Timing

/-! ## Accounting -/

/-- A state with the busy cycles so far, and the time of the last call. -/
structure Account where
  spatz : Timing
  busy : Finset Nat
  clock : Nat

namespace Account

variable (a : Account) (i : TimedInsn) (since : Nat)

def start : Account := ⟨.init, ∅, since⟩

/-- A call adds the interval from `meet_point` to `future_point`. -/
def next : Account where
  spatz := (a.spatz.timingInsn i).1
  busy := a.busy ∪ Ico (a.spatz.meetPoint i) (a.spatz.futurePoint i)
  clock := i.timestamp

/-- What a call has to do, of a run that begins at `since`: no subtraction underflows, no unit is
available earlier than before, and `runtime` is the length of the union of all intervals, which is
at most the time that has passed. -/
structure Accounted : Prop where
  delay_sub : i.timestamp ≤ a.spatz.meetPoint i
  latency_sub : i.unitId = 2 → i.timestamp < a.spatz.unitScoreBoard 2 →
    a.spatz.unitScoreBoard 2 - i.timestamp ≤ i.latency
  runtime_sub : a.spatz.lastStamp < a.spatz.futurePoint i →
    a.spatz.lastStamp < a.spatz.meetPoint i → a.spatz.meetPoint i ≤ a.spatz.futurePoint i
  available : ∀ u, a.spatz.unitScoreBoard u ≤ (a.next i).spatz.unitScoreBoard u
  runtime : (a.next i).spatz.runtime = (a.next i).busy.card
  elapsed : (a.next i).spatz.runtime ≤ (a.next i).spatz.latest - since

/-- The invariant of a run whose calls conform. -/
structure Inv : Prop where
  runtime : a.spatz.runtime = a.busy.card
  frontier : Frontier a.busy since a.clock a.spatz.latest
  begun : since ≤ a.clock
  regs : ∀ r, a.spatz.regScoreBoard r ≤ a.spatz.latest
  last : a.spatz.lastStamp ≤ a.spatz.latest
  word : a.spatz.latest < 2 ^ 64

variable {a i since}

theorem inv_start : Inv (start since) since where
  runtime := rfl
  frontier := Frontier.empty
  begun := le_rfl
  regs := fun _ => Nat.zero_le _
  last := Nat.zero_le _
  word := by simp [start, Timing.latest, Timing.init]

section

variable (fits : a.spatz.Fits i)
  (enough : i.unitId = 2 → a.spatz.unitScoreBoard 2 ≤ i.timestamp + i.latency)
include fits enough

/-- The latest end behind a call. -/
theorem latest_next : (a.next i).spatz.latest =
    max a.spatz.latest (a.spatz.readyAt i + a.spatz.busyFor i) := by
  have future := Timing.futurePoint_eq fits enough
  have later : a.spatz.unitScoreBoard i.unitId ≤ a.spatz.futurePoint i := by
    rw [future]
    exact Timing.unitScoreBoard_le.trans (Nat.le_add_right _ _)
  rw [← future]
  exact Timing.latest_timingInsn later

theorem available_next (u : Fin 3) :
    a.spatz.unitScoreBoard u ≤ (a.next i).spatz.unitScoreBoard u := by
  have new : (a.next i).spatz.unitScoreBoard u =
      if u = i.unitId then a.spatz.futurePoint i else a.spatz.unitScoreBoard u :=
    Function.update_apply _ _ _ _
  rw [new, Timing.futurePoint_eq fits enough]
  split
  · rename_i same
    rw [same]
    exact Timing.unitScoreBoard_le.trans (Nat.le_add_right _ _)
  · exact le_rfl

end

namespace Inv

variable (inv : Inv a since) (late : a.clock ≤ i.timestamp) (fits : a.spatz.Fits i)
  (enough : i.unitId = 2 → a.spatz.unitScoreBoard 2 ≤ i.timestamp + i.latency)
include inv late fits enough

theorem frontier_next : Frontier (a.next i).busy since (a.next i).clock
    (a.next i).spatz.latest := by
  rw [latest_next fits enough]
  unfold next
  rw [Timing.meetPoint_eq, Timing.futurePoint_eq fits enough]
  exact inv.frontier.union (inv.begun.trans late) late Timing.timestamp_le
    (Timing.readyAt_le inv.regs)

/-- The busy cycles grow by the part of the interval behind the latest end. -/
theorem card_next : (a.next i).busy.card = a.busy.card +
    (a.spatz.readyAt i + a.spatz.busyFor i - max (a.spatz.readyAt i) a.spatz.latest) := by
  unfold next
  rw [Timing.meetPoint_eq, Timing.futurePoint_eq fits enough]
  exact inv.frontier.card_union (late.trans Timing.timestamp_le)

omit late in
theorem word_next : (a.next i).spatz.latest < 2 ^ 64 := by
  rw [latest_next fits enough]
  exact max_lt inv.word fits

omit late in
/-- `runtime` counts the part behind `last_stamp`. -/
theorem runtime_next : (a.next i).spatz.runtime = u64 (a.busy.card +
    (a.spatz.readyAt i + a.spatz.busyFor i - max a.spatz.lastStamp (a.spatz.readyAt i))) := by
  rw [← inv.runtime, ← Timing.addRuntime_eq fits enough]
  rfl

/-- `runtime` is the length of the union exactly if both parts are the same. -/
theorem runtime_iff : (a.next i).spatz.runtime = (a.next i).busy.card ↔
    a.spatz.latest ≤ max a.spatz.lastStamp (a.spatz.readyAt i) ∨
      a.spatz.readyAt i + a.spatz.busyFor i ≤ max a.spatz.lastStamp (a.spatz.readyAt i) := by
  have small := (inv.frontier_next late fits enough).card_le
  have word := inv.word_next fits enough
  have card := inv.card_next late fits enough
  have last := inv.last
  rw [inv.runtime_next fits enough, card]
  rw [card] at small
  unfold u64
  unfold Timing.Fits at fits
  omega

/-- A call that conforms keeps the invariant. -/
theorem next (counted : (a.next i).spatz.runtime = (a.next i).busy.card) :
    Inv (a.next i) since where
  runtime := counted
  frontier := inv.frontier_next late fits enough
  begun := inv.begun.trans late
  regs := by
    intro r
    rw [latest_next fits enough, ← Timing.futurePoint_eq fits enough]
    have new : (a.next i).spatz.regScoreBoard = if i.vd ≥ 0 then
      Function.update a.spatz.regScoreBoard i.vd.toNat (a.spatz.futurePoint i)
        else a.spatz.regScoreBoard := rfl
    rw [new]
    split
    · rw [Function.update_apply]
      split
      · exact le_max_right _ _
      · exact le_max_of_le_left (inv.regs r)
    · exact le_max_of_le_left (inv.regs r)
  last := by
    rw [latest_next fits enough, ← Timing.futurePoint_eq fits enough]
    exact le_max_right _ _
  word := inv.word_next fits enough

end Inv

/-- A call is accounted for exactly if it conforms. -/
theorem step_accounted_iff (inv : Inv a since) (late : a.clock ≤ i.timestamp)
    (fits : a.spatz.Fits i) :
    Accounted a i since ↔ a.spatz.Conforms i := by
  constructor
  · intro accounted
    have enough : i.unitId = 2 → a.spatz.unitScoreBoard 2 ≤ i.timestamp + i.latency := by
      intro vlsu
      rcases Nat.lt_or_ge i.timestamp (a.spatz.unitScoreBoard 2) with booked | free
      · have := accounted.latency_sub vlsu booked
        omega
      · omega
    exact ⟨enough, (inv.runtime_iff late fits enough).mp accounted.runtime⟩
  · rintro ⟨enough, front⟩
    have counted := (inv.runtime_iff late fits enough).mpr front
    refine ⟨?_, ?_, ?_, available_next fits enough, counted, ?_⟩
    · rw [Timing.meetPoint_eq]
      exact Timing.timestamp_le
    · intro vlsu booked
      have := enough vlsu
      omega
    · intro _ _
      rw [Timing.meetPoint_eq, Timing.futurePoint_eq fits enough]
      exact Nat.le_add_right _ _
    · rw [counted]
      exact (inv.frontier_next late fits enough).card_le

end Account

/-- The runs from the constructor, with timestamps from `since` on that do not decrease and ends
that fit a word: every call is accounted for exactly if every call conforms. -/
theorem timing_iff (since : Nat) (insns : List TimedInsn) (begun : ∀ i ∈ insns, since ≤ i.timestamp)
    (ordered : insns.Pairwise fun i j => i.timestamp ≤ j.timestamp)
    (fits : EveryStep Account.next (fun a i => a.spatz.Fits i) (.start since) insns) :
    EveryStep Account.next (fun a i => a.Accounted i since) (.start since) insns ↔
      EveryStep Account.next (fun a i => a.spatz.Conforms i) (.start since) insns := by
  have late : ∀ (a : Account) (insns : List TimedInsn), (∀ i ∈ insns, a.clock ≤ i.timestamp) →
      (insns.Pairwise fun i j => i.timestamp ≤ j.timestamp) →
      EveryStep Account.next (fun a i => a.clock ≤ i.timestamp) a insns := by
    intro a insns
    induction insns generalizing a with
    | nil => exact fun _ _ => trivial
    | cons i rest ih =>
      intro above sorted
      obtain ⟨first, sorted⟩ := List.pairwise_cons.mp sorted
      exact ⟨above i List.mem_cons_self, ih (a.next i) first sorted⟩
  apply EveryStep.iff_of_inv (fun a => Account.Inv a since) _ _ Account.inv_start
    ((late (.start since) insns begun ordered).and fits)
  · rintro a i inv ⟨clock, fits⟩
    exact Account.step_accounted_iff inv clock fits
  · rintro a i inv ⟨clock, fits⟩ conforms
    exact inv.next clock fits conforms.enough
      ((inv.runtime_iff clock fits conforms.enough).mpr conforms.front)

/-- An instruction of ten cycles and, on another unit, one of two in the meantime: both end in
order. -/
theorem timing_overlap :
    EveryStep Account.next (fun a i => a.Accounted i 0) (.start 0)
      [⟨1, 16, -1, -1, 2, 0, by decide⟩, ⟨0, 8, -1, -1, 10, 1, by decide⟩] := by
  refine (timing_iff 0 _ ?_ ?_ ?_).mpr ?_
  · decide
  · decide
  · exact ⟨by decide, by decide, trivial⟩
  · exact ⟨⟨by decide, by decide⟩, ⟨by decide, by decide⟩, trivial⟩

/-- A short instruction within a long one puts `last_stamp` back, and the cycles from 4 to 7 are
counted twice; a load that is booked for longer than the next one takes lets the latency
underflow. -/
theorem timing_nested :
    ¬ EveryStep Account.next (fun a i => a.Accounted i 0) (.start 0)
      [⟨0, 8, -1, -1, 10, 0, by decide⟩, ⟨1, 16, -1, -1, 2, 1, by decide⟩,
        ⟨1, 24, -1, -1, 3, 4, by decide⟩] ∧
    ¬ EveryStep Account.next (fun a i => a.Accounted i 0) (.start 0)
      [⟨2, 8, -1, -1, 5, 0, by decide⟩, ⟨2, 16, -1, -1, 2, 1, by decide⟩] := by
  constructor
  · rintro ⟨-, -, third, -⟩
    exact absurd third.runtime (by decide)
  · rintro ⟨-, second, -⟩
    exact absurd second.latency_sub (by decide)

end SoftHier.Spatz
