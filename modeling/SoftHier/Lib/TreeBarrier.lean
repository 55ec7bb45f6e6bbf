import SoftHier.Lib.Gate

/-!
# Barriers of two levels

The members of a barrier are the pairs `(x, y)`.  All members of a row `y` meet at the gate of the
row; the leader of the row then arrives at the gate of the column; the leader of the column releases
everybody.  A member waits from its arrival until it has noticed the release.

* `TreeBarrier`: the state, with the number of releases and what each member has noticed.
* `TreeBarrier.Step`: what a member can do.
* `TreeBarrier.Inv`, `TreeBarrier.inv_step`: the invariant.
* `TreeBarrier.Inv.done_le`: no member is done with a round that another one has not arrived at.
* `TreeBarrier.Inv.progress`: somebody can always go on.
-/

namespace SoftHier

variable {ι κ : Type*}

/-- Where a member is. -/
inductive Phase where
  /-- Not arrived. -/
  | idle
  /-- Last of its row, the counter of the row not cleared. -/
  | rowLead
  /-- Last of its row, about to arrive at the gate of the column. -/
  | rowDone
  /-- Leader of the last row, the counter of the column not cleared. -/
  | colLead
  /-- Leader of the last row, about to release everybody. -/
  | colDone
  /-- Arrived, and the release not noticed. -/
  | waiting
  deriving DecidableEq, Repr

/-- The member holds the gate of its row. -/
def Phase.HoldsRow (p : Phase) : Prop := p = .rowLead ∨ p = .rowDone

/-- The member holds the gate of the column. -/
def Phase.HoldsCol (p : Phase) : Prop := p = .colLead ∨ p = .colDone

/-- The state of a barrier: releases so far, and releases noticed by each member. -/
structure TreeBarrier (ι κ : Type*) where
  phase : ι × κ → Phase
  done : ι × κ → Nat
  row : κ → Nat
  col : Nat
  released : Nat

namespace TreeBarrier

variable [Fintype ι] [Fintype κ] [DecidableEq ι] [DecidableEq κ]

/-! ## Steps -/

/-- `c` arrives at the gate of its row. -/
def arrive (b : TreeBarrier ι κ) (c : ι × κ) : TreeBarrier ι κ :=
  { b with
    phase := Function.update b.phase c
      (if b.row c.2 + 1 = Fintype.card ι then .rowLead else .waiting)
    row := Function.update b.row c.2 (b.row c.2 + 1) }

/-- `c` clears the counter of its row. -/
def clearRow (b : TreeBarrier ι κ) (c : ι × κ) : TreeBarrier ι κ :=
  { b with
    phase := Function.update b.phase c .rowDone
    row := Function.update b.row c.2 0 }

/-- `c` arrives at the gate of the column, for its row. -/
def arriveCol (b : TreeBarrier ι κ) (c : ι × κ) : TreeBarrier ι κ :=
  { b with
    phase := Function.update b.phase c
      (if b.col + 1 = Fintype.card κ then .colLead else .waiting)
    col := b.col + 1 }

/-- `c` clears the counter of the column. -/
def clearCol (b : TreeBarrier ι κ) (c : ι × κ) : TreeBarrier ι κ :=
  { b with
    phase := Function.update b.phase c .colDone
    col := 0 }

/-- `c` releases everybody. -/
def release (b : TreeBarrier ι κ) (c : ι × κ) : TreeBarrier ι κ :=
  { b with
    phase := Function.update b.phase c .waiting
    released := b.released + 1 }

/-- `c` notices a release. -/
def wake (b : TreeBarrier ι κ) (c : ι × κ) : TreeBarrier ι κ :=
  { b with
    phase := Function.update b.phase c .idle
    done := Function.update b.done c (b.done c + 1) }

/-- What a member can do. -/
inductive Step : TreeBarrier ι κ → TreeBarrier ι κ → Prop where
  | arrive {b : TreeBarrier ι κ} {c : ι × κ} : b.phase c = .idle → Step b (b.arrive c)
  | clearRow {b : TreeBarrier ι κ} {c : ι × κ} : b.phase c = .rowLead → Step b (b.clearRow c)
  | arriveCol {b : TreeBarrier ι κ} {c : ι × κ} : b.phase c = .rowDone → Step b (b.arriveCol c)
  | clearCol {b : TreeBarrier ι κ} {c : ι × κ} : b.phase c = .colLead → Step b (b.clearCol c)
  | release {b : TreeBarrier ι κ} {c : ι × κ} : b.phase c = .colDone → Step b (b.release c)
  | wake {b : TreeBarrier ι κ} {c : ι × κ} : b.phase c = .waiting → b.done c < b.released →
      Step b (b.wake c)

/-! ## The invariant -/

/-- `c` has arrived in the round that is not released yet. -/
def Arrived (b : TreeBarrier ι κ) (c : ι × κ) : Prop :=
  b.done c = b.released ∧ b.phase c ≠ .idle

/-- Everybody in the row has arrived, and the row has arrived at the gate of the column. -/
def Passed (b : TreeBarrier ι κ) (y : κ) : Prop :=
  ∀ x, b.Arrived (x, y) ∧ ¬ (b.phase (x, y)).HoldsRow

/-- What holds in every state. -/
structure Inv (b : TreeBarrier ι κ) : Prop where
  round : ∀ c, b.done c = b.released ∨ (b.done c + 1 = b.released ∧ b.phase c = .waiting)
  rows : ∀ y, Gate (fun x => b.Arrived (x, y)) (fun x => b.phase (x, y) = .rowLead)
    (fun x => (b.phase (x, y)).HoldsRow) (b.row y)
  cols : Gate b.Passed (fun y => ∃ x, b.phase (x, y) = .colLead)
    (fun y => ∃ x, (b.phase (x, y)).HoldsCol) b.col
  unique : ∀ c d, (b.phase c).HoldsCol → (b.phase d).HoldsCol → c = d
  leader : (∀ y, b.Passed y) → ∃ c, (b.phase c).HoldsCol

section

variable {b : TreeBarrier ι κ} {c : ι × κ}

/-- A property of values that the changed value has as before. -/
theorem update_iff {γ δ : Type*} [DecidableEq γ] {f : γ → δ} {c : γ} {v : δ} (P : δ → Prop)
    (same : P v ↔ P (f c)) (d : γ) : P (Function.update f c v d) ↔ P (f d) := by
  by_cases here : d = c
  · subst here
    rw [Function.update_self]
    exact same
  · rw [Function.update_of_ne here]

omit [DecidableEq ι] [DecidableEq κ] in
theorem Inv.done_of_ne (h : Inv b) (moved : b.phase c ≠ .waiting) : b.done c = b.released :=
  (h.round c).resolve_right fun late => moved late.2

/-- The release and what the members have noticed stay as they are. -/
theorem round_update (h : Inv b) (moved : b.phase c ≠ .waiting) (p : Phase) (d : ι × κ) :
    b.done d = b.released ∨
      (b.done d + 1 = b.released ∧ Function.update b.phase c p d = .waiting) := by
  by_cases same : d = c
  · subst same
    exact Or.inl (h.done_of_ne moved)
  · rw [Function.update_of_ne same]
    exact h.round d

theorem inv_arrive (h : Inv b) (idle : b.phase c = .idle) : Inv (b.arrive c) := by
  obtain ⟨x, y⟩ := c
  have here : b.done (x, y) = b.released := h.done_of_ne (by rw [idle]; exact nofun)
  have new : ¬ b.Arrived (x, y) := fun arrived => arrived.2 idle
  have moves : ∀ d, d ≠ (x, y) → (b.arrive (x, y)).phase d = b.phase d := fun d other =>
    Function.update_of_ne other _ _
  have phase : (b.arrive (x, y)).phase (x, y) =
      if b.row y + 1 = Fintype.card ι then .rowLead else .waiting := Function.update_self _ _ _
  -- the gate of the row
  have arrived : ∀ d, (b.arrive (x, y)).Arrived d ↔ b.Arrived d ∨ d = (x, y) := by
    intro d
    by_cases same : d = (x, y)
    · subst same
      refine iff_of_true ⟨here, ?_⟩ (Or.inr rfl)
      rw [phase]
      split <;> exact nofun
    · unfold Arrived
      rw [moves d same, or_iff_left same]
      exact Iff.rfl
  have leads : ∀ x', (b.arrive (x, y)).phase (x', y) = .rowLead ↔
      x' = x ∧ b.row y + 1 = Fintype.card ι := by
    intro x'
    by_cases same : x' = x
    · subst same
      rw [phase]
      split <;> simp [*]
    · rw [moves (x', y) fun eq => same (Prod.mk.inj eq).1]
      refine iff_of_false (fun lead => ?_) fun both => same both.1
      exact (h.rows y).not_holds new x' (Or.inl lead)
  have holds : ∀ x', ((b.arrive (x, y)).phase (x', y)).HoldsRow ↔
      (b.arrive (x, y)).phase (x', y) = .rowLead := by
    intro x'
    refine or_iff_left_of_imp fun rowDone => ?_
    by_cases same : x' = x
    · subst same
      rw [phase] at rowDone
      split at rowDone <;> cases rowDone
    · rw [moves (x', y) fun eq => same (Prod.mk.inj eq).1] at rowDone
      exact absurd (Or.inr rowDone) ((h.rows y).not_holds new x')
  have members : ∀ x', (b.arrive (x, y)).Arrived (x', y) ↔ b.Arrived (x', y) ∨ x' = x := by
    intro x'
    rw [arrived, Prod.mk.injEq, and_iff_left rfl]
  have other : ∀ x' y', y' ≠ y → (x', y') ≠ (x, y) := fun _ _ diff eq => diff (Prod.mk.inj eq).2
  -- nothing changes at the gate of the column
  have keeps : ∀ (P : Phase → Prop), ¬ P .idle → ¬ P .rowLead → ¬ P .waiting →
      ∀ d, P ((b.arrive (x, y)).phase d) ↔ P (b.phase d) := by
    intro P _ _ _ d
    refine update_iff P ?_ d
    rw [idle]
    split <;> exact iff_of_false ‹_› ‹_›
  have passed : ∀ y', (b.arrive (x, y)).Passed y' ↔ b.Passed y' := by
    intro y'
    by_cases same : y' = y
    · subst same
      refine iff_of_false (fun all => ?_) fun all => new (all x).1
      have last := (h.rows y').last new members fun x' => (all x').1
      exact (all x).2 (Or.inl ((leads x).mpr ⟨rfl, last⟩))
    · refine forall_congr' fun x' => ?_
      rw [arrived, moves _ (other x' y' same), or_iff_left (other x' y' same)]
  have holdsCol := keeps Phase.HoldsCol (by simp [Phase.HoldsCol]) (by simp [Phase.HoldsCol])
    (by simp [Phase.HoldsCol])
  refine ⟨?_, fun y' => ?_, ?_, fun d e hd he => ?_, fun all => ?_⟩
  · exact round_update h (by rw [idle]; exact nofun) _
  · by_cases same : y' = y
    · subst same
      have row : (b.arrive (x, y')).row y' = b.row y' + 1 := Function.update_self _ _ _
      rw [row]
      exact (h.rows y').arrive new members leads holds
    · have row : (b.arrive (x, y)).row y' = b.row y' := Function.update_of_ne same _ _
      rw [row]
      refine (h.rows y').congr (fun x' => ?_) (fun x' => ?_) fun x' => ?_
      · rw [arrived, or_iff_left (other x' y' same)]
      · rw [moves _ (other x' y' same)]
      · rw [moves _ (other x' y' same)]
  · exact h.cols.congr passed
      (fun y' => exists_congr fun x' => keeps (· = .colLead) nofun nofun nofun (x', y'))
      fun y' => exists_congr fun x' => holdsCol _
  · exact h.unique d e ((holdsCol d).mp hd) ((holdsCol e).mp he)
  · exact absurd (((passed y).mp (all y)) x).1 new

theorem inv_clearRow (h : Inv b) (lead : b.phase c = .rowLead) : Inv (b.clearRow c) := by
  obtain ⟨x, y⟩ := c
  have keeps : ∀ (P : Phase → Prop), (P .rowDone ↔ P .rowLead) →
      ∀ d, P ((b.clearRow (x, y)).phase d) ↔ P (b.phase d) := fun P same =>
    update_iff P (by rw [lead]; exact same)
  have holdsRow : ∀ d, ((b.clearRow (x, y)).phase d).HoldsRow ↔ (b.phase d).HoldsRow :=
    keeps Phase.HoldsRow (iff_of_true (Or.inr rfl) (Or.inl rfl))
  have holdsCol : ∀ d, ((b.clearRow (x, y)).phase d).HoldsCol ↔ (b.phase d).HoldsCol :=
    keeps Phase.HoldsCol (by simp [Phase.HoldsCol])
  have arrived : ∀ d, (b.clearRow (x, y)).Arrived d ↔ b.Arrived d := fun d =>
    and_congr_right fun _ => keeps (· ≠ .idle) (iff_of_true nofun nofun) d
  have passed : ∀ y', (b.clearRow (x, y)).Passed y' ↔ b.Passed y' := fun y' =>
    forall_congr' fun x' => and_congr (arrived _) (not_congr (holdsRow _))
  refine ⟨?_, fun y' => ?_, ?_, fun d e hd he => ?_, fun all => ?_⟩
  · exact round_update h (by rw [lead]; exact nofun) _
  · by_cases same : y' = y
    · subst same
      have row : (b.clearRow (x, y')).row y' = 0 := Function.update_self _ _ _
      rw [row]
      refine (h.rows y').clear lead (fun x' => arrived _) (fun x' leads => ?_) fun x' => holdsRow _
      by_cases same : x' = x
      · subst same
        have phase : (b.clearRow (x', y')).phase (x', y') = .rowDone := Function.update_self _ _ _
        rw [phase] at leads
        cases leads
      · have phase : (b.clearRow (x, y')).phase (x', y') = b.phase (x', y') :=
          Function.update_of_ne (fun eq => same (Prod.mk.inj eq).1) _ _
        rw [phase] at leads
        exact same ((h.rows y').holds_unique x' x (Or.inl leads) (Or.inl lead))
    · have row : (b.clearRow (x, y)).row y' = b.row y' := Function.update_of_ne same _ _
      rw [row]
      refine (h.rows y').congr (fun x' => arrived _) (fun x' => ?_) fun x' => holdsRow _
      have phase : (b.clearRow (x, y)).phase (x', y') = b.phase (x', y') :=
        Function.update_of_ne (fun eq => same (Prod.mk.inj eq).2) _ _
      rw [phase]
  · exact h.cols.congr passed (fun y' => exists_congr fun x' => keeps (· = .colLead) (by simp) _)
      fun y' => exists_congr fun x' => holdsCol _
  · exact h.unique d e ((holdsCol d).mp hd) ((holdsCol e).mp he)
  · obtain ⟨d, hold⟩ := h.leader fun y' => (passed y').mp (all y')
    exact ⟨d, (holdsCol d).mpr hold⟩

theorem inv_arriveCol (h : Inv b) (rowDone : b.phase c = .rowDone) : Inv (b.arriveCol c) := by
  obtain ⟨x, y⟩ := c
  have new : ¬ b.Passed y := fun passed => (passed x).2 (Or.inr rowDone)
  have moves : ∀ d, d ≠ (x, y) → (b.arriveCol (x, y)).phase d = b.phase d := fun d other =>
    Function.update_of_ne other _ _
  have phase : (b.arriveCol (x, y)).phase (x, y) =
      if b.col + 1 = Fintype.card κ then .colLead else .waiting := Function.update_self _ _ _
  have keeps : ∀ (P : Phase → Prop), (P .colLead ↔ P .rowDone) → (P .waiting ↔ P .rowDone) →
      ∀ d, P ((b.arriveCol (x, y)).phase d) ↔ P (b.phase d) := by
    intro P _ _ d
    refine update_iff P ?_ d
    rw [rowDone]
    split <;> assumption
  have rowLead := keeps (· = .rowLead) (by simp) (by simp)
  have arrived : ∀ d, (b.arriveCol (x, y)).Arrived d ↔ b.Arrived d := fun d =>
    and_congr_right fun _ => keeps (· ≠ .idle) (by simp) (by simp) d
  have full := (h.rows y).full_of_holds x (Or.inr rowDone)
  -- the row is given up
  have gone : ∀ x', ¬ ((b.arriveCol (x, y)).phase (x', y)).HoldsRow := by
    intro x' hold
    by_cases same : x' = x
    · subst same
      rw [phase] at hold
      split at hold <;> rcases hold with eq | eq <;> cases eq
    · rw [moves _ fun eq => same (Prod.mk.inj eq).1] at hold
      exact same ((h.rows y).holds_unique x' x hold (Or.inr rowDone))
  have other : ∀ x' y', y' ≠ y → (x', y') ≠ (x, y) := fun _ _ diff eq => diff (Prod.mk.inj eq).2
  have noLead : ∀ x', b.phase (x', y) ≠ .rowLead := by
    intro x' lead
    have same := (h.rows y).holds_unique x' x (Or.inl lead) (Or.inr rowDone)
    rw [same, rowDone] at lead
    cases lead
  -- and arrives at the column
  have passed : ∀ y', (b.arriveCol (x, y)).Passed y' ↔ b.Passed y' ∨ y' = y := by
    intro y'
    by_cases same : y' = y
    · subst same
      exact iff_of_true (fun x' => ⟨(arrived _).mpr (full x'), gone x'⟩) (Or.inr rfl)
    · rw [or_iff_left same]
      refine forall_congr' fun x' => ?_
      rw [arrived, moves _ (other x' y' same)]
  have free : ∀ d, ¬ (b.phase d).HoldsCol := fun d hold => h.cols.not_holds new d.2 ⟨d.1, hold⟩
  have holds : ∀ d, ((b.arriveCol (x, y)).phase d).HoldsCol ↔
      d = (x, y) ∧ b.col + 1 = Fintype.card κ := by
    intro d
    by_cases same : d = (x, y)
    · subst same
      rw [phase]
      split <;> simp [Phase.HoldsCol, *]
    · rw [moves d same]
      exact iff_of_false (free d) fun both => same both.1
  have leads : ∀ d, (b.arriveCol (x, y)).phase d = .colLead ↔
      d = (x, y) ∧ b.col + 1 = Fintype.card κ := by
    intro d
    rw [← holds d]
    refine ⟨Or.inl, fun hold => ?_⟩
    obtain ⟨rfl, last⟩ := (holds d).mp hold
    rw [phase, if_pos last]
  have rows : ∀ (Q : Prop) (y' : κ), (∃ x', ((x', y') : ι × κ) = (x, y) ∧ Q) ↔ y' = y ∧ Q := by
    intro Q y'
    simp only [Prod.mk.injEq]
    exact ⟨fun ⟨_, eq, q⟩ => ⟨eq.2, q⟩, fun ⟨eq, q⟩ => ⟨x, ⟨rfl, eq⟩, q⟩⟩
  refine ⟨?_, fun y' => ?_, ?_, fun d e hd he => ?_, fun all => ?_⟩
  · exact round_update h (by rw [rowDone]; exact nofun) _
  · by_cases same : y' = y
    · subst same
      exact (h.rows y').pass noLead (fun x' => arrived _)
        (fun x' lead => noLead x' ((rowLead _).mp lead)) gone
    · refine (h.rows y').congr (fun x' => arrived _) (fun x' => rowLead _) fun x' => ?_
      rw [moves _ (other x' y' same)]
  · refine h.cols.arrive new passed (fun y' => ?_) fun y' => ?_
    · simp only [leads, rows]
    · simp only [leads, holds]
  · rw [((holds d).mp hd).1, ((holds e).mp he).1]
  · exact ⟨(x, y), (holds _).mpr ⟨rfl, h.cols.last new passed all⟩⟩

theorem inv_clearCol (h : Inv b) (lead : b.phase c = .colLead) : Inv (b.clearCol c) := by
  have keeps : ∀ (P : Phase → Prop), (P .colDone ↔ P .colLead) →
      ∀ d, P ((b.clearCol c).phase d) ↔ P (b.phase d) := fun P same =>
    update_iff P (by rw [lead]; exact same)
  have holdsRow := keeps Phase.HoldsRow (by simp [Phase.HoldsRow])
  have holdsCol := keeps Phase.HoldsCol (by simp [Phase.HoldsCol])
  have arrived : ∀ d, (b.clearCol c).Arrived d ↔ b.Arrived d := fun d =>
    and_congr_right fun _ => keeps (· ≠ .idle) (by simp) d
  have passed : ∀ y, (b.clearCol c).Passed y ↔ b.Passed y := fun y =>
    forall_congr' fun x => and_congr (arrived _) (not_congr (holdsRow _))
  refine ⟨?_, fun y => ?_, ?_, fun d e hd he => ?_, fun all => ?_⟩
  · exact round_update h (by rw [lead]; exact nofun) _
  · exact (h.rows y).congr (fun x => arrived _) (fun x => keeps (· = .rowLead) (by simp) _)
      fun x => holdsRow _
  · refine h.cols.clear (a := c.2) ⟨c.1, lead⟩ passed (fun y leads => ?_) fun y =>
      exists_congr fun x => holdsCol _
    obtain ⟨x, leads⟩ := leads
    by_cases same : (x, y) = c
    · have phase : (b.clearCol c).phase (x, y) = .colDone := by
        rw [same]
        exact Function.update_self _ _ _
      rw [phase] at leads
      cases leads
    · have phase : (b.clearCol c).phase (x, y) = b.phase (x, y) := Function.update_of_ne same _ _
      rw [phase] at leads
      exact same (h.unique _ _ (Or.inl leads) (Or.inl lead))
  · exact h.unique d e ((holdsCol d).mp hd) ((holdsCol e).mp he)
  · obtain ⟨d, hold⟩ := h.leader fun y => (passed y).mp (all y)
    exact ⟨d, (holdsCol d).mpr hold⟩

omit [DecidableEq ι] [DecidableEq κ] in
/-- When the leader of the column releases, everybody else waits. -/
theorem Inv.others_wait (h : Inv b) (lead : b.phase c = .colDone) (d : ι × κ) (other : d ≠ c) :
    b.phase d = .waiting := by
  have passed := h.cols.full_of_holds c.2 ⟨c.1, Or.inr lead⟩ d.2 d.1
  have notCol : ¬ (b.phase d).HoldsCol := fun hold => other (h.unique d c hold (Or.inr lead))
  cases phase : b.phase d with
  | waiting => rfl
  | idle => exact absurd phase passed.1.2
  | rowLead => exact absurd (Or.inl phase) passed.2
  | rowDone => exact absurd (Or.inr phase) passed.2
  | colLead => exact absurd (Or.inl phase) notCol
  | colDone => exact absurd (Or.inr phase) notCol

theorem inv_release (h : Inv b) (lead : b.phase c = .colDone) : Inv (b.release c) := by
  have waits : ∀ d, (b.release c).phase d = .waiting := by
    intro d
    by_cases same : d = c
    · subst same
      exact Function.update_self _ _ _
    · rw [← h.others_wait lead d same]
      exact Function.update_of_ne same _ _
  have full : ∀ y, b.Passed y := h.cols.full_of_holds c.2 ⟨c.1, Or.inr lead⟩
  have here : ∀ d, b.done d = b.released := fun d => (full d.2 d.1).1.1
  have arrived : ∀ d, ¬ (b.release c).Arrived d := fun d new =>
    Nat.ne_of_lt (Nat.lt_succ_self b.released) ((here d).symm.trans new.1)
  have noRow : ∀ d, ¬ ((b.release c).phase d).HoldsRow := by
    intro d hold
    rw [waits d] at hold
    rcases hold with eq | eq <;> cases eq
  have noCol : ∀ d, ¬ ((b.release c).phase d).HoldsCol := by
    intro d hold
    rw [waits d] at hold
    rcases hold with eq | eq <;> cases eq
  refine ⟨fun d => Or.inr ⟨congrArg (· + 1) (here d), waits d⟩, fun y => ?_, ?_, fun d _ hd =>
    absurd hd (noCol d), fun all => absurd (all c.2 c.1).1 (arrived _)⟩
  · exact (h.rows y).reopen (fun x => (full y x).1) (fun x lead => (full y x).2 (Or.inl lead))
      (fun x => arrived _) (fun x lead => noRow (x, y) (Or.inl lead)) fun x => noRow _
  · refine h.cols.reopen full (fun y ⟨x, leads⟩ => ?_) (fun y all => arrived _ (all c.1).1)
      (fun y ⟨x, leads⟩ => noCol (x, y) (Or.inl leads)) fun y ⟨x, hold⟩ => noCol (x, y) hold
    have same := h.unique _ _ (Or.inl leads) (Or.inr lead)
    rw [same, lead] at leads
    cases leads

theorem inv_wake (h : Inv b) (waits : b.phase c = .waiting) (late : b.done c < b.released) :
    Inv (b.wake c) := by
  have keeps : ∀ (P : Phase → Prop), (P .idle ↔ P .waiting) →
      ∀ d, P ((b.wake c).phase d) ↔ P (b.phase d) := fun P same =>
    update_iff P (by rw [waits]; exact same)
  have holdsRow := keeps Phase.HoldsRow (by simp [Phase.HoldsRow])
  have holdsCol := keeps Phase.HoldsCol (by simp [Phase.HoldsCol])
  have arrived : ∀ d, (b.wake c).Arrived d ↔ b.Arrived d := by
    intro d
    by_cases same : d = c
    · subst same
      have phase : (b.wake d).phase d = .idle := Function.update_self _ _ _
      exact iff_of_false (fun new => new.2 phase) fun old => Nat.ne_of_lt late old.1
    · have done : (b.wake c).done d = b.done d := Function.update_of_ne same _ _
      have phase : (b.wake c).phase d = b.phase d := Function.update_of_ne same _ _
      unfold Arrived
      rw [done, phase]
      exact Iff.rfl
  have passed : ∀ y, (b.wake c).Passed y ↔ b.Passed y := fun y =>
    forall_congr' fun x => and_congr (arrived _) (not_congr (holdsRow _))
  refine ⟨fun d => ?_, fun y => ?_, ?_, fun d e hd he => ?_, fun all => ?_⟩
  · by_cases same : d = c
    · subst same
      have done : (b.wake d).done d = b.done d + 1 := Function.update_self _ _ _
      rw [done]
      exact Or.inl ((h.round d).resolve_left (Nat.ne_of_lt late)).1
    · have done : (b.wake c).done d = b.done d := Function.update_of_ne same _ _
      have phase : (b.wake c).phase d = b.phase d := Function.update_of_ne same _ _
      rw [done, phase]
      exact h.round d
  · exact (h.rows y).congr (fun x => arrived _) (fun x => keeps (· = .rowLead) (by simp) _)
      fun x => holdsRow _
  · exact h.cols.congr passed (fun y => exists_congr fun x => keeps (· = .colLead) (by simp) _)
      fun y => exists_congr fun x => holdsCol _
  · exact h.unique d e ((holdsCol d).mp hd) ((holdsCol e).mp he)
  · obtain ⟨d, hold⟩ := h.leader fun y => (passed y).mp (all y)
    exact ⟨d, (holdsCol d).mpr hold⟩

/-- Every step keeps the invariant. -/
theorem inv_step {b' : TreeBarrier ι κ} (h : Inv b) (step : Step b b') : Inv b' := by
  cases step with
  | arrive idle => exact inv_arrive h idle
  | clearRow lead => exact inv_clearRow h lead
  | arriveCol rowDone => exact inv_arriveCol h rowDone
  | clearCol lead => exact inv_clearCol h lead
  | release lead => exact inv_release h lead
  | wake waits late => exact inv_wake h waits late

/-! ## Starts -/

/-- Nobody has arrived. -/
def fresh : TreeBarrier ι κ := ⟨fun _ => .idle, fun _ => 0, fun _ => 0, 0, 0⟩

omit [DecidableEq ι] [DecidableEq κ] in
theorem inv_fresh [Nonempty ι] [Nonempty κ] : Inv (fresh : TreeBarrier ι κ) := by
  have noCol : ∀ c, ¬ ((fresh : TreeBarrier ι κ).phase c).HoldsCol := by
    rintro c (eq | eq) <;> cases eq
  refine ⟨fun _ => Or.inl rfl, fun y => ?_, ?_, fun c _ hc => absurd hc (noCol c),
    fun all => absurd rfl (all (Classical.arbitrary κ) (Classical.arbitrary ι)).1.2⟩
  · refine Gate.empty (fun x arrived => arrived.2 rfl) ?_ fun x lead => nomatch lead
    rintro x (eq | eq) <;> cases eq
  · exact Gate.empty (fun y all => (all (Classical.arbitrary ι)).1.2 rfl)
      (fun y ⟨x, hold⟩ => noCol (x, y) hold) fun y ⟨x, lead⟩ => nomatch lead

/-- Everybody waits, and `c` is about to release them. -/
def closed (c : ι × κ) : TreeBarrier ι κ :=
  ⟨fun d => if d = c then .colDone else .waiting, fun _ => 0, fun _ => 0, 0, 0⟩

theorem inv_closed (c : ι × κ) : Inv (closed c) := by
  have cases : ∀ d, (closed c).phase d = .colDone ∧ d = c ∨ (closed c).phase d = .waiting := by
    intro d
    unfold closed
    by_cases same : d = c
    · exact Or.inl ⟨if_pos same, same⟩
    · exact Or.inr (if_neg same)
  have arrived : ∀ d, (closed c).Arrived d := by
    intro d
    refine ⟨rfl, ?_⟩
    rcases cases d with ⟨phase, -⟩ | phase <;> rw [phase] <;> exact nofun
  have noRow : ∀ d, ¬ ((closed c).phase d).HoldsRow := by
    intro d hold
    rcases cases d with ⟨phase, -⟩ | phase <;> rw [phase] at hold <;>
      rcases hold with eq | eq <;> cases eq
  have holds : ∀ d, ((closed c).phase d).HoldsCol → d = c := by
    intro d hold
    rcases cases d with ⟨-, same⟩ | phase
    · exact same
    · rw [phase] at hold
      rcases hold with eq | eq <;> cases eq
  have passed : ∀ y, (closed c).Passed y := fun y x => ⟨arrived _, noRow _⟩
  have noLead : ∀ d, (closed c).phase d ≠ .colLead := by
    intro d lead
    rcases cases d with ⟨phase, -⟩ | phase <;> rw [phase] at lead <;> cases lead
  have lead : ((closed c).phase c).HoldsCol := Or.inr (if_pos rfl)
  refine ⟨fun _ => Or.inl rfl, fun y => ?_, ?_,
    fun d e hd he => (holds d hd).trans (holds e he).symm, fun _ => ⟨c, lead⟩⟩
  · exact ⟨fun x lead => Or.inl lead, fun x hold => absurd hold (noRow _),
      fun x _ hold => absurd hold (noRow _), fun x new => absurd (arrived _) new, fun _ _ => rfl⟩
  · refine ⟨fun y ⟨x, lead⟩ => absurd lead (noLead _), fun _ _ => passed, ?_,
      fun y new => absurd (passed y) new, fun _ _ => rfl⟩
    rintro y y' ⟨x, hold⟩ ⟨x', hold'⟩
    exact congrArg Prod.snd ((holds _ hold).trans (holds _ hold').symm)

/-! ## What follows -/

omit [DecidableEq ι] [DecidableEq κ] in
/-- No member is done with a round that another one has not arrived at. -/
theorem Inv.done_le (h : Inv b) (c d : ι × κ) :
    b.done c ≤ b.done d + if b.phase d = .idle then 0 else 1 := by
  have le : b.done c ≤ b.released := by
    rcases h.round c with same | late
    · exact same.le
    · omega
  rcases h.round d with same | ⟨late, waits⟩
  · omega
  · rw [if_neg (by rw [waits]; exact nofun)]
    omega

omit [DecidableEq ι] [DecidableEq κ] in
/-- Somebody can go on: one that leads a gate, one that has been released, or one that has not
arrived in the round of all. -/
theorem Inv.progress (h : Inv b) :
    (∃ c, (b.phase c).HoldsRow ∨ (b.phase c).HoldsCol) ∨
      (∃ c, b.phase c = .waiting ∧ b.done c < b.released) ∨
        ∃ c, b.phase c = .idle ∧ ∀ d, b.done d = b.released := by
  by_contra stuck
  obtain ⟨noHolder, stuck⟩ := not_or.mp stuck
  obtain ⟨noLate, noIdle⟩ := not_or.mp stuck
  have here : ∀ d, b.done d = b.released := fun d =>
    (h.round d).resolve_right fun late => noLate ⟨d, late.2, by omega⟩
  have passed : ∀ y, b.Passed y := fun y x =>
    ⟨⟨here _, fun idle => noIdle ⟨(x, y), idle, here⟩⟩, fun hold => noHolder ⟨_, Or.inl hold⟩⟩
  obtain ⟨c, hold⟩ := h.leader passed
  exact noHolder ⟨c, Or.inr hold⟩

end

end TreeBarrier

end SoftHier
