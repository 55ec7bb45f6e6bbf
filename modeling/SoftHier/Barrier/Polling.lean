import Mathlib.Algebra.Order.BigOperators.Group.Finset
import Mathlib.Data.Fintype.Prod
import SoftHier.Barrier.Model
import SoftHier.Lib.Transition

/-!
# The polling barrier

`flex_global_barrier_xy_polling` as the dm cores of all clusters execute it, one memory access at a
time and in any order.  The iteration words have arbitrary initial values and wrap; the state also
counts their increments.

* `Polling`: the state, `exec` the next access of a cluster.
* `Polling.abs`: the barrier of two levels it implements.
* `PollingInv`: the invariant, `pollingInv_exec`: every access keeps it.
* `polling_barrier`: no cluster leaves a call that another one has not entered, no poller misses the
  change it waits for, and the run can always go on to its end.
-/

namespace SoftHier.Barrier

/-- The next access of a dm core. -/
inductive PollingPc where
  /-- Between two calls. -/
  | out
  | readIx
  | readIy
  | amoX
  | resetX
  | amoY
  | resetY
  | amoIy
  | pollIy
  | amoIx
  | pollIx
  deriving DecidableEq, Repr

/-- A dm core: the calls it has left, and `prev_barrier_iter_x` and `prev_barrier_iter_y`. -/
structure PollingCore where
  pc : PollingPc
  calls : Nat
  prevX : BitVec 32
  prevY : BitVec 32

/-- The synchronisation words and the cores; `releasesX` and `releasesY` count the increments of the
iteration words. -/
structure Polling (G : Grid) where
  core : Cluster G → PollingCore
  barrierX : Fin G.numY → BitVec 32
  barrierIx : Fin G.numY → BitVec 32
  barrierY : BitVec 32
  barrierIy : BitVec 32
  releasesX : Fin G.numY → Nat
  releasesY : Nat

namespace Polling

variable {G : Grid}

/-- A core changes. -/
def put (s : Polling G) (c : Cluster G) (me : PollingCore) : Polling G :=
  { s with core := Function.update s.core c me }

/-- The next access of the dm core of `c`, if it has not left its last call. -/
def exec (rounds : Nat) (s : Polling G) (c : Cluster G) : Option (Polling G) :=
  let me := s.core c
  match me.pc with
  | .out => if me.calls < rounds then some (s.put c { me with pc := .readIx }) else none
  | .readIx => some (s.put c { me with pc := .readIy, prevX := s.barrierIx c.2 })
  | .readIy => some (s.put c { me with pc := .amoX, prevY := s.barrierIy })
  | .amoX =>
      let pc := if isLast G.numX (s.barrierX c.2) then .resetX else .pollIx
      some { s.put c { me with pc := pc } with
        barrierX := Function.update s.barrierX c.2 (amoFetchAdd (s.barrierX c.2)) }
  | .resetX =>
      some { s.put c { me with pc := .amoY } with barrierX := Function.update s.barrierX c.2 0 }
  | .amoY =>
      let pc := if isLast G.numY s.barrierY then .resetY else .pollIy
      some { s.put c { me with pc := pc } with barrierY := amoFetchAdd s.barrierY }
  | .resetY => some { s.put c { me with pc := .amoIy } with barrierY := 0 }
  | .amoIy =>
      some { s.put c { me with pc := .amoIx } with
        barrierIy := amoFetchAdd s.barrierIy
        releasesY := s.releasesY + 1 }
  | .pollIy => some (if s.barrierIy = me.prevY then s else s.put c { me with pc := .amoIx })
  | .amoIx =>
      some { s.put c { me with pc := .out, calls := me.calls + 1 } with
        barrierIx := Function.update s.barrierIx c.2 (amoFetchAdd (s.barrierIx c.2))
        releasesX := Function.update s.releasesX c.2 (s.releasesX c.2 + 1) }
  | .pollIx =>
      some (if s.barrierIx c.2 = me.prevX then s
        else s.put c { me with pc := .out, calls := me.calls + 1 })

/-- Zero counters, and any iteration words. -/
def init (ix : Fin G.numY → BitVec 32) (iy : BitVec 32) : Polling G where
  core := fun _ => ⟨.out, 0, 0, 0⟩
  barrierX := fun _ => 0
  barrierIx := ix
  barrierY := 0
  barrierIy := iy
  releasesX := fun _ => 0
  releasesY := 0

/-- Some core makes its next access. -/
def Step (rounds : Nat) (s s' : Polling G) : Prop := ∃ c, s.exec rounds c = some s'

/-- The runs of `rounds` calls of every cluster. -/
def Run (rounds : Nat) (ix : Fin G.numY → BitVec 32) (iy : BitVec 32) (s : Polling G) : Prop :=
  Relation.ReflTransGen (Step rounds) (init ix iy) s

/-- Every cluster has left its last call. -/
def Final (rounds : Nat) (s : Polling G) : Prop :=
  ∀ c, (s.core c).pc = .out ∧ (s.core c).calls = rounds

/-- The calls a cluster has entered. -/
def entered (s : Polling G) (c : Cluster G) : Nat :=
  (s.core c).calls + if (s.core c).pc = .out then 0 else 1

end Polling

/-! ## The barrier of two levels -/

/-- Where a core is in the barrier of two levels. -/
def PollingPc.phase : PollingPc → Phase
  | .out | .readIx | .readIy | .amoX => .idle
  | .resetX => .rowLead
  | .amoY => .rowDone
  | .resetY => .colLead
  | .amoIy => .colDone
  | .pollIy | .amoIx | .pollIx => .waiting

/-- The core took the lead of its row and has not released it. -/
def PollingPc.Represents (pc : PollingPc) : Prop := pc.phase ≠ .idle ∧ pc ≠ .pollIx

/-- The barrier of two levels in a state. -/
def Polling.abs {G : Grid} (s : Polling G) : TreeBarrier (Fin G.numX) (Fin G.numY) where
  phase := fun c => (s.core c).pc.phase
  done := fun c => (s.core c).calls
  row := fun y => (s.barrierX y).toNat
  col := s.barrierY.toNat
  released := s.releasesY

/-- What holds for a core, given the releases of its row and of the column. -/
structure CoreInv (rounds : Nat) (ix iy : BitVec 32) (releasesX releasesY : Nat)
    (me : PollingCore) : Prop where
  calls_le : me.calls ≤ rounds
  running : me.pc ≠ .out → me.calls < rounds
  prevX : me.pc ≠ .out → me.pc ≠ .readIx → me.prevX = ix + BitVec.ofNat 32 me.calls
  prevY : me.pc ≠ .out → me.pc ≠ .readIx → me.pc ≠ .readIy →
    me.prevY = iy + BitVec.ofNat 32 me.calls
  round : me.calls = releasesX ∨ (me.calls + 1 = releasesX ∧ me.pc = .pollIx)
  late : me.pc = .amoIx → me.calls < releasesY

/-- What holds in every state. -/
structure PollingInv {G : Grid} (rounds : Nat) (ix : Fin G.numY → BitVec 32) (iy : BitVec 32)
    (s : Polling G) : Prop where
  abs : s.abs.Inv
  barrierIx : ∀ y, s.barrierIx y = ix y + BitVec.ofNat 32 (s.releasesX y)
  barrierIy : s.barrierIy = iy + BitVec.ofNat 32 s.releasesY
  core : ∀ c, CoreInv rounds (ix c.2) iy (s.releasesX c.2) s.releasesY (s.core c)
  alone : ∀ x y, (s.core (x, y)).pc.Represents → ∀ x', x' ≠ x →
    (s.core (x', y)).pc = .pollIx ∧ (s.core (x', y)).calls = (s.core (x, y)).calls
  full : ∀ y, (∀ x, s.abs.Arrived (x, y)) → ∃ x, (s.core (x, y)).pc.Represents
  rows : ∀ y, s.releasesX y = s.releasesY ∨ (s.releasesX y + 1 = s.releasesY ∧
    ∃ x, (s.core (x, y)).pc.Represents ∧ (s.core (x, y)).pc.phase = .waiting)

section

variable {G : Grid} {rounds : Nat} {ix : Fin G.numY → BitVec 32} {iy : BitVec 32} {s s' : Polling G}
  {c : Cluster G} {me : PollingCore}

theorem pollingInv_init : PollingInv rounds ix iy (Polling.init ix iy) where
  abs := TreeBarrier.inv_fresh
  barrierIx := fun y => (BitVec.add_zero (ix y)).symm
  barrierIy := (BitVec.add_zero iy).symm
  core := fun _ => ⟨Nat.zero_le _, fun moved => absurd rfl moved, fun moved => absurd rfl moved,
    fun moved => absurd rfl moved, Or.inl rfl, nofun⟩
  alone := fun _ _ lead => absurd rfl lead.1
  full := fun _ all => absurd rfl (all ⟨0, G.numX_pos⟩).2
  rows := fun _ => Or.inl rfl

/-! ## The abstraction of an access -/

theorem abs_put (s : Polling G) (c : Cluster G) (me : PollingCore) : (s.put c me).abs =
    { s.abs with
      phase := Function.update s.abs.phase c me.pc.phase
      done := Function.update s.abs.done c me.calls } := by
  have phase : (s.put c me).abs.phase = Function.update s.abs.phase c me.pc.phase := by
    funext d
    by_cases same : d = c
    · subst same
      simp [Polling.abs, Polling.put]
    · simp [Polling.abs, Polling.put, same]
  have done : (s.put c me).abs.done = Function.update s.abs.done c me.calls := by
    funext d
    by_cases same : d = c
    · subst same
      simp [Polling.abs, Polling.put]
    · simp [Polling.abs, Polling.put, same]
  rw [← phase, ← done]
  rfl

/-- The core moves on within its call. -/
theorem abs_put_calls (s : Polling G) (c : Cluster G) (me : PollingCore)
    (calls : me.calls = (s.core c).calls) : (s.put c me).abs =
    { s.abs with phase := Function.update s.abs.phase c me.pc.phase } := by
  have same : Function.update s.abs.done c me.calls = s.abs.done := by
    rw [calls]
    exact Function.update_eq_self c s.abs.done
  rw [abs_put, same]

theorem abs_row (y : Fin G.numY) (w : BitVec 32) :
    (fun y' => (Function.update s.barrierX y w y').toNat) =
      Function.update s.abs.row y w.toNat := by
  funext y'
  by_cases same : y' = y
  · subst same
    simp
  · simp [Polling.abs, same]

/-! ## The other parts of the invariant -/

/-- Only the core of `c` changes. -/
structure Changes (s s' : Polling G) (c : Cluster G) (me : PollingCore) : Prop where
  here : s'.core c = me
  there : ∀ d, d ≠ c → s'.core d = s.core d

theorem changes_of_core (core : s'.core = Function.update s.core c me) : Changes s s' c me :=
  ⟨by rw [core, Function.update_self], fun d other => by rw [core, Function.update_of_ne other]⟩

namespace Changes

theorem arrived (h : Changes s s' c me) (hy : s'.releasesY = s.releasesY) {d : Cluster G}
    (other : d ≠ c) : s'.abs.Arrived d ↔ s.abs.Arrived d := by
  show (s'.core d).calls = s'.releasesY ∧ (s'.core d).pc.phase ≠ .idle ↔ _
  rw [h.there d other, hy]
  exact Iff.rfl

theorem core (h : Changes s s' c me) (inv : PollingInv rounds ix iy s)
    (hx : s'.releasesX = s.releasesX) (hy : s'.releasesY = s.releasesY)
    (new : CoreInv rounds (ix c.2) iy (s.releasesX c.2) s.releasesY me) (d : Cluster G) :
    CoreInv rounds (ix d.2) iy (s'.releasesX d.2) s'.releasesY (s'.core d) := by
  rw [hx, hy]
  by_cases same : d = c
  · rw [same, h.here]
    exact new
  · rw [h.there d same]
    exact inv.core d

/-- `c` may lead its row if the others of the row wait for it. -/
theorem alone (h : Changes s s' c me) (inv : PollingInv rounds ix iy s)
    (leads : me.pc.Represents → ∀ x, x ≠ c.1 →
      (s.core (x, c.2)).pc = .pollIx ∧ (s.core (x, c.2)).calls = me.calls)
    (others : ∀ x, x ≠ c.1 → ¬ (s.core (x, c.2)).pc.Represents) (x : Fin G.numX) (y : Fin G.numY)
    (lead : (s'.core (x, y)).pc.Represents) (x' : Fin G.numX) (other : x' ≠ x) :
    (s'.core (x', y)).pc = .pollIx ∧ (s'.core (x', y)).calls = (s'.core (x, y)).calls := by
  obtain ⟨cx, cy⟩ := c
  by_cases here : (x, y) = (cx, cy)
  · obtain ⟨rfl, rfl⟩ := Prod.mk.inj here
    rw [h.here] at lead ⊢
    rw [h.there _ fun eq => other (Prod.mk.inj eq).1]
    exact leads lead x' other
  · rw [h.there _ here] at lead ⊢
    have there : (x', y) ≠ (cx, cy) := by
      intro eq
      obtain ⟨rfl, rfl⟩ := Prod.mk.inj eq
      exact others x (Ne.symm other) lead
    rw [h.there _ there]
    exact inv.alone x y lead x' other

/-- A representative other than `c` stays. -/
theorem keeps (h : Changes s s' c me) (free : ¬ (s.core c).pc.Represents) {d : Cluster G}
    (lead : (s.core d).pc.Represents) : s'.core d = s.core d :=
  h.there d fun same => free (same ▸ lead)

/-- A core that did not represent its row changes nothing for the other rows, nor for its own. -/
theorem rows (h : Changes s s' c me) (inv : PollingInv rounds ix iy s)
    (free : ¬ (s.core c).pc.Represents) (y : Fin G.numY) :
    s.releasesX y = s.releasesY ∨ (s.releasesX y + 1 = s.releasesY ∧
      ∃ x, (s'.core (x, y)).pc.Represents ∧ (s'.core (x, y)).pc.phase = .waiting) := by
  refine (inv.rows y).imp id fun ⟨late, x, lead, waits⟩ => ⟨late, x, ?_⟩
  rw [h.keeps free lead]
  exact ⟨lead, waits⟩

/-- The other rows keep their representatives. -/
theorem full_of_ne (h : Changes s s' c me) (inv : PollingInv rounds ix iy s)
    (hy : s'.releasesY = s.releasesY) {y : Fin G.numY} (other : y ≠ c.2)
    (all : ∀ x, s'.abs.Arrived (x, y)) : ∃ x, (s'.core (x, y)).pc.Represents := by
  have away : ∀ x, (x, y) ≠ c := fun x same => other (congrArg Prod.snd same)
  obtain ⟨x, lead⟩ := inv.full y fun x => (h.arrived hy (away x)).mp (all x)
  exact ⟨x, by rw [h.there _ (away x)]; exact lead⟩

end Changes

/-- Beside a core that does not poll for its row nobody leads the row. -/
theorem PollingInv.others (inv : PollingInv rounds ix iy s) (busy : (s.core c).pc ≠ .pollIx)
    (x : Fin G.numX) (other : x ≠ c.1) : ¬ (s.core (x, c.2)).pc.Represents :=
  fun lead => busy (inv.alone x c.2 lead c.1 (Ne.symm other)).1

/-- A core that has not arrived goes on. -/
theorem pollingInv_quiet (inv : PollingInv rounds ix iy s) (idle : (s.core c).pc.phase = .idle)
    (idle' : me.pc.phase = .idle) (calls : me.calls = (s.core c).calls)
    (core : CoreInv rounds (ix c.2) iy (s.releasesX c.2) s.releasesY me) :
    PollingInv rounds ix iy (s.put c me) := by
  have abs : (s.put c me).abs = s.abs := by
    have same : Function.update s.abs.phase c me.pc.phase = s.abs.phase := by
      rw [idle', ← idle]
      exact Function.update_eq_self c s.abs.phase
    rw [abs_put_calls s c me calls, same]
  have changes : Changes s (s.put c me) c me := changes_of_core rfl
  have free : ¬ (s.core c).pc.Represents := fun lead => lead.1 idle
  have busy : (s.core c).pc ≠ .pollIx := by
    intro poll
    rw [poll] at idle
    cases idle
  refine ⟨?_, inv.barrierIx, inv.barrierIy, changes.core inv rfl rfl core, ?_, fun y all => ?_,
    changes.rows inv free⟩
  · rw [abs]
    exact inv.abs
  · exact changes.alone inv (fun lead => absurd idle' lead.1) (inv.others busy)
  · rw [abs] at all
    obtain ⟨x, lead⟩ := inv.full y all
    exact ⟨x, by rw [changes.keeps free lead]; exact lead⟩

/-- The representative of a row goes on, without a release. -/
theorem pollingInv_lead (inv : PollingInv rounds ix iy s) (changes : Changes s s' c me)
    (lead : (s.core c).pc.Represents) (lead' : me.pc.Represents)
    (calls : me.calls = (s.core c).calls)
    (waits : (s.core c).pc.phase = .waiting → me.pc.phase = .waiting)
    (core : CoreInv rounds (ix c.2) iy (s.releasesX c.2) s.releasesY me)
    (hix : s'.barrierIx = s.barrierIx) (hiy : s'.barrierIy = s.barrierIy)
    (hx : s'.releasesX = s.releasesX) (hy : s'.releasesY = s.releasesY) (abs : s'.abs.Inv) :
    PollingInv rounds ix iy s' := by
  have keeps : ∀ d, (s.core d).pc.Represents → (s'.core d).pc.Represents := by
    intro d old
    by_cases same : d = c
    · rw [same, changes.here]
      exact lead'
    · rw [changes.there d same]
      exact old
  have arrived : ∀ d, s'.abs.Arrived d → s.abs.Arrived d := by
    intro d new
    by_cases same : d = c
    · subst same
      have eq : (s'.core d).calls = s'.releasesY := new.1
      rw [changes.here, calls, hy] at eq
      exact ⟨eq, lead.1⟩
    · exact (changes.arrived hy same).mp new
  refine ⟨abs, by rw [hix, hx]; exact inv.barrierIx, by rw [hiy, hy]; exact inv.barrierIy,
    changes.core inv hx hy core, ?_, fun y all => ?_, fun y => ?_⟩
  · refine changes.alone inv (fun _ x other => ?_) (inv.others lead.2)
    rw [calls]
    exact inv.alone c.1 c.2 lead x other
  · obtain ⟨x, old⟩ := inv.full y fun x => arrived _ (all x)
    exact ⟨x, keeps _ old⟩
  · rw [hx, hy]
    refine (inv.rows y).imp id fun ⟨late, x, old, wait⟩ => ⟨late, x, keeps _ old, ?_⟩
    by_cases same : (x, y) = c
    · rw [same] at wait
      rw [same, changes.here]
      exact waits wait
    · rw [changes.there _ same]
      exact wait

/-- The row of a core that does not poll for it has been released as often as the core has left. -/
theorem CoreInv.mine {releasesX releasesY : Nat} {ix iy : BitVec 32}
    (h : CoreInv rounds ix iy releasesX releasesY me) (busy : me.pc ≠ .pollIx) :
    me.calls = releasesX :=
  h.round.resolve_right fun poll => busy poll.2

/-- A core moves on within its call. -/
theorem CoreInv.move {releasesX releasesY : Nat} {ix iy : BitVec 32} {pc : PollingPc}
    (h : CoreInv rounds ix iy releasesX releasesY me) (sampled : me.pc ≠ .out)
    (sampledX : me.pc ≠ .readIx) (sampledY : me.pc ≠ .readIy) (busy : me.pc ≠ .pollIx)
    (late : pc = .amoIx → me.calls < releasesY) :
    CoreInv rounds ix iy releasesX releasesY { me with pc := pc } where
  calls_le := h.calls_le
  running := fun _ => h.running sampled
  prevX := fun _ _ => h.prevX sampled sampledX
  prevY := fun _ _ _ => h.prevY sampled sampledX sampledY
  round := Or.inl (h.mine busy)
  late := late

/-- The representative of a row moves on within its call. -/
theorem CoreInv.lead {releasesX releasesY : Nat} {ix iy : BitVec 32} {pc : PollingPc}
    (h : CoreInv rounds ix iy releasesX releasesY me) (lead : me.pc.Represents)
    (late : pc = .amoIx → me.calls < releasesY) :
    CoreInv rounds ix iy releasesX releasesY { me with pc := pc } := by
  have sampled : ∀ q : PollingPc, q.phase = .idle → me.pc ≠ q := by
    intro q idle same
    exact lead.1 (same ▸ idle)
  exact h.move (sampled .out rfl) (sampled .readIx rfl) (sampled .readIy rfl) lead.2 late

/-- An iteration word counts its increments. -/
theorem amoFetchAdd_count (w : BitVec 32) (n : Nat) :
    amoFetchAdd (w + BitVec.ofNat 32 n) = w + BitVec.ofNat 32 (n + 1) := by
  unfold amoFetchAdd
  rw [BitVec.ofNat_add, ← BitVec.add_assoc]
  rfl

theorem ofNat_succ_ne (w : BitVec 32) (n : Nat) :
    w + BitVec.ofNat 32 (n + 1) ≠ w + BitVec.ofNat 32 n := by
  intro same
  rw [← amoFetchAdd_count] at same
  have one : (1 : BitVec 32) = 0 := BitVec.add_right_eq_self.mp same
  exact absurd one (by decide)

theorem pollingInv_amoX (inv : PollingInv rounds ix iy s) (pc : (s.core c).pc = .amoX)
    (ran : s.exec rounds c = some s') : PollingInv rounds ix iy s' := by
  obtain ⟨p, hp⟩ : ∃ p, p = if isLast G.numX (s.barrierX c.2) then PollingPc.resetX else .pollIx :=
    ⟨_, rfl⟩
  rw [Polling.exec, pc] at ran
  dsimp only at ran
  rw [← hp] at ran
  have idle : s.abs.phase c = .idle := congrArg PollingPc.phase pc
  have free : ¬ (s.core c).pc.Represents := fun lead => lead.1 idle
  have busy : (s.core c).pc ≠ .pollIx := by rw [pc]; exact nofun
  have new : ¬ s.abs.Arrived (c.1, c.2) := fun arrived => arrived.2 idle
  have small : (s.barrierX c.2).toNat < G.numX := by
    have := (inv.abs.rows c.2).count_lt new
    rw [Fintype.card_fin] at this
    exact this
  have phase : p.phase = if s.abs.row c.2 + 1 = Fintype.card (Fin G.numX) then .rowLead
      else .waiting := by
    rw [hp, ite_isLast G.numX_pos G.numX_lt]
    exact apply_ite PollingPc.phase _ _ _
  have abs : s'.abs = s.abs.arrive c := by
    have row := abs_row (s := s) c.2 (amoFetchAdd (s.barrierX c.2))
    rw [toNat_amoFetchAdd G.numX_lt small] at row
    have put := abs_put_calls s c { s.core c with pc := p } rfl
    unfold TreeBarrier.arrive
    rw [← phase, ← Option.some.inj ran]
    exact congrArg₂ (fun (b : TreeBarrier (Fin G.numX) (Fin G.numY)) row =>
      { b with row := row }) put row
  have abs' : s'.abs.Inv := by
    rw [abs]
    exact TreeBarrier.inv_step inv.abs (.arrive idle)
  have row : s'.abs.row c.2 = s.abs.row c.2 + 1 := by
    rw [abs]
    exact Function.update_self _ _ _
  have changes : Changes s s' c { s.core c with pc := p } :=
    changes_of_core (by rw [← Option.some.inj ran]; rfl)
  have hx : s'.releasesX = s.releasesX := by rw [← Option.some.inj ran]; rfl
  have hy : s'.releasesY = s.releasesY := by rw [← Option.some.inj ran]; rfl
  have hix : s'.barrierIx = s.barrierIx := by rw [← Option.some.inj ran]; rfl
  have hiy : s'.barrierIy = s.barrierIy := by rw [← Option.some.inj ran]; rfl
  have core : CoreInv rounds (ix c.2) iy (s.releasesX c.2) s.releasesY
      { s.core c with pc := p } := by
    refine (inv.core c).move (by rw [pc]; exact nofun) (by rw [pc]; exact nofun)
      (by rw [pc]; exact nofun) busy fun amoIx => ?_
    rw [amoIx] at hp
    split at hp <;> cases hp
  refine ⟨abs', by rw [hix, hx]; exact inv.barrierIx, by rw [hiy, hy]; exact inv.barrierIy,
    changes.core inv hx hy core, ?_, fun y all => ?_, by rw [hx, hy]; exact changes.rows inv free⟩
  · refine changes.alone inv (fun lead x other => ?_) (inv.others busy)
    -- the last of the row: the others have arrived, and none of them leads
    have last : s'.abs.phase (c.1, c.2) = .rowLead := by
      show (s'.core c).pc.phase = _
      rw [changes.here, hp]
      rw [hp] at lead
      split
      · rfl
      · rename_i notLast
        rw [if_neg notLast] at lead
        exact absurd rfl lead.2
    have away : (x, c.2) ≠ c := fun eq => other (congrArg Prod.fst eq)
    have arrived := (changes.arrived hy away).mp
      ((abs'.rows c.2).full_of_holds c.1 (Or.inl last) x)
    refine ⟨by_contra fun polls => inv.others busy x other ⟨arrived.2, polls⟩, arrived.1.trans ?_⟩
    exact (inv.abs.done_of_ne (by rw [idle]; exact nofun)).symm
  · by_cases same : y = c.2
    · subst same
      by_contra none
      -- without a leader the counter would be zero
      have zero := (abs'.rows c.2).cleared all fun x lead => none ⟨x, ?_⟩
      · rw [row] at zero
        exact Nat.succ_ne_zero _ zero
      · have phase : (s'.core (x, c.2)).pc.phase = .rowLead := lead
        refine ⟨by rw [phase]; exact nofun, fun polls => ?_⟩
        rw [polls] at phase
        cases phase
    · exact changes.full_of_ne inv hy same all

/-- The representative of a row arrives at the column. -/
theorem pollingInv_amoY (inv : PollingInv rounds ix iy s) (pc : (s.core c).pc = .amoY)
    (ran : s.exec rounds c = some s') : PollingInv rounds ix iy s' := by
  obtain ⟨p, hp⟩ : ∃ p, p = if isLast G.numY s.barrierY then PollingPc.resetY else .pollIy :=
    ⟨_, rfl⟩
  rw [Polling.exec, pc] at ran
  dsimp only at ran
  rw [← hp] at ran
  have rowDone : s.abs.phase c = .rowDone := congrArg PollingPc.phase pc
  have small : s.barrierY.toNat < G.numY := by
    have new : ¬ s.abs.Passed c.2 := fun passed => (passed c.1).2 (Or.inr rowDone)
    have := inv.abs.cols.count_lt new
    rw [Fintype.card_fin] at this
    exact this
  have phase : p.phase = if s.abs.col + 1 = Fintype.card (Fin G.numY) then .colLead
      else .waiting := by
    rw [hp, ite_isLast G.numY_pos G.numY_lt]
    exact apply_ite PollingPc.phase _ _ _
  have abs : s'.abs = s.abs.arriveCol c := by
    have put := abs_put_calls s c { s.core c with pc := p } rfl
    unfold TreeBarrier.arriveCol
    rw [← phase, ← Option.some.inj ran]
    exact congrArg₂ (fun (b : TreeBarrier (Fin G.numX) (Fin G.numY)) col =>
      { b with col := col }) put (toNat_amoFetchAdd G.numY_lt small)
  have changes : Changes s s' c { s.core c with pc := p } :=
    changes_of_core (by rw [← Option.some.inj ran]; rfl)
  have goes : p = .resetY ∨ p = .pollIy := by
    rw [hp]
    split
    · exact Or.inl rfl
    · exact Or.inr rfl
  have represents : p.Represents := by
    rcases goes with eq | eq <;> rw [eq] <;> exact ⟨nofun, nofun⟩
  have lead : (s.core c).pc.Represents := by
    rw [pc]
    exact ⟨nofun, nofun⟩
  refine pollingInv_lead inv changes lead represents rfl (by rw [pc]; exact nofun)
    ((inv.core c).lead lead ?_) (by rw [← Option.some.inj ran]; rfl)
    (by rw [← Option.some.inj ran]; rfl)
    (by rw [← Option.some.inj ran]; rfl) (by rw [← Option.some.inj ran]; rfl) ?_
  · rcases goes with eq | eq <;> rw [eq] <;> exact nofun
  · rw [abs]
    exact TreeBarrier.inv_step inv.abs (.arriveCol rowDone)

/-- The leader of the column increments the iteration word of the column. -/
theorem pollingInv_amoIy (inv : PollingInv rounds ix iy s) (pc : (s.core c).pc = .amoIy)
    (ran : s.exec rounds c = some s') : PollingInv rounds ix iy s' := by
  rw [Polling.exec, pc] at ran
  dsimp only at ran
  have lead : s.abs.phase c = .colDone := congrArg PollingPc.phase pc
  have abs : s'.abs = s.abs.release c := by
    have put := abs_put_calls s c { s.core c with pc := .amoIx } rfl
    rw [← Option.some.inj ran]
    exact congrArg (fun (b : TreeBarrier (Fin G.numX) (Fin G.numY)) =>
      { b with released := b.released + 1 }) put
  have abs' : s'.abs.Inv := by
    rw [abs]
    exact TreeBarrier.inv_step inv.abs (.release lead)
  have changes : Changes s s' c { s.core c with pc := .amoIx } :=
    changes_of_core (by rw [← Option.some.inj ran]; rfl)
  have hx : s'.releasesX = s.releasesX := by rw [← Option.some.inj ran]; rfl
  have hy : s'.releasesY = s.releasesY + 1 := by rw [← Option.some.inj ran]
  have hix : s'.barrierIx = s.barrierIx := by rw [← Option.some.inj ran]; rfl
  have hiy : s'.barrierIy = amoFetchAdd s.barrierIy := by rw [← Option.some.inj ran]
  have busy : (s.core c).pc ≠ .pollIx := by rw [pc]; exact nofun
  have represents : (s.core c).pc.Represents := by rw [pc]; exact ⟨nofun, nofun⟩
  have passed : ∀ y, s.abs.Passed y := inv.abs.cols.full_of_holds c.2 ⟨c.1, Or.inr lead⟩
  have here : ∀ d, (s.core d).calls = s.releasesY := fun d => (passed d.2 d.1).1.1
  refine ⟨abs', by rw [hix, hx]; exact inv.barrierIx, ?_, fun d => ?_, ?_, fun y all => ?_,
    fun y => Or.inr ?_⟩
  · rw [hiy, hy, inv.barrierIy, amoFetchAdd_count]
  · rw [hx, hy]
    by_cases same : d = c
    · subst same
      rw [changes.here]
      have core := inv.core d
      exact ⟨core.calls_le, fun _ => core.running (by rw [pc]; exact nofun),
        fun _ _ => core.prevX (by rw [pc]; exact nofun) (by rw [pc]; exact nofun),
        fun _ _ _ => core.prevY (by rw [pc]; exact nofun) (by rw [pc]; exact nofun)
          (by rw [pc]; exact nofun),
        Or.inl (core.mine busy),
        fun _ => Nat.lt_succ_of_le (here d).le⟩
    · rw [changes.there d same]
      have core := inv.core d
      exact ⟨core.calls_le, core.running, core.prevX, core.prevY, core.round,
        fun amoIx => Nat.lt_succ_of_lt (core.late amoIx)⟩
  · exact changes.alone inv (fun _ x other => inv.alone c.1 c.2 represents x other)
      (inv.others busy)
  · -- nobody has arrived in the new round
    have new : (s'.core (⟨0, G.numX_pos⟩, y)).calls = s'.releasesY := (all ⟨0, G.numX_pos⟩).1
    have old : (s'.core (⟨0, G.numX_pos⟩, y)).calls = s.releasesY := by
      by_cases same : ((⟨0, G.numX_pos⟩, y) : Cluster G) = c
      · rw [same, changes.here]
        exact here c
      · rw [changes.there _ same]
        exact here _
    rw [old, hy] at new
    exact absurd new (Nat.ne_of_lt (Nat.lt_succ_self _))
  · -- the representative of every row waits
    obtain ⟨x, rep⟩ := inv.full y fun x => (passed y x).1
    have round : s.releasesX y = s.releasesY := by
      have mine := (inv.core (x, y)).mine rep.2
      exact mine.symm.trans (here _)
    refine ⟨by rw [hx, hy, round], x, ?_⟩
    by_cases same : (x, y) = c
    · rw [same, changes.here]
      exact ⟨⟨nofun, nofun⟩, rfl⟩
    · rw [changes.there _ same]
      exact ⟨rep, inv.abs.others_wait lead _ same⟩

/-- What a core leaves with: it has been released, by its row and by the column. -/
theorem coreInv_left {releasesX releasesY : Nat} {ix iy : BitVec 32} (running : me.calls < rounds)
    (round : me.calls + 1 = releasesX) :
    CoreInv rounds ix iy releasesX releasesY { me with pc := .out, calls := me.calls + 1 } where
  calls_le := running
  running := fun moved => absurd rfl moved
  prevX := fun moved => absurd rfl moved
  prevY := fun moved => absurd rfl moved
  round := Or.inl round
  late := nofun

theorem abs_left (core : s'.core = Function.update s.core c
      { s.core c with pc := .out, calls := (s.core c).calls + 1 })
    (hx : s'.barrierX = s.barrierX) (hb : s'.barrierY = s.barrierY)
    (hy : s'.releasesY = s.releasesY) : s'.abs = s.abs.wake c := by
  have put := abs_put s c { s.core c with pc := .out, calls := (s.core c).calls + 1 }
  refine Eq.trans ?_ put
  unfold Polling.abs Polling.put
  rw [core, hx, hb, hy]

/-- The representative of a row releases it and leaves. -/
theorem pollingInv_amoIx (inv : PollingInv rounds ix iy s) (pc : (s.core c).pc = .amoIx)
    (ran : s.exec rounds c = some s') : PollingInv rounds ix iy s' := by
  rw [Polling.exec, pc] at ran
  dsimp only at ran
  have waits : s.abs.phase c = .waiting := congrArg PollingPc.phase pc
  have late : (s.core c).calls < s.releasesY := (inv.core c).late pc
  have represents : (s.core c).pc.Represents := by rw [pc]; exact ⟨nofun, nofun⟩
  have busy : (s.core c).pc ≠ .pollIx := represents.2
  have running : (s.core c).calls < rounds := (inv.core c).running (by rw [pc]; exact nofun)
  have mine : (s.core c).calls = s.releasesX c.2 := (inv.core c).mine busy
  have column : (s.core c).calls + 1 = s.releasesY :=
    ((inv.abs.round c).resolve_left (Nat.ne_of_lt late)).1
  have hcore : s'.core = Function.update s.core c
      { s.core c with pc := .out, calls := (s.core c).calls + 1 } := by
    rw [← Option.some.inj ran]
    rfl
  have changes := changes_of_core hcore
  have hx : s'.releasesX = Function.update s.releasesX c.2 (s.releasesX c.2 + 1) := by
    rw [← Option.some.inj ran]
  have hy : s'.releasesY = s.releasesY := by rw [← Option.some.inj ran]; rfl
  have hix : s'.barrierIx = Function.update s.barrierIx c.2 (amoFetchAdd (s.barrierIx c.2)) := by
    rw [← Option.some.inj ran]
  have hiy : s'.barrierIy = s.barrierIy := by rw [← Option.some.inj ran]; rfl
  have abs : s'.abs = s.abs.wake c :=
    abs_left hcore (by rw [← Option.some.inj ran]; rfl) (by rw [← Option.some.inj ran]; rfl) hy
  have abs' : s'.abs.Inv := by
    rw [abs]
    exact TreeBarrier.inv_step inv.abs (.wake waits late)
  refine ⟨abs', fun y => ?_, by rw [hiy, hy]; exact inv.barrierIy, fun d => ?_, ?_, fun y all => ?_,
    fun y => ?_⟩
  · rw [hix, hx]
    by_cases same : y = c.2
    · subst same
      rw [Function.update_self, Function.update_self, inv.barrierIx, amoFetchAdd_count]
    · rw [Function.update_of_ne same, Function.update_of_ne same]
      exact inv.barrierIx y
  · rw [hx, hy]
    by_cases same : d = c
    · subst same
      rw [changes.here, Function.update_self]
      exact coreInv_left running (congrArg (· + 1) mine)
    · rw [changes.there d same]
      by_cases row : d.2 = c.2
      · -- the others of the row poll, and are released
        rw [row, Function.update_self]
        obtain ⟨x, y⟩ := d
        obtain rfl : y = c.2 := row
        have other : x ≠ c.1 := fun eq => same (Prod.ext eq rfl)
        obtain ⟨polls, calls⟩ := inv.alone c.1 c.2 represents x other
        have core := inv.core (x, c.2)
        exact ⟨core.calls_le, core.running, core.prevX, core.prevY,
          Or.inr ⟨by rw [calls]; exact congrArg (· + 1) mine, polls⟩,
          fun amoIx => core.late amoIx⟩
      · rw [Function.update_of_ne row]
        exact inv.core d
  · exact changes.alone inv (fun lead => absurd rfl lead.1) (inv.others busy)
  · by_cases same : y = c.2
    · subst same
      have idle : (s'.core c).pc.phase ≠ .idle := (all c.1).2
      rw [changes.here] at idle
      exact absurd rfl idle
    · exact changes.full_of_ne inv hy same all
  · rw [hx, hy]
    by_cases same : y = c.2
    · subst same
      rw [Function.update_self, ← mine]
      exact Or.inl column
    · rw [Function.update_of_ne same]
      refine (inv.rows y).imp id fun ⟨behind, x, lead, wait⟩ => ⟨behind, x, ?_⟩
      rw [changes.there _ fun eq => same (congrArg Prod.snd eq)]
      exact ⟨lead, wait⟩

/-- A core that polls for its row and sees another value has been released. -/
theorem released_of_polled (inv : PollingInv rounds ix iy s) (pc : (s.core c).pc = .pollIx)
    (changed : s.barrierIx c.2 ≠ (s.core c).prevX) :
    (s.core c).calls + 1 = s.releasesX c.2 ∧ (s.core c).calls < s.releasesY := by
  have core := inv.core c
  have sampled := core.prevX (by rw [pc]; exact nofun) (by rw [pc]; exact nofun)
  have next : (s.core c).calls + 1 = s.releasesX c.2 := by
    rcases core.round with same | ⟨next, -⟩
    · rw [inv.barrierIx, sampled, same] at changed
      exact absurd rfl changed
    · exact next
  refine ⟨next, ?_⟩
  rcases inv.rows c.2 with same | ⟨behind, -⟩ <;> omega

theorem pollingInv_pollIx (inv : PollingInv rounds ix iy s) (pc : (s.core c).pc = .pollIx)
    (changed : s.barrierIx c.2 ≠ (s.core c).prevX) :
    PollingInv rounds ix iy
      (s.put c { s.core c with pc := .out, calls := (s.core c).calls + 1 }) := by
  obtain ⟨next, late⟩ := released_of_polled inv pc changed
  have waits : s.abs.phase c = .waiting := congrArg PollingPc.phase pc
  have free : ¬ (s.core c).pc.Represents := fun lead => lead.2 pc
  have running : (s.core c).calls < rounds := (inv.core c).running (by rw [pc]; exact nofun)
  have changes : Changes s (s.put c { s.core c with pc := .out, calls := (s.core c).calls + 1 }) c
    { s.core c with pc := .out, calls := (s.core c).calls + 1 } := changes_of_core rfl
  refine ⟨?_, inv.barrierIx, inv.barrierIy, changes.core inv rfl rfl (coreInv_left running next),
    ?_, fun y all => ?_, changes.rows inv free⟩
  · have abs : (s.put c { s.core c with pc := .out, calls := (s.core c).calls + 1 }).abs =
        s.abs.wake c := abs_left rfl rfl rfl rfl
    rw [abs]
    exact TreeBarrier.inv_step inv.abs (.wake waits late)
  · refine changes.alone inv (fun lead => absurd rfl lead.1) fun x other lead => ?_
    -- a representative would not have released the row
    have mine := (inv.core (x, c.2)).mine lead.2
    have same := (inv.alone x c.2 lead c.1 (Ne.symm other)).2
    have calls : (s.core c).calls = s.releasesX c.2 := same.trans mine
    omega
  · by_cases same : y = c.2
    · subst same
      have idle : ((s.put c _).core c).pc.phase ≠ .idle := (all c.1).2
      rw [changes.here] at idle
      exact absurd rfl idle
    · exact changes.full_of_ne inv rfl same all

/-- A representative that polls and sees another value has been released by the column. -/
theorem released_of_polledY (inv : PollingInv rounds ix iy s) (pc : (s.core c).pc = .pollIy)
    (changed : s.barrierIy ≠ (s.core c).prevY) : (s.core c).calls < s.releasesY := by
  have sampled := (inv.core c).prevY (by rw [pc]; exact nofun) (by rw [pc]; exact nofun)
    (by rw [pc]; exact nofun)
  rcases inv.abs.round c with same | ⟨next, -⟩
  · have calls : (s.core c).calls = s.releasesY := same
    rw [inv.barrierIy, sampled, calls] at changed
    exact absurd rfl changed
  · have calls : (s.core c).calls + 1 = s.releasesY := next
    omega

/-- The representative of a row clears the counter of the row. -/
theorem pollingInv_resetX (inv : PollingInv rounds ix iy s) (pc : (s.core c).pc = .resetX)
    (ran : s.exec rounds c = some s') : PollingInv rounds ix iy s' := by
  have lead : (s.core c).pc.Represents := by
    rw [pc]
    exact ⟨nofun, nofun⟩
  rw [Polling.exec, pc] at ran
  obtain rfl := Option.some.inj ran
  refine pollingInv_lead inv (changes_of_core rfl) lead ⟨nofun, nofun⟩ rfl (by rw [pc]; exact nofun)
    ((inv.core c).lead lead nofun) rfl rfl rfl rfl ?_
  have put := abs_put_calls s c { s.core c with pc := .amoY } rfl
  have row := abs_row (s := s) c.2 0
  have abs : Polling.abs { s.put c { s.core c with pc := .amoY } with
      barrierX := Function.update s.barrierX c.2 0 } = s.abs.clearRow c :=
    congrArg₂ (fun (b : TreeBarrier (Fin G.numX) (Fin G.numY)) row => { b with row := row }) put row
  rw [abs]
  exact TreeBarrier.inv_step inv.abs (.clearRow (congrArg PollingPc.phase pc))

/-- The leader of the column clears its counter. -/
theorem pollingInv_resetY (inv : PollingInv rounds ix iy s) (pc : (s.core c).pc = .resetY)
    (ran : s.exec rounds c = some s') : PollingInv rounds ix iy s' := by
  have lead : (s.core c).pc.Represents := by
    rw [pc]
    exact ⟨nofun, nofun⟩
  rw [Polling.exec, pc] at ran
  obtain rfl := Option.some.inj ran
  refine pollingInv_lead inv (changes_of_core rfl) lead ⟨nofun, nofun⟩ rfl (by rw [pc]; exact nofun)
    ((inv.core c).lead lead nofun) rfl rfl rfl rfl ?_
  have put := abs_put_calls s c { s.core c with pc := .amoIy } rfl
  have abs : Polling.abs { s.put c { s.core c with pc := .amoIy } with barrierY := 0 } =
      s.abs.clearCol c :=
    congrArg (fun (b : TreeBarrier (Fin G.numX) (Fin G.numY)) => { b with col := 0 }) put
  rw [abs]
  exact TreeBarrier.inv_step inv.abs (.clearCol (congrArg PollingPc.phase pc))

/-- The representative of a row sees that the column is released. -/
theorem pollingInv_pollIy (inv : PollingInv rounds ix iy s) (pc : (s.core c).pc = .pollIy)
    (changed : s.barrierIy ≠ (s.core c).prevY) :
    PollingInv rounds ix iy (s.put c { s.core c with pc := .amoIx }) := by
  have lead : (s.core c).pc.Represents := by
    rw [pc]
    exact ⟨nofun, nofun⟩
  refine pollingInv_lead inv (changes_of_core rfl) lead ⟨nofun, nofun⟩ rfl (fun _ => rfl)
    ((inv.core c).lead lead fun _ => released_of_polledY inv pc changed) rfl rfl rfl rfl ?_
  have waits : s.abs.phase c = .waiting := congrArg PollingPc.phase pc
  have same : Function.update s.abs.phase c .waiting = s.abs.phase := by
    rw [← waits]
    exact Function.update_eq_self c s.abs.phase
  have put := abs_put_calls s c { s.core c with pc := .amoIx } rfl
  rw [put]
  exact same.symm ▸ inv.abs

/-- A core outside of a call, or one that samples an iteration word. -/
theorem pollingInv_enter (inv : PollingInv rounds ix iy s)
    (pc : (s.core c).pc = .out ∨ (s.core c).pc = .readIx ∨ (s.core c).pc = .readIy)
    (ran : s.exec rounds c = some s') : PollingInv rounds ix iy s' := by
  have core := inv.core c
  have idle : (s.core c).pc.phase = .idle := by
    rcases pc with pc | pc | pc <;> rw [pc] <;> rfl
  have mine : (s.core c).calls = s.releasesX c.2 := by
    apply core.mine
    intro poll
    rw [poll] at idle
    cases idle
  rcases pc with pc | pc | pc
  · rw [Polling.exec, pc] at ran
    dsimp only at ran
    split at ran
    · rename_i more
      obtain rfl := Option.some.inj ran
      refine pollingInv_quiet inv idle rfl rfl ?_
      exact ⟨core.calls_le, fun _ => more, fun _ moved => absurd rfl moved,
        fun _ moved => absurd rfl moved, Or.inl mine, nofun⟩
    · cases ran
  · have running := core.running (by rw [pc]; exact nofun)
    rw [Polling.exec, pc] at ran
    obtain rfl := Option.some.inj ran
    refine pollingInv_quiet inv idle rfl rfl ?_
    refine ⟨core.calls_le, fun _ => running, fun _ _ => ?_, fun _ _ moved => absurd rfl moved,
      Or.inl mine, nofun⟩
    show s.barrierIx c.2 = _
    rw [inv.barrierIx, mine]
  · have running := core.running (by rw [pc]; exact nofun)
    have prevX := core.prevX (by rw [pc]; exact nofun) (by rw [pc]; exact nofun)
    rw [Polling.exec, pc] at ran
    obtain rfl := Option.some.inj ran
    have column : (s.core c).calls = s.releasesY := inv.abs.done_of_ne (by
      show (s.core c).pc.phase ≠ _
      rw [pc]
      exact nofun)
    refine pollingInv_quiet inv idle rfl rfl ?_
    refine ⟨core.calls_le, fun _ => running, fun _ _ => prevX, fun _ _ _ => ?_, Or.inl mine, nofun⟩
    show s.barrierIy = _
    rw [inv.barrierIy, column]

/-- Every access keeps the invariant. -/
theorem pollingInv_exec (inv : PollingInv rounds ix iy s) (ran : s.exec rounds c = some s') :
    PollingInv rounds ix iy s' := by
  cases pc : (s.core c).pc with
  | out => exact pollingInv_enter inv (Or.inl pc) ran
  | readIx => exact pollingInv_enter inv (Or.inr (Or.inl pc)) ran
  | readIy => exact pollingInv_enter inv (Or.inr (Or.inr pc)) ran
  | amoX => exact pollingInv_amoX inv pc ran
  | resetX => exact pollingInv_resetX inv pc ran
  | amoY => exact pollingInv_amoY inv pc ran
  | resetY => exact pollingInv_resetY inv pc ran
  | amoIy => exact pollingInv_amoIy inv pc ran
  | pollIy =>
    rw [Polling.exec, pc] at ran
    dsimp only at ran
    split at ran
    · exact Option.some.inj ran ▸ inv
    · exact Option.some.inj ran ▸ pollingInv_pollIy inv pc ‹_›
  | amoIx => exact pollingInv_amoIx inv pc ran
  | pollIx =>
    rw [Polling.exec, pc] at ran
    dsimp only at ran
    split at ran
    · exact Option.some.inj ran ▸ inv
    · exact Option.some.inj ran ▸ pollingInv_pollIx inv pc ‹_›

/-! ## Going on -/

/-- How far a core is within its call. -/
def PollingPc.stage : PollingPc → Nat
  | .out => 0
  | .readIx => 1
  | .readIy => 2
  | .amoX => 3
  | .resetX => 4
  | .amoY => 5
  | .resetY => 6
  | .amoIy => 7
  | .pollIy => 8
  | .amoIx => 9
  | .pollIx => 10

/-- What is left to do for a core. -/
def PollingCore.work (rounds : Nat) (me : PollingCore) : Nat :=
  (rounds - me.calls) * 12 - me.pc.stage

/-- What is left to do. -/
def Polling.work (rounds : Nat) (s : Polling G) : Nat := ∑ c, (s.core c).work rounds

/-- An access that moves the core on leaves less to do. -/
theorem exec_work (inv : PollingInv rounds ix iy s) (ran : s.exec rounds c = some s')
    (moves : (s'.core c).pc ≠ (s.core c).pc) : s'.work rounds < s.work rounds := by
  have running := (inv.core c).running
  obtain ⟨me, changes, less⟩ : ∃ me, Changes s s' c me ∧
      (me.pc ≠ (s.core c).pc → me.work rounds < (s.core c).work rounds) := by
    cases pc : (s.core c).pc with
    | out =>
      rw [Polling.exec, pc] at ran
      dsimp only at ran
      split at ran
      · refine ⟨_, changes_of_core (by rw [← Option.some.inj ran]; rfl), fun _ => ?_⟩
        simp only [PollingCore.work, pc, PollingPc.stage]
        omega
      · cases ran
    | pollIx | pollIy =>
      have more := running (by rw [pc]; exact nofun)
      rw [Polling.exec, pc] at ran
      dsimp only at ran
      split at ran
      · obtain rfl := Option.some.inj ran
        exact absurd rfl moves
      · refine ⟨_, changes_of_core (by rw [← Option.some.inj ran]; rfl), fun _ => ?_⟩
        simp only [PollingCore.work, pc, PollingPc.stage]
        omega
    | amoX | amoY =>
      have more := running (by rw [pc]; exact nofun)
      rw [Polling.exec, pc] at ran
      refine ⟨_, changes_of_core (by rw [← Option.some.inj ran]; rfl), fun _ => ?_⟩
      simp only [PollingCore.work, pc]
      split <;> simp only [PollingPc.stage] <;> omega
    | readIx | readIy | resetX | resetY | amoIy | amoIx =>
      have more := running (by rw [pc]; exact nofun)
      rw [Polling.exec, pc] at ran
      refine ⟨_, changes_of_core (by rw [← Option.some.inj ran]; rfl), fun _ => ?_⟩
      simp only [PollingCore.work, pc, PollingPc.stage]
      omega
  rw [changes.here] at moves
  refine Finset.sum_lt_sum (fun d _ => ?_) ⟨c, Finset.mem_univ c, ?_⟩
  · by_cases same : d = c
    · rw [same, changes.here]
      exact (less moves).le
    · rw [changes.there d same]
  · rw [changes.here]
    exact less moves

/-- A core that neither polls nor is between two calls moves on. -/
theorem exec_moves (busy : (s.core c).pc ≠ .out) (busyX : (s.core c).pc ≠ .pollIx)
    (busyY : (s.core c).pc ≠ .pollIy) :
    ∃ s', s.exec rounds c = some s' ∧ (s'.core c).pc ≠ (s.core c).pc := by
  cases pc : (s.core c).pc with
  | out => exact absurd pc busy
  | pollIx => exact absurd pc busyX
  | pollIy => exact absurd pc busyY
  | amoX | amoY =>
    rw [Polling.exec, pc]
    refine ⟨_, rfl, ?_⟩
    show (Function.update s.core c _ c).pc ≠ _
    rw [Function.update_self]
    dsimp only
    split <;> exact nofun
  | readIx | readIy | resetX | resetY | amoIy | amoIx =>
    rw [Polling.exec, pc]
    refine ⟨_, rfl, ?_⟩
    show (Function.update s.core c _ c).pc ≠ _
    rw [Function.update_self]
    exact nofun

/-- So does a representative that the column has released. -/
theorem exec_moves_pollIy (inv : PollingInv rounds ix iy s) (pc : (s.core c).pc = .pollIy)
    (late : (s.core c).calls < s.releasesY) :
    s.barrierIy ≠ (s.core c).prevY ∧
      ∃ s', s.exec rounds c = some s' ∧ (s'.core c).pc ≠ (s.core c).pc := by
  have sampled := (inv.core c).prevY (by rw [pc]; exact nofun) (by rw [pc]; exact nofun)
    (by rw [pc]; exact nofun)
  have next : (s.core c).calls + 1 = s.releasesY :=
    ((inv.abs.round c).resolve_left (Nat.ne_of_lt late)).1
  have changed : s.barrierIy ≠ (s.core c).prevY := by
    rw [inv.barrierIy, sampled, ← next]
    exact ofNat_succ_ne _ _
  refine ⟨changed, ?_⟩
  rw [Polling.exec, pc]
  refine ⟨_, congrArg Option.some (if_neg changed), ?_⟩
  show (Function.update s.core c _ c).pc ≠ _
  rw [Function.update_self]
  exact nofun

/-- And one whose row has been released. -/
theorem exec_moves_pollIx (inv : PollingInv rounds ix iy s) (pc : (s.core c).pc = .pollIx)
    (late : (s.core c).calls < s.releasesX c.2) :
    s.barrierIx c.2 ≠ (s.core c).prevX ∧
      ∃ s', s.exec rounds c = some s' ∧ (s'.core c).pc ≠ (s.core c).pc := by
  have sampled := (inv.core c).prevX (by rw [pc]; exact nofun) (by rw [pc]; exact nofun)
  have next : (s.core c).calls + 1 = s.releasesX c.2 :=
    ((inv.core c).round.resolve_left (Nat.ne_of_lt late)).1
  have changed : s.barrierIx c.2 ≠ (s.core c).prevX := by
    rw [inv.barrierIx, sampled, ← next]
    exact ofNat_succ_ne _ _
  refine ⟨changed, ?_⟩
  rw [Polling.exec, pc]
  refine ⟨_, congrArg Option.some (if_neg changed), ?_⟩
  show (Function.update s.core c _ c).pc ≠ _
  rw [Function.update_self]
  exact nofun

/-- Until every cluster has left its last call some core moves on. -/
theorem polling_progress (inv : PollingInv rounds ix iy s) (unfinished : ¬ s.Final rounds) :
    ∃ c s', s.exec rounds c = some s' ∧ (s'.core c).pc ≠ (s.core c).pc := by
  rcases inv.abs.progress with ⟨c, holder⟩ | ⟨c, waits, late⟩ | ⟨c, idle, column⟩
  · -- a leader is never blocked
    have away : ∀ pc, (s.core c).pc = pc → pc.phase.HoldsRow ∨ pc.phase.HoldsCol := by
      rintro pc rfl
      exact holder
    refine ⟨c, exec_moves (fun pc => ?_) (fun pc => ?_) fun pc => ?_⟩ <;>
      rcases away _ pc with (eq | eq) | eq | eq <;> cases eq
  · have phase : (s.core c).pc.phase = .waiting := waits
    have behind : (s.core c).calls < s.releasesY := late
    cases pc : (s.core c).pc with
    | pollIy => exact ⟨c, (exec_moves_pollIy inv pc behind).2⟩
    | amoIx =>
      exact ⟨c, exec_moves (by rw [pc]; exact nofun) (by rw [pc]; exact nofun)
        (by rw [pc]; exact nofun)⟩
    | pollIx =>
      rcases (inv.core c).round with mine | ⟨next, -⟩
      · -- the row is not released yet: its representative is on the way
        rcases inv.rows c.2 with same | ⟨-, x, lead, wait⟩
        · omega
        · have calls : (s.core (x, c.2)).calls = s.releasesX c.2 :=
            (inv.core (x, c.2)).round.resolve_right fun poll => lead.2 poll.2
          have lateX : (s.core (x, c.2)).calls < s.releasesY := by omega
          cases rep : (s.core (x, c.2)).pc with
          | pollIy => exact ⟨_, (exec_moves_pollIy inv rep lateX).2⟩
          | amoIx =>
            exact ⟨_, exec_moves (by rw [rep]; exact nofun) (by rw [rep]; exact nofun)
              (by rw [rep]; exact nofun)⟩
          | pollIx => exact absurd rep lead.2
          | out | readIx | readIy | amoX | resetX | amoY | resetY | amoIy =>
            rw [rep] at wait
            cases wait
      · exact ⟨c, (exec_moves_pollIx inv pc (by omega)).2⟩
    | out | readIx | readIy | amoX | resetX | amoY | resetY | amoIy =>
      rw [pc] at phase
      cases phase
  · by_cases between : (s.core c).pc = .out
    · by_cases more : (s.core c).calls < rounds
      · refine ⟨c, ?_⟩
        rw [Polling.exec, between]
        refine ⟨_, if_pos more, ?_⟩
        show (Function.update s.core c _ c).pc ≠ _
        rw [Function.update_self]
        exact nofun
      · -- one cluster has left its last call, and with it all the others
        refine absurd (fun d => ?_) unfinished
        have all : (s.core d).calls = (s.core c).calls := (column d).trans (column c).symm
        have le := (inv.core d).calls_le
        have done : ¬ (s.core d).calls < rounds := by omega
        exact ⟨by_contra fun inside => done ((inv.core d).running inside), by omega⟩
    · refine ⟨c, exec_moves between (fun pc => ?_) fun pc => ?_⟩
      · have phase : (s.core c).pc.phase = .idle := idle
        rw [pc] at phase
        cases phase
      · have phase : (s.core c).pc.phase = .idle := idle
        rw [pc] at phase
        cases phase

/-- Every state of a run can be completed. -/
theorem polling_completion (inv : PollingInv rounds ix iy s) :
    ∃ s', Relation.ReflTransGen (Polling.Step rounds) s s' ∧ PollingInv rounds ix iy s' ∧
      s'.Final rounds := by
  refine exists_run_to_goal (Polling.Final rounds) (Polling.work rounds) ?_ s inv
  intro s inv unfinished
  obtain ⟨c, s', ran, moves⟩ := polling_progress inv unfinished
  exact ⟨s', ⟨c, ran⟩, pollingInv_exec inv ran, exec_work inv ran moves⟩

end

/-- In every run: no cluster leaves its n-th call before every cluster has entered its n-th call; a
poller whose word has been incremented in its round sees another value than the one it remembers,
and the word is at most one increment ahead; and until the end some core can move on, so that every
run can be completed. -/
theorem polling_barrier (G : Grid) (rounds : Nat) (ix : Fin G.numY → BitVec 32) (iy : BitVec 32)
    (s : Polling G) (run : Polling.Run rounds ix iy s) :
    (∀ c d, (s.core c).calls ≤ s.entered d) ∧
      (∀ c, (s.core c).pc = .pollIx → s.releasesX c.2 ≤ (s.core c).calls + 1 ∧
        ((s.core c).calls < s.releasesX c.2 → s.barrierIx c.2 ≠ (s.core c).prevX)) ∧
      (∀ c, (s.core c).pc = .pollIy → s.releasesY ≤ (s.core c).calls + 1 ∧
        ((s.core c).calls < s.releasesY → s.barrierIy ≠ (s.core c).prevY)) ∧
      (¬ s.Final rounds → ∃ s', Polling.Step rounds s s' ∧ s' ≠ s) ∧
      ∃ s', Relation.ReflTransGen (Polling.Step rounds) s s' ∧ s'.Final rounds := by
  have inv : PollingInv rounds ix iy s :=
    invariant_of_run (PollingInv rounds ix iy) (fun _ _ inv ⟨_, ran⟩ => pollingInv_exec inv ran)
      pollingInv_init run
  refine ⟨fun c d => ?_, fun c pc => ⟨?_, fun late => (exec_moves_pollIx inv pc late).1⟩,
    fun c pc => ⟨?_, fun late => (exec_moves_pollIy inv pc late).1⟩, fun unfinished => ?_, ?_⟩
  · refine (inv.abs.done_le c d).trans ?_
    unfold Polling.entered
    show (s.core d).calls + _ ≤ _
    by_cases between : (s.core d).pc = .out
    · have idle : s.abs.phase d = .idle := congrArg PollingPc.phase between
      rw [if_pos between, if_pos idle]
    · rw [if_neg between]
      split <;> omega
  · rcases (inv.core c).round with same | ⟨next, -⟩ <;> omega
  · have round : (s.core c).calls = s.releasesY ∨ (s.core c).calls + 1 = s.releasesY :=
      (inv.abs.round c).imp id And.left
    omega
  · obtain ⟨c, s', ran, moves⟩ := polling_progress inv unfinished
    exact ⟨s', ⟨c, ran⟩, fun same => moves (by rw [same])⟩
  · obtain ⟨s', rest, -, final⟩ := polling_completion inv
    exact ⟨s', rest, final⟩

/-- Iteration words about to wrap. -/
def pairStart : Polling pair := Polling.init (fun _ => -1) (-1)

/-- Each cluster has made nine accesses. -/
def pairLater : Polling pair :=
  tryEach (Polling.exec 3) pairStart (List.replicate 9 [pair.first, pairRight]).flatten

/-- The right cluster has left its first call, and the left one has not seen yet that its word has
wrapped. -/
theorem polling_barrier_pair :
    (pairLater.core pairRight).calls = 1 ∧ (pairLater.core pair.first).pc = .pollIx ∧
    pairLater.barrierIy = 0 ∧
    (∀ c d, (pairLater.core c).calls ≤ pairLater.entered d) ∧
      (∀ c, (pairLater.core c).pc = .pollIx →
        pairLater.releasesX c.2 ≤ (pairLater.core c).calls + 1 ∧
          ((pairLater.core c).calls < pairLater.releasesX c.2 →
            pairLater.barrierIx c.2 ≠ (pairLater.core c).prevX)) ∧
      (∀ c, (pairLater.core c).pc = .pollIy →
        pairLater.releasesY ≤ (pairLater.core c).calls + 1 ∧
          ((pairLater.core c).calls < pairLater.releasesY →
            pairLater.barrierIy ≠ (pairLater.core c).prevY)) ∧
      (¬ pairLater.Final 3 → ∃ s', Polling.Step 3 pairLater s' ∧ s' ≠ pairLater) ∧
      ∃ s', Relation.ReflTransGen (Polling.Step 3) pairLater s' ∧ s'.Final 3 :=
  ⟨by decide +kernel, by decide +kernel, by decide +kernel,
    polling_barrier pair 3 (fun _ => -1) (-1) pairLater
      (run_tryEach (fun _ c _ ran => ⟨c, ran⟩) _ _)⟩

end SoftHier.Barrier
