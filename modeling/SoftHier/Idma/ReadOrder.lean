import SoftHier.Lib.Transition
import Mathlib.Data.List.Nodup

/-!
# The read reorder buffer of `IDmaBeAxi`

Read bursts are sent to the AXI port and answered in any order.  `issued_axi_burst_order_list` keeps
the order of sending, an answer is put into `OoO_responses_waiting_list`, and from there the bursts
are moved to `read_waiting_bursts` while the oldest burst not moved yet is among the answered ones.

`drain_eq` says what one call of the loop does, `reads_in_order` what holds after any sequence of
sends and answers.  A burst is a request object; it can be sent again once it is no longer
outstanding.
-/

namespace SoftHier.Idma

variable {α : Type*}

/-- The lists of a read backend. -/
structure ReadLists (α : Type*) where
  /-- `issued_axi_burst_order_list` -/
  issued : List α
  /-- `OoO_responses_waiting_list` -/
  waiting : List α
  /-- `read_waiting_bursts` -/
  ready : List α
  /-- The bursts that have left `read_waiting_bursts`, in order. -/
  delivered : List α

/-- A backend after reset. -/
def ReadLists.empty : ReadLists α := ⟨[], [], [], []⟩

/-- The loop of `read_handle_req_end` on the three lists.  With nothing issued and an answer left it
goes on, after a warning, and reads the front of an empty queue: `none`.  Every other round that
does not leave the loop takes a burst off the issued ones. -/
def drain [DecidableEq α] : List α → List α → List α → Option (List α × List α × List α)
  | [], [], ready => some ([], [], ready)
  | [], _ :: _, _ => none
  | req :: issued, waiting, ready =>
      if req ∈ waiting then drain issued (waiting.erase req) (ready ++ [req])
      else some (req :: issued, waiting, ready)

/-- `read_handle_req_end(req)` -/
def ReadLists.readHandleReqEnd [DecidableEq α] (s : ReadLists α) (req : α) : Option (ReadLists α) :=
  (drain s.issued (s.waiting ++ [req]) s.ready).map fun (issued, waiting, ready) =>
    { s with issued, waiting, ready }

/-- What happens to a read backend. -/
inductive ReadEvent (α : Type*) where
  /-- `send_read_burst_to_axi` has sent a burst. -/
  | issue (req : α)
  /-- A burst is answered. -/
  | response (req : α)
  /-- The FSM passes the front of `read_waiting_bursts` on. -/
  | deliver

def ReadLists.step [DecidableEq α] (s : ReadLists α) : ReadEvent α → Option (ReadLists α)
  | .issue req => some { s with issued := s.issued ++ [req] }
  | .response req => s.readHandleReqEnd req
  | .deliver =>
      some { s with ready := s.ready.tail, delivered := s.delivered ++ s.ready.head?.toList }

/-- Outstanding bursts are distinct, and a burst is answered once, after it was issued. -/
def ReadEvent.Allowed (s : ReadLists α) : ReadEvent α → Prop
  | .issue req => req ∉ s.issued
  | .response req => req ∈ s.issued ∧ req ∉ s.waiting
  | .deliver => True

instance ReadEvent.decidableAllowed [DecidableEq α] (s : ReadLists α) (e : ReadEvent α) :
    Decidable (e.Allowed s) :=
  match e with
  | .issue req => inferInstanceAs (Decidable (req ∉ s.issued))
  | .response req => inferInstanceAs (Decidable (req ∈ s.issued ∧ req ∉ s.waiting))
  | .deliver => isTrue trivial

/-- The bursts issued by a sequence of events. -/
def issues (es : List (ReadEvent α)) : List α :=
  es.filterMap fun e => match e with
    | .issue req => some req
    | _ => none

/-- The bursts it answers. -/
def responses (es : List (ReadEvent α)) : List α :=
  es.filterMap fun e => match e with
    | .response req => some req
    | _ => none

/-! ## One call of the loop -/

/-- While the answered bursts are among the issued ones, the loop moves a prefix of the issued
bursts, ends, and leaves an oldest burst that is not answered. -/
theorem drain_eq [DecidableEq α] {issued waiting : List α} (ready : List α)
    (distinct : issued.Nodup) (answered : waiting.Nodup) (sub : ∀ r ∈ waiting, r ∈ issued) :
    ∃ pre post left, issued = pre ++ post ∧ waiting.Perm (pre ++ left) ∧
      drain issued waiting ready = some (post, left, ready ++ pre) ∧
      ∀ r ∈ post.head?, r ∉ left := by
  induction issued generalizing waiting ready with
  | nil =>
      have none : waiting = [] := List.eq_nil_iff_forall_not_mem.mpr fun r hr => nomatch sub r hr
      subst none
      exact ⟨[], [], [], rfl, .refl _, by simp [drain], fun _ h => nomatch h⟩
  | cons req issued ih =>
      obtain ⟨fresh, rest⟩ := List.nodup_cons.mp distinct
      by_cases here : req ∈ waiting
      · have sub' : ∀ r ∈ waiting.erase req, r ∈ issued := by
          intro r hr
          obtain ⟨other, hr⟩ := answered.mem_erase_iff.mp hr
          rcases List.mem_cons.mp (sub r hr) with rfl | hr
          · exact absurd rfl other
          · exact hr
        obtain ⟨pre, post, left, split, moved, run, stuck⟩ :=
          ih (ready ++ [req]) rest (answered.erase req) sub'
        refine ⟨req :: pre, post, left, by rw [split]; rfl, ?_, ?_, stuck⟩
        · exact (List.perm_cons_erase here).trans (moved.cons req)
        · rw [drain, if_pos here, run, List.append_assoc, List.singleton_append]
      · refine ⟨[], req :: issued, waiting, rfl, .refl _, ?_, ?_⟩
        · rw [drain, if_neg here, List.append_nil]
        · intro r hr
          obtain rfl := Option.some.inj hr
          exact here

/-! ## Every sequence of events -/

section

variable {es : List (ReadEvent α)} {r : α}

@[simp] theorem issues_snoc_issue : issues (es ++ [.issue r]) = issues es ++ [r] := by
  simp [issues]

@[simp] theorem issues_snoc_response : issues (es ++ [.response r]) = issues es := by
  simp [issues]

@[simp] theorem issues_snoc_deliver : issues (es ++ [.deliver]) = issues es := by
  simp [issues]

@[simp] theorem responses_snoc_issue : responses (es ++ [.issue r]) = responses es := by
  simp [responses]

@[simp] theorem responses_snoc_response :
    responses (es ++ [.response r]) = responses es ++ [r] := by
  simp [responses]

@[simp] theorem responses_snoc_deliver : responses (es ++ [.deliver]) = responses es := by
  simp [responses]

end

/-- The bursts moved to `read_waiting_bursts` so far, in order. -/
def ReadLists.moved (s : ReadLists α) : List α := s.delivered ++ s.ready

/-- What holds after the events `es`. -/
structure InOrder (es : List (ReadEvent α)) (s : ReadLists α) : Prop where
  /-- The bursts moved so far and those to be moved are those issued, in order. -/
  order : s.moved ++ s.issued = issues es
  /-- An answered burst has been moved or is held back. -/
  answered : (responses es).Perm (s.moved ++ s.waiting)
  distinct : s.issued.Nodup
  once : s.waiting.Nodup
  outstanding : ∀ r ∈ s.waiting, r ∈ s.issued
  /-- The oldest burst not moved yet is not answered. -/
  stuck : ∀ r ∈ s.issued.head?, r ∉ s.waiting

/-- Each event keeps the order, and the loop ends. -/
theorem InOrder.step [DecidableEq α] {es : List (ReadEvent α)} {s : ReadLists α}
    (inv : InOrder es s) {e : ReadEvent α} (ok : e.Allowed s) :
    ∃ t, s.step e = some t ∧ InOrder (es ++ [e]) t := by
  obtain ⟨order, answered, distinct, once, outstanding, stuck⟩ := inv
  cases e with
  | issue req =>
      refine ⟨_, rfl, ?_, ?_, ?_, once, fun r hr => List.mem_append_left _ (outstanding r hr), ?_⟩
      · show s.moved ++ (s.issued ++ [req]) = _
        rw [issues_snoc_issue, ← order, List.append_assoc]
      · rw [responses_snoc_issue]
        exact answered
      · exact List.nodup_append'.mpr ⟨distinct, List.nodup_singleton _,
          List.disjoint_singleton.mpr ok⟩
      · -- an answered burst is among those issued before
        intro r hr hwait
        cases issued : s.issued with
        | nil =>
            have mem := outstanding r hwait
            rw [issued] at mem
            cases mem
        | cons first rest =>
            rw [issued] at hr stuck
            exact stuck r hr hwait
  | response req =>
      obtain ⟨sent, fresh⟩ := ok
      have once' : (s.waiting ++ [req]).Nodup :=
        List.nodup_append'.mpr ⟨once, List.nodup_singleton _, List.disjoint_singleton.mpr fresh⟩
      have sub : ∀ r ∈ s.waiting ++ [req], r ∈ s.issued := by
        intro r hr
        rcases List.mem_append.mp hr with old | new
        · exact outstanding r old
        · rwa [List.mem_singleton.mp new]
      obtain ⟨pre, post, left, split, moved, run, stuck'⟩ := drain_eq s.ready distinct once' sub
      have parts : (pre ++ left).Nodup := moved.nodup_iff.mp once'
      rw [split] at distinct order
      refine ⟨⟨post, left, s.ready ++ pre, s.delivered⟩, ?_, ?_, ?_, ?_, ?_, ?_, stuck'⟩
      · show (drain s.issued (s.waiting ++ [req]) s.ready).map _ = _
        rw [run]
        rfl
      · rw [issues_snoc_response, ← order]
        simp [ReadLists.moved]
      · rw [responses_snoc_response]
        have received : (responses es ++ [req]).Perm (s.moved ++ (s.waiting ++ [req])) := by
          rw [← List.append_assoc]
          exact answered.append_right _
        have sorted := received.trans (moved.append_left s.moved)
        simpa [ReadLists.moved] using sorted
      · exact (List.nodup_append'.mp distinct).2.1
      · exact (List.nodup_append'.mp parts).2.1
      · intro r hr
        have inIssued := sub r (moved.mem_iff.mpr (List.mem_append_right _ hr))
        rw [split] at inIssued
        rcases List.mem_append.mp inIssued with inPre | inPost
        · exact absurd hr ((List.nodup_append'.mp parts).2.2 inPre)
        · exact inPost
  | deliver =>
      have same : (s.delivered ++ s.ready.head?.toList) ++ s.ready.tail = s.moved := by
        unfold ReadLists.moved
        rw [List.append_assoc]
        cases s.ready with
        | nil => rfl
        | cons => rfl
      refine ⟨_, rfl, ?_, ?_, distinct, once, outstanding, stuck⟩
      · rw [issues_snoc_deliver, ← order, ← same]
        rfl
      · rw [responses_snoc_deliver]
        rw [← same] at answered
        exact answered

/-- Reads come back in order: whatever the order of issues and answers, the bursts are moved to
`read_waiting_bursts` in the order they were issued, each once; no answered burst is lost or
duplicated or held back when all before it are answered; and no answer is handled with an empty
queue read. -/
theorem reads_in_order [DecidableEq α] (es : List (ReadEvent α)) (s : ReadLists α)
    (run : History ReadLists.step (fun _ s e => e.Allowed s) .empty es s) :
    s.moved ++ s.issued = issues es ∧
      (responses es).Perm (s.moved ++ s.waiting) ∧
      (∀ pre r post, s.issued = pre ++ r :: post → r ∈ s.waiting → ∃ p ∈ pre, p ∉ s.waiting) ∧
      ∀ e : ReadEvent α, e.Allowed s → ∃ t, s.step e = some t := by
  have first : InOrder [] (ReadLists.empty : ReadLists α) :=
    ⟨rfl, .refl _, .nil, .nil, fun _ h => (nomatch h), fun _ h => (nomatch h)⟩
  obtain ⟨inv, progress⟩ := run.sound InOrder first fun es s e inv ok => inv.step ok
  refine ⟨inv.order, inv.answered, fun pre r post split held => ?_, progress⟩
  cases pre with
  | nil => exact absurd held (inv.stuck r (by rw [split]; rfl))
  | cons p pre => exact ⟨p, List.mem_cons_self, inv.stuck p (by rw [split]; rfl)⟩

/-- Two bursts answered in reverse order. -/
theorem reads_in_order_reversed :
    ∃ s : ReadLists Nat, s.moved = [0, 1] ∧
      s.moved ++ s.issued = issues [.issue 0, .issue 1, .response 1, .response 0] ∧
      (responses [.issue 0, .issue 1, .response 1, .response 0]).Perm (s.moved ++ s.waiting) := by
  have run : History ReadLists.step (fun _ s e => e.Allowed s) .empty
      [.issue 0, .issue 1, .response 1, .response 0] (⟨[], [], [0, 1], []⟩ : ReadLists Nat) :=
    History.execute .nil rfl
  obtain ⟨order, answered, -, -⟩ := reads_in_order _ _ run
  exact ⟨_, rfl, order, answered⟩

end SoftHier.Idma
