import Mathlib.Logic.Relation

/-!
# Runs of a transition system

A step relation on any type of states, with its runs given by `Relation.ReflTransGen`.

* `invariant_of_run`: what holds initially and is kept by every step holds along every run.
* `tryEach`, `run_tryEach`: the run through given events.
* `exists_run_to_goal`: if every state of an invariant that misses the goal has a step that
  decreases a measure, the goal can be reached from every state of the invariant.

A machine that can fail and whose environment keeps to a rule has its runs, with the events so far,
given by `History`.

* `History.invariant`: what every permitted event keeps holds along every run.
* `History.sound`: an invariant that every permitted event keeps holds along every run, and no
  permitted event fails.
* `Throughout`: a property of the states the events are met in, with `throughout_snoc`.
* `execute`: go through given events.
-/

namespace SoftHier

variable {σ : Type*} {step : σ → σ → Prop}

/-- A property kept by every step holds along every run. -/
theorem invariant_of_run (Inv : σ → Prop) (keep : ∀ s t, Inv s → step s t → Inv t) {s t : σ}
    (start : Inv s) (run : Relation.ReflTransGen step s t) : Inv t := by
  induction run with
  | refl => exact start
  | tail _ last ih => exact keep _ _ ih last

/-- Go through the events; one that fails changes nothing. -/
def tryEach {ε : Type*} (next : σ → ε → Option σ) (s : σ) (es : List ε) : σ :=
  es.foldl (fun s e => (next s e).getD s) s

theorem run_tryEach {ε : Type*} {next : σ → ε → Option σ}
    (each : ∀ s e t, next s e = some t → step s t) (s : σ) (es : List ε) :
    Relation.ReflTransGen step s (tryEach next s es) := by
  induction es generalizing s with
  | nil => exact .refl
  | cons e es ih =>
    have rest := ih ((next s e).getD s)
    cases moves : next s e with
    | none =>
      rw [moves] at rest
      rwa [tryEach, List.foldl_cons, moves]
    | some t =>
      rw [moves] at rest
      rw [tryEach, List.foldl_cons, moves]
      exact .head (each s e t moves) rest

/-- Steps that decrease a measure reach the goal. -/
theorem exists_run_to_goal {Inv : σ → Prop} (goal : σ → Prop) (measure : σ → Nat)
    (progress : ∀ s, Inv s → ¬ goal s → ∃ t, step s t ∧ Inv t ∧ measure t < measure s) :
    ∀ s, Inv s → ∃ t, Relation.ReflTransGen step s t ∧ Inv t ∧ goal t := by
  intro s
  induction hm : measure s using Nat.strongRecOn generalizing s with
  | ind n ih =>
      intro inv
      by_cases done : goal s
      · exact ⟨s, .refl, inv, done⟩
      · obtain ⟨t, first, inv', less⟩ := progress s inv done
        obtain ⟨u, rest, inv'', reached⟩ := ih (measure t) (hm ▸ less) t rfl inv'
        exact ⟨u, .head first rest, inv'', reached⟩

section

variable {ε : Type*}

/-- The events a machine has gone through and the state it has come to: `step` is `none` where the
machine fails, and `allowed` is the rule its environment keeps to. -/
inductive History (step : σ → ε → Option σ) (allowed : List ε → σ → ε → Prop) (start : σ) :
    List ε → σ → Prop where
  | nil : History step allowed start [] start
  | snoc {es : List ε} {s t : σ} {e : ε} (run : History step allowed start es s)
      (ok : allowed es s e) (next : step s e = some t) : History step allowed start (es ++ [e]) t

theorem History.sound {step : σ → ε → Option σ} {allowed : List ε → σ → ε → Prop} {start : σ}
    (Inv : List ε → σ → Prop) (first : Inv [] start)
    (keep : ∀ es s e, Inv es s → allowed es s e → ∃ t, step s e = some t ∧ Inv (es ++ [e]) t)
    {es : List ε} {s : σ} (run : History step allowed start es s) :
    Inv es s ∧ ∀ e, allowed es s e → ∃ t, step s e = some t := by
  have inv : Inv es s := by
    induction run with
    | nil => exact first
    | snoc _ ok next ih =>
      obtain ⟨t, next', inv⟩ := keep _ _ _ ih ok
      rw [next] at next'
      exact Option.some.inj next' ▸ inv
  refine ⟨inv, fun e ok => ?_⟩
  obtain ⟨t, next, -⟩ := keep es s e inv ok
  exact ⟨t, next⟩

/-- A property kept by every permitted event that succeeds holds along every run. -/
theorem History.invariant {step : σ → ε → Option σ} {allowed : List ε → σ → ε → Prop} {start : σ}
    (Inv : σ → Prop) (first : Inv start)
    (keep : ∀ es s e t, Inv s → allowed es s e → step s e = some t → Inv t) {es : List ε} {s : σ}
    (run : History step allowed start es s) : Inv s := by
  induction run with
  | nil => exact first
  | snoc _ ok next ih => exact keep _ _ _ _ ih ok next

section

variable {step : σ → ε → Option σ} {allowed : List ε → σ → ε → Prop} {start : σ} {es : List ε}

/-- A run in an environment that keeps to a stricter rule. -/
theorem History.mono {allowed' : List ε → σ → ε → Prop} {s : σ}
    (weaker : ∀ es s e, allowed es s e → allowed' es s e) (run : History step allowed start es s) :
    History step allowed' start es s := by
  induction run with
  | nil => exact .nil
  | snoc _ ok next ih => exact ih.snoc (weaker _ _ _ ok) next

theorem History.nil_inv {s : σ} (run : History step allowed start [] s) : s = start := by
  obtain ⟨none, shape⟩ : ∃ none : List ε, none = [] := ⟨_, rfl⟩
  rw [← shape] at run
  cases run with
  | nil => rfl
  | snoc => exact absurd shape (by simp)

theorem History.snoc_inv {e : ε} {t : σ} (run : History step allowed start (es ++ [e]) t) :
    ∃ s, History step allowed start es s ∧ step s e = some t := by
  obtain ⟨all, shape⟩ : ∃ all, all = es ++ [e] := ⟨_, rfl⟩
  rw [← shape] at run
  cases run with
  | nil => exact absurd shape (by simp)
  | snoc before ok next =>
      obtain ⟨rfl, last⟩ := List.append_inj' shape rfl
      obtain rfl := List.singleton_inj.mp last
      exact ⟨_, before, next⟩

/-- The events determine the state. -/
theorem History.unique {s t : σ} (run : History step allowed start es s)
    (run' : History step allowed start es t) : s = t := by
  induction run generalizing t with
  | nil => exact run'.nil_inv.symm
  | snoc _ _ next ih =>
      obtain ⟨u, before, next'⟩ := run'.snoc_inv
      rw [← ih before, next] at next'
      exact Option.some.inj next'

/-- Every one of the events `es` is met in a state with the property `P`. -/
def Throughout (step : σ → ε → Option σ) (allowed : List ε → σ → ε → Prop) (start : σ)
    (P : σ → ε → Prop) (es : List ε) : Prop :=
  ∀ pre e post u, es = pre ++ e :: post → History step allowed start pre u → P u e

theorem throughout_nil {P : σ → ε → Prop} : Throughout step allowed start P [] := by
  intro pre e post u shape
  exact absurd shape (by simp)

theorem throughout_snoc {P : σ → ε → Prop} {s : σ} {e : ε}
    (run : History step allowed start es s) :
    Throughout step allowed start P (es ++ [e]) ↔ Throughout step allowed start P es ∧ P s e := by
  constructor
  · intro all
    refine ⟨fun pre e' post u shape before => ?_, all es e [] s rfl run⟩
    exact all pre e' (post ++ [e]) u (by rw [shape, List.append_assoc]; rfl) before
  · rintro ⟨all, last⟩ pre e' post u shape before
    rcases List.eq_nil_or_concat post with rfl | ⟨post', x, rfl⟩
    · obtain ⟨rfl, same⟩ := List.append_inj' shape rfl
      obtain rfl := List.singleton_inj.mp same
      rw [← run.unique before]
      exact last
    · have parts : es ++ [e] = (pre ++ e' :: post') ++ [x] := by
        rw [shape, List.concat_eq_append, List.append_assoc]
        rfl
      exact all pre e' post' u (List.append_inj' parts rfl).1 before

/-- A run in an environment that sees to the property. -/
theorem throughout_of_history {P : σ → ε → Prop} {s : σ}
    (run : History step (fun es s e => allowed es s e ∧ P s e) start es s) :
    Throughout step allowed start P es := by
  induction run with
  | nil => exact throughout_nil
  | snoc run both _ ih =>
      exact (throughout_snoc (run.mono fun _ _ _ both => both.1)).mpr ⟨ih, both.2⟩

end

/-- Go through `more` from the state `s` that `es` led to; `none` when an event is not allowed or
fails. -/
def execute (step : σ → ε → Option σ) (allowed : List ε → σ → ε → Prop)
    [∀ es s e, Decidable (allowed es s e)] : List ε → σ → List ε → Option σ
  | _, s, [] => some s
  | es, s, e :: more =>
      if allowed es s e then (step s e).bind fun t => execute step allowed (es ++ [e]) t more
      else none

theorem History.execute {step : σ → ε → Option σ} {allowed : List ε → σ → ε → Prop}
    [∀ es s e, Decidable (allowed es s e)] {start s t : σ} {es more : List ε}
    (run : History step allowed start es s)
    (done : SoftHier.execute step allowed es s more = some t) :
    History step allowed start (es ++ more) t := by
  induction more generalizing es s with
  | nil =>
      cases done
      rwa [List.append_nil]
  | cons e more ih =>
      unfold SoftHier.execute at done
      split at done
      · rename_i ok
        obtain ⟨u, next, done⟩ := Option.bind_eq_some_iff.mp done
        rw [List.append_cons]
        exact ih (run.snoc ok next) done
      · cases done

end

end SoftHier
