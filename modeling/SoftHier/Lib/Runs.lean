import Mathlib.Data.List.Range

/-!
# Maximal runs of a predicate

`runsFrom p limit cap s` lists the maximal runs of `p` among the indices from `s` up to `limit`, as
half-open pairs, and stops after `cap` of them.

* `scanFor_spec`: the forward scan stops at the first index at which its predicate holds.
* `mem_runsFrom`: every listed pair is a run, and begins after `s`.
* `runsFrom_pairwise`: listed runs ascend and leave a gap.
* `covered_runsFrom`: an index is inside a listed run exactly when `p` holds there and at most
  `cap` runs begin between `s` and it.
* `runsFrom_eq_take`, `mem_runsFrom_iff`: a smaller `cap` gives the front of the list, and a large
  one exactly the maximal runs.
-/

namespace SoftHier

/-- The first of the `n` indices from `s` on at which `p` holds, `s + n` if there is none. -/
def scanFor (p : Nat → Bool) : Nat → Nat → Nat
  | 0, s => s
  | n + 1, s => if p s then s else scanFor p n (s + 1)

theorem scanFor_spec (p : Nat → Bool) (n s : Nat) :
    s ≤ scanFor p n s ∧ scanFor p n s ≤ s + n ∧
      (∀ i, s ≤ i → i < scanFor p n s → p i = false) ∧
      (scanFor p n s < s + n → p (scanFor p n s) = true) := by
  induction n generalizing s with
  | zero => exact ⟨Nat.le_refl _, Nat.le_refl _, fun i h1 h2 => absurd h1 (Nat.not_le.mpr h2),
      fun h => absurd h (Nat.lt_irrefl _)⟩
  | succ n ih =>
      rw [scanFor]
      split
      · rename_i hit
        exact ⟨Nat.le_refl _, by omega, fun i h1 h2 => absurd h1 (Nat.not_le.mpr h2), fun _ => hit⟩
      · rename_i miss
        obtain ⟨above, below, clear, stop⟩ := ih (s + 1)
        refine ⟨by omega, by omega, fun i h1 h2 => ?_, fun h => stop (by omega)⟩
        rcases Nat.eq_or_lt_of_le h1 with rfl | h1
        · exact Bool.eq_false_iff.mpr miss
        · exact clear i h1 h2

/-- Maximal runs of `p` in `[s, limit)`, at most `cap` of them. -/
def runsFrom (p : Nat → Bool) (limit : Nat) : Nat → Nat → List (Nat × Nat)
  | 0, _ => []
  | cap + 1, s =>
      let first := scanFor p (limit - s) s
      if first < limit then
        let last := scanFor (fun i => !p i) (limit - (first + 1)) (first + 1)
        (first, last) :: runsFrom p limit cap last
      else []

/-- A run of `p` begins at `i`. -/
def runStart (p : Nat → Bool) (i : Nat) : Bool := p i && (i == 0 || !p (i - 1))

/-- Runs that begin at one of the `n` indices from `s` on. -/
def startCount (p : Nat → Bool) (s n : Nat) : Nat := (List.range' s n).countP (runStart p)

theorem startCount_add (p : Nat → Bool) (s m n : Nat) :
    startCount p s (m + n) = startCount p s m + startCount p (s + m) n := by
  unfold startCount
  rw [← List.range'_append_1, List.countP_append]

theorem startCount_eq_zero {p : Nat → Bool} {s n : Nat}
    (none : ∀ i, s ≤ i → i < s + n → runStart p i = false) : startCount p s n = 0 := by
  unfold startCount
  rw [List.countP_eq_zero]
  intro i hi
  obtain ⟨h1, h2⟩ := List.mem_range'_1.mp hi
  rw [none i h1 h2]
  exact Bool.false_ne_true

theorem startCount_one (p : Nat → Bool) (s : Nat) :
    startCount p s 1 = if runStart p s then 1 else 0 := by
  unfold startCount
  simp [List.range'_succ, List.countP_cons]

/-- No run that began before `s` reaches it. -/
def Fresh (p : Nat → Bool) (limit s : Nat) : Prop := s = 0 ∨ limit ≤ s ∨ p s = false

/-- What one round of `runsFrom` finds. -/
structure RunAt (p : Nat → Bool) (limit s first last : Nat) : Prop where
  start_le : s ≤ first
  nonempty : first < last
  last_le : last ≤ limit
  clear : ∀ i, s ≤ i → i < first → p i = false
  full : ∀ i, first ≤ i → i < last → p i = true
  fresh : limit ≤ last ∨ p last = false

section

variable {p : Nat → Bool} {limit s : Nat}

theorem runAt_of_lt (found : scanFor p (limit - s) s < limit) :
    RunAt p limit s (scanFor p (limit - s) s)
      (scanFor (fun i => !p i) (limit - (scanFor p (limit - s) s + 1))
        (scanFor p (limit - s) s + 1)) := by
  obtain ⟨first, hfirst⟩ : ∃ first, first = scanFor p (limit - s) s := ⟨_, rfl⟩
  obtain ⟨above, -, clear, stop⟩ := scanFor_spec p (limit - s) s
  rw [← hfirst] at found above clear stop ⊢
  obtain ⟨above', below', full, stop'⟩ :=
    scanFor_spec (fun i => !p i) (limit - (first + 1)) (first + 1)
  have hit : p first = true := stop (by omega)
  refine ⟨above, above', by omega, clear, fun i h1 h2 => ?_, ?_⟩
  · rcases Nat.eq_or_lt_of_le h1 with rfl | h1
    · exact hit
    · simpa using full i h1 h2
  · by_cases atEnd : limit ≤ scanFor (fun i => !p i) (limit - (first + 1)) (first + 1)
    · exact Or.inl atEnd
    · exact Or.inr (by simpa using stop' (by omega))

theorem clear_of_not_lt (none : ¬ scanFor p (limit - s) s < limit) {i : Nat} (hs : s ≤ i)
    (hi : i < limit) : p i = false := by
  obtain ⟨-, -, clear, -⟩ := scanFor_spec p (limit - s) s
  exact clear i hs (by omega)

namespace RunAt

variable {first last : Nat}

theorem fresh' (h : RunAt p limit s first last) : Fresh p limit last := Or.inr h.fresh

/-- The found index begins a run. -/
theorem runStart_first (h : RunAt p limit s first last) (fresh : Fresh p limit s) :
    runStart p first = true := by
  have hit := h.full first (Nat.le_refl _) h.nonempty
  unfold runStart
  rw [hit, Bool.true_and]
  rcases Nat.eq_or_lt_of_le h.start_le with rfl | later
  · rcases fresh with zero | past | clear
    · simp [zero]
    · exact absurd h.nonempty (by have := h.last_le; omega)
    · rw [clear] at hit
      exact absurd hit Bool.false_ne_true
  · rw [h.clear (first - 1) (by omega) (by omega)]
    simp

/-- No other run begins before the end of the found one. -/
theorem runStart_eq_false (h : RunAt p limit s first last) {i : Nat} (hs : s ≤ i)
    (hi : i < last) (other : i ≠ first) : runStart p i = false := by
  unfold runStart
  by_cases before : i < first
  · rw [h.clear i hs before, Bool.false_and]
  · rw [h.full (i - 1) (by omega) (by omega)]
    have pos : i ≠ 0 := by omega
    simp [pos]

/-- Up to an index inside the found run exactly one run has begun. -/
theorem startCount_inside (h : RunAt p limit s first last) (fresh : Fresh p limit s) {i : Nat}
    (hfirst : first ≤ i) (hlast : i < last) : startCount p s (i + 1 - s) = 1 := by
  have hs := h.start_le
  have parts : i + 1 - s = (first - s) + (1 + (i - first)) := by omega
  have mid : s + (first - s) = first := by omega
  rw [parts, startCount_add, startCount_add, mid, startCount_one, h.runStart_first fresh,
    startCount_eq_zero fun j h1 h2 => h.runStart_eq_false h1 (by omega) (by omega),
    startCount_eq_zero fun j h1 h2 => h.runStart_eq_false (by omega) (by omega) (by omega)]
  rfl

/-- Up to an index behind the found run one more run has begun than from its end on. -/
theorem startCount_behind (h : RunAt p limit s first last) (fresh : Fresh p limit s) {i : Nat}
    (hlast : last ≤ i) : startCount p s (i + 1 - s) = 1 + startCount p last (i + 1 - last) := by
  have hs := h.start_le
  have hne := h.nonempty
  have inside := h.startCount_inside fresh (i := last - 1) (by omega) (by omega)
  have parts : i + 1 - s = (last - 1 + 1 - s) + (i + 1 - last) := by omega
  have mid : s + (last - 1 + 1 - s) = last := by omega
  rw [parts, startCount_add, inside, mid]

end RunAt

/-- Every listed pair is a nonempty stretch on which `p` holds, bounded by `limit`, that cannot be
extended. -/
theorem mem_runsFrom {cap : Nat} {r : Nat × Nat} (fresh : Fresh p limit s)
    (hr : r ∈ runsFrom p limit cap s) :
    s ≤ r.1 ∧ r.1 < r.2 ∧ r.2 ≤ limit ∧ (∀ i, r.1 ≤ i → i < r.2 → p i = true) ∧
      runStart p r.1 = true ∧ (limit ≤ r.2 ∨ p r.2 = false) := by
  induction cap generalizing s with
  | zero => cases hr
  | succ cap ih =>
      rw [runsFrom] at hr
      dsimp only at hr
      split at hr
      · rename_i found
        have run := runAt_of_lt found
        rcases List.mem_cons.mp hr with rfl | hr
        · exact ⟨run.start_le, run.nonempty, run.last_le, run.full, run.runStart_first fresh,
            run.fresh⟩
        · obtain ⟨above, rest⟩ := ih run.fresh' hr
          have h1 := run.start_le
          have h2 := run.nonempty
          exact ⟨by omega, rest⟩
      · cases hr

/-- Listed runs ascend and no two touch. -/
theorem runsFrom_pairwise (cap : Nat) (fresh : Fresh p limit s) :
    (runsFrom p limit cap s).Pairwise fun r t => r.2 < t.1 := by
  induction cap generalizing s with
  | zero => exact List.Pairwise.nil
  | succ cap ih =>
      rw [runsFrom]
      dsimp only
      split
      · rename_i found
        have run := runAt_of_lt found
        refine List.pairwise_cons.mpr ⟨fun t ht => ?_, ih run.fresh'⟩
        obtain ⟨above, nonempty, inside, full, -, -⟩ := mem_runsFrom run.fresh' ht
        rcases Nat.eq_or_lt_of_le above with touch | gap
        · have hit := full t.1 (Nat.le_refl _) nonempty
          rcases run.fresh with past | clear
          · omega
          · rw [← touch, clear] at hit
            exact absurd hit Bool.false_ne_true
        · exact gap
      · exact List.Pairwise.nil

/-- The listed runs cover exactly the indices of the first `cap` runs. -/
theorem covered_runsFrom {cap i : Nat} (fresh : Fresh p limit s) (hs : s ≤ i) :
    (∃ r ∈ runsFrom p limit cap s, r.1 ≤ i ∧ i < r.2) ↔
      i < limit ∧ p i = true ∧ startCount p s (i + 1 - s) ≤ cap := by
  induction cap generalizing s with
  | zero =>
      constructor
      · rintro ⟨r, hr, -⟩
        cases hr
      · rintro ⟨inside, hit, none⟩
        by_cases found : scanFor p (limit - s) s < limit
        · have run := runAt_of_lt found
          by_cases before : i < scanFor p (limit - s) s
          · rw [run.clear i hs before] at hit
            exact absurd hit Bool.false_ne_true
          · have first := run.startCount_inside fresh (Nat.le_refl _) run.nonempty
            have h1 := run.start_le
            have parts : i + 1 - s = (scanFor p (limit - s) s + 1 - s) +
                (i - scanFor p (limit - s) s) := by omega
            rw [parts, startCount_add, first] at none
            omega
        · rw [clear_of_not_lt found hs inside] at hit
          exact absurd hit Bool.false_ne_true
  | succ cap ih =>
      rw [runsFrom]
      dsimp only
      split
      · rename_i found
        have run := runAt_of_lt found
        obtain ⟨first, hfirst⟩ : ∃ first, first = scanFor p (limit - s) s := ⟨_, rfl⟩
        rw [← hfirst] at run ⊢
        obtain ⟨last, hlast⟩ : ∃ last, last =
          scanFor (fun i => !p i) (limit - (first + 1)) (first + 1) := ⟨_, rfl⟩
        rw [← hlast] at run ⊢
        simp only [List.mem_cons, exists_eq_or_imp]
        rcases Nat.lt_or_ge i last with before | behind
        · -- inside or before the found run: no later run reaches back
          have later : ¬ ∃ r ∈ runsFrom p limit cap last, r.1 ≤ i ∧ i < r.2 := by
            rintro ⟨r, hr, h1, -⟩
            have above := (mem_runsFrom run.fresh' hr).1
            omega
          rw [or_iff_left later]
          constructor
          · rintro ⟨h1, -⟩
            have h2 := run.last_le
            have h3 := run.startCount_inside fresh h1 before
            exact ⟨by omega, run.full i h1 before, by omega⟩
          · rintro ⟨-, hit, -⟩
            refine ⟨?_, before⟩
            by_contra h
            rw [run.clear i hs (Nat.not_le.mp h)] at hit
            exact Bool.false_ne_true hit
        · have count := run.startCount_behind fresh behind
          have notFirst : ¬ (first ≤ i ∧ i < last) := fun h => absurd h.2 (Nat.not_lt.mpr behind)
          rw [or_iff_right notFirst, ih run.fresh' behind, count]
          constructor
          · rintro ⟨h1, h2, h3⟩
            exact ⟨h1, h2, by omega⟩
          · rintro ⟨h1, h2, h3⟩
            exact ⟨h1, h2, by omega⟩
      · rename_i none
        constructor
        · rintro ⟨r, hr, -⟩
          cases hr
        · rintro ⟨inside, hit, -⟩
          rw [clear_of_not_lt none hs inside] at hit
          exact absurd hit Bool.false_ne_true

/-! ## All the runs -/

/-- The list with a smaller bound is the front of the one with a larger. -/
theorem runsFrom_eq_take {cap n : Nat} (h : cap ≤ n) :
    runsFrom p limit cap s = (runsFrom p limit n s).take cap := by
  induction cap generalizing s n with
  | zero => rfl
  | succ cap ih =>
      obtain ⟨n, rfl⟩ : ∃ m, n = m + 1 := ⟨n - 1, by omega⟩
      rw [runsFrom, runsFrom]
      dsimp only
      split
      · rw [List.take_succ_cons, ih (Nat.le_of_succ_le_succ h)]
      · rfl

/-- A stretch of indices below `limit` on which `p` holds and that cannot be extended. -/
structure MaximalRun (p : Nat → Bool) (limit first last : Nat) : Prop where
  nonempty : first < last
  last_le : last ≤ limit
  full : ∀ i, first ≤ i → i < last → p i = true
  left : first = 0 ∨ p (first - 1) = false
  right : last = limit ∨ p last = false

namespace MaximalRun

variable {first last first' last' : Nat}

theorem first_le (h : MaximalRun p limit first last) (h' : MaximalRun p limit first' last')
    {i : Nat} (hi : first ≤ i ∧ i < last) (hi' : first' ≤ i ∧ i < last') : first ≤ first' := by
  by_contra later
  have h1 := h'.full (first - 1) (by omega) (by omega)
  rcases h.left with zero | clear
  · omega
  · exact absurd (h1.symm.trans clear) (by decide)

theorem last_le_last (h : MaximalRun p limit first last) (h' : MaximalRun p limit first' last')
    {i : Nat} (hi : first ≤ i ∧ i < last) (hi' : first' ≤ i ∧ i < last') : last' ≤ last := by
  by_contra before
  have h1 := h'.full last (by omega) (by omega)
  rcases h.right with atEnd | clear
  · have h2 := h'.last_le
    omega
  · exact absurd (h1.symm.trans clear) (by decide)

/-- Two maximal runs that share an index are the same. -/
theorem eq_of_mem (h : MaximalRun p limit first last) (h' : MaximalRun p limit first' last')
    {i : Nat} (hi : first ≤ i ∧ i < last) (hi' : first' ≤ i ∧ i < last') :
    first = first' ∧ last = last' :=
  ⟨Nat.le_antisymm (h.first_le h' hi hi') (h'.first_le h hi' hi),
    Nat.le_antisymm (h'.last_le_last h hi' hi) (h.last_le_last h' hi hi')⟩

end MaximalRun

theorem maximalRun_of_mem {cap : Nat} {r : Nat × Nat} (hr : r ∈ runsFrom p limit cap 0) :
    MaximalRun p limit r.1 r.2 := by
  obtain ⟨-, nonempty, inside, full, start, right⟩ := mem_runsFrom (Or.inl rfl) hr
  unfold runStart at start
  rw [Bool.and_eq_true, Bool.or_eq_true, beq_iff_eq] at start
  refine ⟨nonempty, inside, full, ?_, ?_⟩
  · rcases start.2 with zero | clear
    · exact Or.inl zero
    · exact Or.inr (by simpa using clear)
  · rcases right with past | clear
    · exact Or.inl (Nat.le_antisymm inside past)
    · exact Or.inr clear

/-- With room for as many runs as there are indices, the list has exactly the maximal runs. -/
theorem mem_runsFrom_iff {cap : Nat} (room : limit ≤ cap) {r : Nat × Nat} :
    r ∈ runsFrom p limit cap 0 ↔ MaximalRun p limit r.1 r.2 := by
  refine ⟨maximalRun_of_mem, fun run => ?_⟩
  have nonempty := run.nonempty
  have inside := run.last_le
  have count : startCount p 0 (r.1 + 1 - 0) ≤ cap := by
    have le : startCount p 0 (r.1 + 1 - 0) ≤ (List.range' 0 (r.1 + 1 - 0)).length :=
      List.countP_le_length
    rw [List.length_range'] at le
    omega
  obtain ⟨t, ht, h1, h2⟩ := (covered_runsFrom (Or.inl rfl) (Nat.zero_le _)).mpr
    ⟨Nat.lt_of_lt_of_le nonempty inside, run.full r.1 (Nat.le_refl _) nonempty, count⟩
  obtain ⟨first, last⟩ :=
    run.eq_of_mem (maximalRun_of_mem ht) ⟨Nat.le_refl _, nonempty⟩ ⟨h1, h2⟩
  obtain rfl : r = t := Prod.ext first last
  exact ht

end

end SoftHier
