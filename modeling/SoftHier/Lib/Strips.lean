import SoftHier.Lib.Word

/-!
# Strip mining

A vector loop works on `total` elements in strips of at most `vlmax`, as `vsetvli` grants them,
with a `do`-`while` loop over the elements that are left.  The counters are `uint32_t`.

* `stripMine`: the loop; `none` if it takes more than `fuel` strips.
* `stripMine_spec`: an invariant that every strip moves on holds behind the last one.
* `stripMine_single`: the elements fit into one strip.
-/

namespace SoftHier

variable {σ : Type*}

/-- `vsetvli` where `vlmax` elements fit. -/
def vsetvli (vlmax avl : Nat) : Nat := min avl vlmax

/-- `do { vl = vsetvli(avl); ...; avl -= vl; p += vl; } while (avl > 0)`, where the body is given
`avl`, `vl` and `p`. -/
def stripMine (vlmax : Nat) (body : Nat → Nat → Nat → σ → σ) : Nat → Nat → Nat → σ → Option σ
  | 0, _, _, _ => none
  | fuel + 1, avl, p, s =>
    let vl := vsetvli vlmax avl
    let s := body avl vl p s
    let avl := sub32 avl vl
    let p := u32 (p + vl)
    if 0 < avl then stripMine vlmax body fuel avl p s else some s

/-- A strip is whole or the last one. -/
theorem vsetvli_cases (vlmax avl : Nat) :
    vsetvli vlmax avl = vlmax ∧ vlmax ≤ avl ∨ vsetvli vlmax avl = avl ∧ avl ≤ vlmax := by
  unfold vsetvli
  omega

theorem stripMine_spec {vlmax total : Nat} (room : 0 < vlmax) (word : total < 2 ^ 32)
    (body : Nat → Nat → Nat → σ → σ) (Inv : Nat → σ → Prop)
    (strip : ∀ p avl s, p + avl = total → (vlmax ∣ p) → Inv p s →
      Inv (p + vsetvli vlmax avl) (body avl (vsetvli vlmax avl) p s)) :
    ∀ fuel p avl s, avl < fuel → p + avl = total → vlmax ∣ p → Inv p s →
      ∃ t, stripMine vlmax body fuel avl p s = some t ∧ Inv total t := by
  intro fuel
  induction fuel with
  | zero => exact fun p avl s less => absurd less (Nat.not_lt_zero _)
  | succ fuel ih =>
      intro p avl s less rest whole inv
      have next := strip p avl s rest whole inv
      unfold stripMine
      dsimp only
      rcases vsetvli_cases vlmax avl with ⟨vl, le⟩ | ⟨vl, le⟩
      · rw [vl] at next ⊢
        have left : sub32 avl vlmax = avl - vlmax := sub32_of_le le (by omega)
        have place : u32 (p + vlmax) = p + vlmax := u32_of_lt (by omega)
        rw [left, place]
        split
        · exact ih _ _ _ (by omega) (by omega) (Nat.dvd_add whole (Nat.dvd_refl _)) next
        · have all : p + vlmax = total := by omega
          exact ⟨_, rfl, all ▸ next⟩
      · rw [vl] at next ⊢
        have left : sub32 avl avl = 0 :=
          (sub32_of_le (Nat.le_refl avl) (by omega)).trans (Nat.sub_self avl)
        rw [left, if_neg (Nat.lt_irrefl 0)]
        exact ⟨_, rfl, rest ▸ next⟩

/-- A loop of one strip. -/
theorem stripMine_single {vlmax total fuel : Nat} (whole : total ≤ vlmax) (word : total < 2 ^ 32)
    {body : Nat → Nat → Nat → σ → σ} {s : σ} :
    stripMine vlmax body (fuel + 1) total 0 s = some (body total total 0 s) := by
  have vl : vsetvli vlmax total = total := Nat.min_eq_left whole
  have left : sub32 total total = 0 :=
    (sub32_of_le (Nat.le_refl total) word).trans (Nat.sub_self total)
  unfold stripMine
  dsimp only
  rw [vl, left, if_neg (Nat.lt_irrefl 0)]

end SoftHier
