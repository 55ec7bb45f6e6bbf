import Mathlib.Data.BitVec

/-!
# Byte buffers

A buffer is a function from positions to bytes.  `memcpy` and `memset` are the copies and fills of
the C library, and `loadLe` and `storeLe` access little-endian words of `n` bytes.

* `memcpy_at`, `memcpy_of_outside`: what a copy writes and what it leaves alone.
* `memcpy_congr`: a copy from two buffers that agree where it reads; `memcpy_append`: a copy in two
  pieces.
* `loadLe_eq_iff`: words are equal exactly if their bytes are.
* `loadLe_storeLe`, `loadLe_storeLe_of_apart`: a word that has been written, and one beside it.
-/

namespace SoftHier

abbrev Byte := BitVec 8

abbrev Buffer := Nat → Byte

/-- `memcpy(&dst[dest], &src[from], size)` -/
def memcpy (dst : Buffer) (dest : Nat) (src : Buffer) (start size : Nat) : Buffer := fun i =>
  if dest ≤ i ∧ i < dest + size then src (start + (i - dest)) else dst i

/-- `memset(dst, 0, size)` -/
def memzero (dst : Buffer) (size : Nat) : Buffer := fun i => if i < size then 0 else dst i

section

variable {dst dst' src src' : Buffer} {dest start size i : Nat}

theorem memcpy_at (inside : i < size) :
    memcpy dst dest src start size (dest + i) = src (start + i) := by
  unfold memcpy
  rw [if_pos ⟨Nat.le_add_right _ _, Nat.add_lt_add_left inside _⟩, Nat.add_sub_cancel_left]

theorem memcpy_of_outside (outside : i < dest ∨ dest + size ≤ i) :
    memcpy dst dest src start size i = dst i := by
  unfold memcpy
  rw [if_neg (by omega)]

@[simp] theorem memcpy_size_zero : memcpy dst dest src start 0 = dst :=
  funext fun _ => memcpy_of_outside (by omega)

/-- Copies from buffers that agree where they are read, to buffers that agree at `i`. -/
theorem memcpy_congr {start' : Nat} (read : ∀ j < size, src (start + j) = src' (start' + j))
    (kept : dst i = dst' i) :
    memcpy dst dest src start size i = memcpy dst' dest src' start' size i := by
  unfold memcpy
  split
  · exact read _ (by omega)
  · exact kept

/-- A copy in two pieces. -/
theorem memcpy_append {start' n : Nat}
    (next : ∀ j < n, src' (start' + j) = src (start + size + j)) :
    memcpy (memcpy dst dest src start size) (dest + size) src' start' n =
      memcpy dst dest src start (size + n) := by
  funext i
  rcases Nat.lt_or_ge i (dest + size) with front | back
  · rw [memcpy_of_outside (.inl front)]
    unfold memcpy
    have same : dest ≤ i ∧ i < dest + size ↔ dest ≤ i ∧ i < dest + (size + n) := by omega
    simp only [same]
  · obtain ⟨j, rfl⟩ := Nat.exists_eq_add_of_le back
    rcases Nat.lt_or_ge j n with inside | behind
    · rw [memcpy_at inside, next j inside, Nat.add_assoc dest,
        memcpy_at (Nat.add_lt_add_left inside _), Nat.add_assoc]
    · rw [memcpy_of_outside (by omega), memcpy_of_outside (by omega), memcpy_of_outside (by omega)]

theorem memzero_of_lt (inside : i < size) : memzero dst size i = 0 := if_pos inside

end

/-! ## Words -/

/-- The little-endian word of `n` bytes at `a`. -/
def loadLe (b : Buffer) (a : Nat) : (n : Nat) → BitVec (8 * n)
  | 0 => 0#0
  | n + 1 => loadLe b (a + 1) n ++ b a

/-- The word `x` is written at `a`. -/
def storeLe (b : Buffer) (a n : Nat) (x : BitVec (8 * n)) : Buffer := fun i =>
  if a ≤ i ∧ i < a + n then x.extractLsb' (8 * (i - a)) 8 else b i

section

variable {b b' : Buffer} {a a' n : Nat}

/-- Bit `k` of byte `i` of a word. -/
theorem getLsbD_loadLe {i k : Nat} (hi : i < n) (hk : k < 8) :
    (loadLe b a n).getLsbD (8 * i + k) = (b (a + i)).getLsbD k := by
  induction n generalizing a i with
  | zero => exact absurd hi (Nat.not_lt_zero _)
  | succ n ih =>
    rw [loadLe]
    refine (BitVec.getLsbD_append ..).trans ?_
    cases i with
    | zero => rw [if_pos (by omega), Nat.mul_zero, Nat.zero_add, Nat.add_zero]
    | succ i =>
      have shift : 8 * (i + 1) + k - 8 = 8 * i + k := by omega
      rw [if_neg (by omega), shift, ih (Nat.lt_of_succ_lt_succ hi)]
      congr 2
      omega

theorem loadLe_eq_iff : loadLe b a n = loadLe b' a' n ↔ ∀ i < n, b (a + i) = b' (a' + i) := by
  constructor
  · intro same i hi
    apply BitVec.eq_of_getLsbD_eq
    intro k hk
    rw [← getLsbD_loadLe hi hk, ← getLsbD_loadLe hi hk, same]
  · intro bytes
    apply BitVec.eq_of_getLsbD_eq
    intro j hj
    have split : j = 8 * (j / 8) + j % 8 := (Nat.div_add_mod j 8).symm
    have low : j % 8 < 8 := Nat.mod_lt _ (by decide)
    have inside : j / 8 < n := by omega
    rw [split, getLsbD_loadLe inside low, getLsbD_loadLe inside low, bytes _ inside]

theorem loadLe_zero (zero : ∀ i < n, b (a + i) = 0) : loadLe b a n = 0 := by
  have cleared : ∀ n a, loadLe (fun _ => 0) a n = 0 := by
    intro n
    induction n with
    | zero => exact fun _ => rfl
    | succ n ih =>
      intro a
      rw [loadLe, ih]
      exact BitVec.zero_append_zero
  rw [← cleared n a]
  exact loadLe_eq_iff.mpr zero

theorem storeLe_of_outside {x : BitVec (8 * n)} {i : Nat} (outside : i < a ∨ a + n ≤ i) :
    storeLe b a n x i = b i := by
  unfold storeLe
  rw [if_neg (by omega)]

theorem loadLe_storeLe {x : BitVec (8 * n)} : loadLe (storeLe b a n x) a n = x := by
  apply BitVec.eq_of_getLsbD_eq
  intro j hj
  have split : j = 8 * (j / 8) + j % 8 := (Nat.div_add_mod j 8).symm
  have low : j % 8 < 8 := Nat.mod_lt _ (by decide)
  have inside : j / 8 < n := by omega
  have read : storeLe b a n x (a + j / 8) = x.extractLsb' (8 * (j / 8)) 8 := by
    unfold storeLe
    rw [if_pos ⟨Nat.le_add_right _ _, Nat.add_lt_add_left inside _⟩, Nat.add_sub_cancel_left]
  rw [split, getLsbD_loadLe inside low, read, BitVec.getLsbD_extractLsb', decide_eq_true low,
    Bool.true_and]

/-- A word beside the one that is written. -/
theorem loadLe_storeLe_of_apart {x : BitVec (8 * n)} {m : Nat} (apart : a' + m ≤ a ∨ a + n ≤ a') :
    loadLe (storeLe b a n x) a' m = loadLe b a' m :=
  loadLe_eq_iff.mpr fun _ hi => storeLe_of_outside (by omega)

end

end SoftHier
