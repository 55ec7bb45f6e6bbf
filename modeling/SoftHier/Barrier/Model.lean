import Mathlib.Algebra.Group.Nat.Defs
import SoftHier.Lib.TreeBarrier

/-!
# Synchronisation words

The barriers of the runtime meet in words of the synchronisation memory: one counter for each row of
clusters and one for the column, and for the polling barrier an iteration word beside each counter.
The words are those of the clusters in the middle column and of the cluster in the middle.

* `Grid`: the mesh of clusters, as the registers report it.
* `SyncWord.addr`, `SyncWord.addr_apart`: where the words are, and that they do not overlap.
* `amoFetchAdd`, `isLast`: the atomic add and the test of the value it returns.
-/

namespace SoftHier.Barrier

/-- `ARCH_NUM_CLUSTER_X` and `ARCH_NUM_CLUSTER_Y`, which fit the registers that report them. -/
structure Grid where
  numX : Nat
  numY : Nat
  numX_pos : 0 < numX
  numY_pos : 0 < numY
  numX_lt : numX < 2 ^ 32
  numY_lt : numY < 2 ^ 32

/-- Two clusters in a row. -/
def pair : Grid := ⟨2, 1, Nat.two_pos, Nat.one_pos, by decide, by decide⟩

/-- A cluster, by its `FlexPosition`. -/
abbrev Cluster (G : Grid) := Fin G.numX × Fin G.numY

instance (G : Grid) : Nonempty (Fin G.numX) := ⟨⟨0, G.numX_pos⟩⟩

instance (G : Grid) : Nonempty (Fin G.numY) := ⟨⟨0, G.numY_pos⟩⟩

/-- `cluster_index(x, y)` -/
def clusterIndex (G : Grid) (x y : Nat) : Nat := y * G.numX + x

/-- Cluster 0. -/
def Grid.first (G : Grid) : Cluster G := (⟨0, G.numX_pos⟩, ⟨0, G.numY_pos⟩)

/-- The right cluster of the pair. -/
def pairRight : Cluster pair := (⟨1, by decide⟩, ⟨0, Nat.one_pos⟩)

/-! ## Where the words are -/

/-- The words of the two barriers. -/
inductive SyncWord (G : Grid) where
  | barrierX (y : Fin G.numY)
  | barrierIx (y : Fin G.numY)
  | barrierY
  | barrierIy

/-- The address of a word, relative to `ARCH_SYNC_BASE`. -/
def SyncWord.addr {G : Grid} (syncSize : Nat) : SyncWord G → Nat
  | .barrierX y => clusterIndex G (G.numX / 2) y * syncSize + 8
  | .barrierIx y => clusterIndex G (G.numX / 2) y * syncSize + 12
  | .barrierY => clusterIndex G (G.numX / 2) (G.numY / 2) * syncSize + 16
  | .barrierIy => clusterIndex G (G.numX / 2) (G.numY / 2) * syncSize + 20

/-- Words with the same offset in different clusters lie one cluster apart. -/
theorem cluster_apart {G : Grid} {syncSize x y y' : Nat} (less : y < y') :
    clusterIndex G x y * syncSize + syncSize ≤ clusterIndex G x y' * syncSize := by
  have next : clusterIndex G x y + 1 ≤ clusterIndex G x y' := by
    have rows : (y + 1) * G.numX ≤ y' * G.numX := Nat.mul_le_mul_right _ less
    have pos := G.numX_pos
    rw [Nat.add_mul, Nat.one_mul] at rows
    unfold clusterIndex
    omega
  calc clusterIndex G x y * syncSize + syncSize = (clusterIndex G x y + 1) * syncSize :=
        (Nat.succ_mul _ _).symm
    _ ≤ clusterIndex G x y' * syncSize := Nat.mul_le_mul_right _ next

/-- Different words do not overlap. -/
theorem SyncWord.addr_apart {G : Grid} {syncSize : Nat} (large : 24 ≤ syncSize) {v w : SyncWord G}
    (differ : v ≠ w) : v.addr syncSize + 4 ≤ w.addr syncSize ∨
      w.addr syncSize + 4 ≤ v.addr syncSize := by
  have rows : ∀ a b : Nat, a = b ∨
      clusterIndex G (G.numX / 2) a * syncSize + syncSize ≤
        clusterIndex G (G.numX / 2) b * syncSize ∨
      clusterIndex G (G.numX / 2) b * syncSize + syncSize ≤
        clusterIndex G (G.numX / 2) a * syncSize := by
    intro a b
    rcases Nat.lt_trichotomy a b with less | same | more
    · exact Or.inr (Or.inl (cluster_apart less))
    · exact Or.inl same
    · exact Or.inr (Or.inr (cluster_apart more))
  have offset : ∀ {a b i j : Nat}, i + 4 ≤ 24 → j + 4 ≤ 24 → (i + 4 ≤ j ∨ j + 4 ≤ i) →
      clusterIndex G (G.numX / 2) a * syncSize + i + 4 ≤
          clusterIndex G (G.numX / 2) b * syncSize + j ∨
        clusterIndex G (G.numX / 2) b * syncSize + j + 4 ≤
          clusterIndex G (G.numX / 2) a * syncSize + i := by
    intro a b i j hi hj apart
    rcases rows a b with rfl | before | after <;> omega
  cases v with
  | barrierX y =>
    cases w with
    | barrierX y' =>
      have ne : y.val ≠ y'.val := fun same => differ (congrArg _ (Fin.ext same))
      rcases rows y y' with same | before | after
      · exact absurd same ne
      all_goals simp only [addr]; omega
    | barrierIx | barrierY | barrierIy => exact offset (by decide) (by decide) (by decide)
  | barrierIx y =>
    cases w with
    | barrierIx y' =>
      have ne : y.val ≠ y'.val := fun same => differ (congrArg _ (Fin.ext same))
      rcases rows y y' with same | before | after
      · exact absurd same ne
      all_goals simp only [addr]; omega
    | barrierX | barrierY | barrierIy => exact offset (by decide) (by decide) (by decide)
  | barrierY =>
    cases w with
    | barrierY => exact absurd rfl differ
    | barrierX | barrierIx | barrierIy => exact offset (by decide) (by decide) (by decide)
  | barrierIy =>
    cases w with
    | barrierIy => exact absurd rfl differ
    | barrierX | barrierIx | barrierY => exact offset (by decide) (by decide) (by decide)

/-! ## Atomic operations -/

/-- What `flex_amo_fetch_add` leaves in the word. -/
def amoFetchAdd (word : BitVec 32) : BitVec 32 := word + 1

/-- `flex_get_barrier_num_cluster_x() - flex_get_enable_value() == old` -/
def isLast (num : Nat) (old : BitVec 32) : Prop := BitVec.ofNat 32 num - 1 = old

instance (num : Nat) (old : BitVec 32) : Decidable (isLast num old) :=
  inferInstanceAs (Decidable (_ = _))

section

variable {num : Nat} {old : BitVec 32}

/-- While not all have arrived the counter does not wrap. -/
theorem toNat_amoFetchAdd (small : num < 2 ^ 32) (missing : old.toNat < num) :
    (amoFetchAdd old).toNat = old.toNat + 1 := by
  unfold amoFetchAdd
  rw [BitVec.toNat_add]
  exact Nat.mod_eq_of_lt (Nat.lt_of_le_of_lt missing small)

theorem isLast_iff (pos : 0 < num) (small : num < 2 ^ 32) (old : BitVec 32) :
    isLast num old ↔ old.toNat + 1 = num := by
  have value : (BitVec.ofNat 32 num - 1).toNat = num - 1 := by
    rw [BitVec.toNat_sub, BitVec.toNat_ofNat, Nat.mod_eq_of_lt small]
    have one : (1 : BitVec 32).toNat = 1 := rfl
    omega
  unfold isLast
  rw [← BitVec.toNat_inj, value]
  omega

/-- What the last one to arrive does, by the number of those before it. -/
theorem ite_isLast {α : Type*} (pos : 0 < num) (small : num < 2 ^ 32) (old : BitVec 32) (a b : α) :
    (if isLast num old then a else b) =
      if old.toNat + 1 = Fintype.card (Fin num) then a else b := by
  rw [Fintype.card_fin]
  simp only [← isLast_iff pos small]

end

end SoftHier.Barrier
