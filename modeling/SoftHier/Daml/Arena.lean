import SoftHier.Daml.Split

/-!
# The arenas of a cluster

A `Window` is a platform whose L1 heap window is nonempty, eight-byte aligned at both ends, does not
start at the null address and leaves at least eight bytes for each core.

* `Window.heapWindow`: such a window has no bytes beside its whole units, so that its arenas are the
  shares of `HeapWindow`.
* `computeCoreArena_eq`: the arena of a core, without the wrap-around of the C arithmetic.
* `Window.arena`: the arena as an `Alloc.Arena`.
* `arena_disjoint`, `exists_arena`: the arenas are apart and cover the window.
* `cluster_run_inv`: along every history of a cluster each core's heap keeps its invariant.
-/

namespace SoftHier.Daml

open Alloc

/-- An L1 heap window with at least eight bytes for each core. -/
structure Window extends Platform where
  base_pos : 0 < heapBase
  base_aligned : heapBase % 8 = 0
  end_aligned : heapEnd % 8 = 0
  end_lt : heapEnd < 2 ^ 32
  slot_pos : 0 < slotSize
  slot_lt : slotSize < 2 ^ 32
  clusters_pos : 0 < numClusters
  cores_pos : 0 < coresPerCluster
  room : 8 * coresPerCluster ≤ heapEnd - heapBase

namespace Window

variable (W : Window)

/-- Bytes of an arena, except that the last one takes the rest of the window. -/
def share : Nat := (W.heapEnd - W.heapBase) / W.coresPerCluster / 8 * 8

theorem base_lt_end : W.heapBase < W.heapEnd := by
  have h1 := W.room
  have h2 := W.cores_pos
  omega

theorem l1HeapSizeBytes_eq : W.l1HeapSizeBytes = W.heapEnd - W.heapBase :=
  sub32_of_le (Nat.le_of_lt W.base_lt_end) W.end_lt

theorem eight_le_share : 8 ≤ W.share := by
  have fits : 8 ≤ (W.heapEnd - W.heapBase) / W.coresPerCluster :=
    (Nat.le_div_iff_mul_le W.cores_pos).mpr W.room
  unfold share
  omega

/-- Where the arena of a core begins. -/
def arenaBase (k : Nat) : Nat := W.heapBase + k * W.share

/-- Where it ends. -/
def arenaStop (k : Nat) : Nat :=
  if k + 1 = W.coresPerCluster then W.heapEnd else W.heapBase + (k + 1) * W.share

/-- The window, as one that is cut into shares. -/
def heapWindow : HeapWindow where
  toPlatform := W.toPlatform
  base_aligned := W.base_aligned
  ordered := Nat.le_of_lt W.base_lt_end
  end_lt := W.end_lt
  cores_pos := W.cores_pos
  cores_lt := by
    have h1 := W.room
    have h2 := W.end_lt
    omega

/-- All of the window is in whole units. -/
theorem heapBase_add_usable : W.heapBase + W.heapWindow.usable = W.heapEnd := by
  have h1 := W.base_aligned
  have h2 := W.end_aligned
  have h3 := W.base_lt_end
  show W.heapBase + (W.heapEnd - W.heapBase) / 8 * 8 = W.heapEnd
  omega

theorem arenaStop_eq (k : Nat) : W.arenaStop k = W.heapWindow.shares.stop k := by
  unfold arenaStop
  rw [← W.heapBase_add_usable]
  rfl

theorem arenaBase_aligned (k : Nat) : W.arenaBase k % 8 = 0 := W.heapWindow.start_aligned k

theorem arenaStop_aligned (k : Nat) : W.arenaStop k % 8 = 0 := by
  unfold arenaStop
  split
  · exact W.end_aligned
  · exact W.arenaBase_aligned (k + 1)

theorem arenaStop_le {k : Nat} (hk : k < W.coresPerCluster) : W.arenaStop k ≤ W.heapEnd := by
  rw [arenaStop_eq, ← W.heapBase_add_usable]
  exact W.heapWindow.shares.stop_le hk

theorem arenaBase_add_share_le {k : Nat} (hk : k < W.coresPerCluster) :
    W.arenaBase k + W.share ≤ W.arenaStop k := by
  rw [arenaStop_eq]
  exact W.heapWindow.shares.start_add_share_le hk

/-- The arena the code computes, in exact arithmetic. -/
theorem computeCoreArena_eq {k : Nat} (hk : k < W.coresPerCluster) :
    computeCoreArena W.toPlatform k = (W.arenaBase k, W.arenaStop k - W.arenaBase k) := by
  rw [arenaStop_eq]
  exact W.heapWindow.computeCoreArena_eq hk

/-- The arena of a core. -/
def arena (k : Nat) (hk : k < W.coresPerCluster) : Arena where
  base := W.arenaBase k
  size := W.arenaStop k - W.arenaBase k
  base_pos := Nat.lt_of_lt_of_le W.base_pos (Nat.le_add_right _ _)
  base_aligned := W.arenaBase_aligned k
  size_pos := by
    have h1 := W.arenaBase_add_share_le hk
    have h2 := W.eight_le_share
    omega
  size_aligned := by
    have h1 := W.arenaBase_aligned k
    have h2 := W.arenaStop_aligned k
    omega
  stop_lt := by
    have h1 := W.arenaBase_add_share_le hk
    have h2 := W.arenaStop_le hk
    have h3 := W.end_lt
    omega

theorem arena_stop {k : Nat} (hk : k < W.coresPerCluster) :
    (W.arena k hk).stop = W.arenaStop k := by
  have h1 := W.arenaBase_add_share_le hk
  show W.arenaBase k + (W.arenaStop k - W.arenaBase k) = W.arenaStop k
  omega

/-- The arenas of two cores are apart. -/
theorem arena_disjoint {j k : Nat} (hj : j < W.coresPerCluster) (hk : k < W.coresPerCluster)
    (other : j ≠ k) : W.arenaStop j ≤ W.arenaBase k ∨ W.arenaStop k ≤ W.arenaBase j := by
  rw [arenaStop_eq, arenaStop_eq]
  exact W.heapWindow.shares.apart hj hk other

/-- Every byte of the window belongs to an arena. -/
theorem exists_arena {a : Nat} (ha : W.heapBase ≤ a) (ha' : a < W.heapEnd) :
    ∃ k < W.coresPerCluster, W.arenaBase k ≤ a ∧ a < W.arenaStop k := by
  rw [← W.heapBase_add_usable] at ha'
  obtain ⟨k, hk, above, below⟩ := W.heapWindow.shares.exists_piece ha ha'
  refine ⟨k, hk, above, ?_⟩
  rw [arenaStop_eq]
  exact below

end Window

/-! ## Histories of one cluster -/

section

variable {W : Window}

@[simp] theorem core_withCore_self (s : Cluster) (k : Nat) (t : Sys) :
    (s.withCore k t).core k = t := by
  simp [Cluster.core, Cluster.withCore]

theorem core_withCore_of_ne (s : Cluster) {j k : Nat} (other : j ≠ k) (t : Sys) :
    (s.withCore k t).core j = ⟨⟨t.heap.mem, (s.core j).heap.firstBlock⟩, (s.core j).live⟩ := by
  simp [Cluster.core, Cluster.withCore, other]

/-- The heap of core `k` keeps its invariant. -/
def CoreInv (W : Window) (s : Cluster) (k : Nat) (hk : k < W.coresPerCluster) : Prop :=
  ∃ free, HeapInv (W.arena k hk) (s.core k) free

/-- A change of one core's heap inside its own arena leaves the other cores' invariants. -/
theorem CoreInv.withCore_of_ne {s : Cluster} {j k : Nat} {hj : j < W.coresPerCluster}
    (h : CoreInv W s j hj) (hk : k < W.coresPerCluster) (other : j ≠ k) {t : Sys}
    (outside : ∀ a, a < (W.arena k hk).base ∨ (W.arena k hk).stop ≤ a →
      t.heap.mem a = s.mem a) :
    CoreInv W (s.withCore k t) j hj := by
  obtain ⟨free, inv⟩ := h
  refine ⟨free, ?_⟩
  rw [core_withCore_of_ne s other t]
  refine inv.frame fun a ha ha' => outside a ?_
  rw [W.arena_stop] at ha' ⊢
  change W.arenaBase j ≤ a at ha
  show a < W.arenaBase k ∨ W.arenaStop k ≤ a
  rcases W.arena_disjoint hj hk other with apart | apart
  · exact Or.inl (by omega)
  · exact Or.inr (by omega)

theorem cluster_step_inv {s t : Cluster} (h : ∀ k hk, CoreInv W s k hk)
    (step : Cluster.Step W.toPlatform s t) : ∀ k hk, CoreInv W t k hk := by
  obtain ⟨k, hk, op, valid, u, run, rfl⟩ := step
  obtain ⟨free, inv⟩ := h k hk
  obtain ⟨u', free', run', inv', outside⟩ := step_inv inv valid
  obtain rfl : u' = u := Option.some.inj (run'.symm.trans run)
  intro j hj
  by_cases same : j = k
  · subst same
    exact ⟨free', by rw [core_withCore_self]; exact inv'⟩
  · exact (h j hj).withCore_of_ne hk same outside

/-- Initialisation of one arena touches nothing outside of it. -/
theorem flexClusterAllocInit_outside (A : Arena) (m : Mem) {a : Nat}
    (outside : a < A.base ∨ A.stop ≤ a) : (A.init m).heap.mem a = m a := by
  have h1 := A.size_pos
  have h2 := A.size_aligned
  have h3 := A.stop_lt
  rw [A.init_heap]
  have apart : a ≠ A.base ∧ a ≠ A.base + 4 := by
    unfold Arena.stop at outside
    omega
  exact header_frame (by omega) apart.1 apart.2

theorem initCores_inv (m : Cluster) {n : Nat} (hn : n ≤ W.coresPerCluster) :
    ∀ k hk, k < n → CoreInv W (initCores W.toPlatform m n) k hk := by
  induction n with
  | zero => exact fun k _ hkn => absurd hkn (Nat.not_lt_zero k)
  | succ n ih =>
      intro k hk hkn
      have hn' : n < W.coresPerCluster := hn
      obtain ⟨s, hs⟩ : ∃ s, s = initCores W.toPlatform m n := ⟨_, rfl⟩
      have shape : initCores W.toPlatform m (n + 1) =
          s.withCore n ((W.arena n hn').init s.mem) := by
        rw [initCores, ← hs, W.computeCoreArena_eq hn']
        rfl
      rw [shape]
      by_cases same : k = n
      · subst same
        refine ⟨[⟨(W.arena k hk).base, (W.arena k hk).size⟩], ?_⟩
        rw [core_withCore_self]
        exact (W.arena k hk).init_inv s.mem
      · have before := ih (Nat.le_of_lt hn') k hk (by omega)
        rw [← hs] at before
        exact before.withCore_of_ne hn' same fun a => flexClusterAllocInit_outside _ _

/-- Along every history of a cluster each core's heap keeps its invariant. -/
theorem cluster_run_inv {m : Mem} {s : Cluster} (run : Cluster.Run W.toPlatform m s) :
    ∀ k hk, CoreInv W s k hk :=
  invariant_of_run (fun s => ∀ k hk, CoreInv W s k hk) (fun _ _ => cluster_step_inv)
    (fun k hk => initCores_inv _ (Nat.le_refl _) k hk hk) run

end

end SoftHier.Daml
