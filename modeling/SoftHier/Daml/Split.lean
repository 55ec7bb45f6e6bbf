import SoftHier.Daml.Model
import SoftHier.Lib.Shares

/-!
# The split of the L1 heap among the cores

`daml_compute_core_arena` and `get_core_arena` of the test program cut the L1 heap window of a
cluster into equal shares of whole eight-byte units; the last core takes the rest.  There may be
more cores than units, and the window need not end at a multiple of eight.

* `HeapWindow`: a window with an aligned base and at least one core.
* `HeapWindow.computeCoreArena_eq`: the arenas are the pieces of `HeapWindow.shares`.
* `HeapWindow.arenas_split`: they are apart, aligned and cover the window up to its last bytes.
-/

namespace SoftHier.Daml

/-! ## The two implementations -/

/-- `soc_daml_set_runtime_dims` in the build `B`. -/
def setRuntimeDims (B : Platform) (numClusters coresPerCluster : Nat) : Platform :=
  { B with
    numClusters := if numClusters ≤ B.numClusters then numClusters else B.numClusters
    coresPerCluster :=
      if coresPerCluster ≤ B.coresPerCluster then coresPerCluster else B.coresPerCluster }

/-- `get_core_arena` of the test program, which splits by `ARCH_NUM_CORE_PER_CLUSTER` of the
build. -/
def getCoreArena (B : Platform) (coreId : Nat) : Nat × Nat :=
  let heapSize := if B.heapEnd > B.heapBase then sub32 B.heapEnd B.heapBase else 0
  let share := if B.coresPerCluster > 0 then heapSize / B.coresPerCluster else 0
  let align := allocBlockSize
  let share := share / align * align
  let base := u32 (B.heapBase + u32 (coreId * share))
  let size := if coreId = sub32 B.coresPerCluster 1 then sub32 B.heapEnd base else share
  (base, size / align * align)

/-- The test program asks for the dimensions of its build. -/
theorem setRuntimeDims_build (B : Platform) :
    setRuntimeDims B B.numClusters B.coresPerCluster = B := by
  unfold setRuntimeDims
  rw [if_pos (Nat.le_refl _), if_pos (Nat.le_refl _)]

/-! ## The pieces -/

/-- An L1 heap window with an aligned base, and at least one core to share it. -/
structure HeapWindow extends Platform where
  base_aligned : heapBase % 8 = 0
  ordered : heapBase ≤ heapEnd
  end_lt : heapEnd < 2 ^ 32
  cores_pos : 0 < coresPerCluster
  cores_lt : coresPerCluster < 2 ^ 32

namespace HeapWindow

variable (H : HeapWindow)

/-- Bytes of the window in whole units. -/
def usable : Nat := (H.heapEnd - H.heapBase) / 8 * 8

/-- Bytes of every arena but the last. -/
def share : Nat := (H.heapEnd - H.heapBase) / H.coresPerCluster / 8 * 8

theorem cores_mul_share_le : H.coresPerCluster * H.share ≤ H.usable := by
  have units : H.coresPerCluster * ((H.heapEnd - H.heapBase) / H.coresPerCluster / 8) ≤
      (H.heapEnd - H.heapBase) / 8 := by
    rw [Nat.div_div_eq_div_mul, Nat.mul_comm H.coresPerCluster 8, ← Nat.div_div_eq_div_mul]
    exact Nat.mul_div_le _ _
  unfold share usable
  rw [← Nat.mul_assoc]
  exact Nat.mul_le_mul_right _ units

/-- The arenas as shares of the whole units of the window. -/
def shares : Shares where
  lo := H.heapBase
  hi := H.heapBase + H.usable
  count := H.coresPerCluster
  share := H.share
  count_pos := H.cores_pos
  fits := Nat.add_le_add_left H.cores_mul_share_le _

theorem usable_le : H.heapBase + H.usable ≤ H.heapEnd := by
  have h1 := H.ordered
  have h2 : H.usable ≤ H.heapEnd - H.heapBase := Nat.div_mul_le_self _ _
  omega

theorem lt_usable : H.heapEnd < H.heapBase + H.usable + 8 := by
  have h1 := H.ordered
  unfold usable
  omega

theorem share_aligned : H.share % 8 = 0 := Nat.mul_mod_left _ _

theorem start_aligned (k : Nat) : H.shares.start k % 8 = 0 := by
  have units : k * H.share % 8 = 0 := by rw [Nat.mul_mod, H.share_aligned]; simp
  have base := H.base_aligned
  show (H.heapBase + k * H.share) % 8 = 0
  omega

/-- What the last core is left with. -/
theorem last_size {k : Nat} (hk : k < H.coresPerCluster) :
    (H.heapEnd - H.shares.start k) / 8 * 8 = H.heapBase + H.usable - H.shares.start k := by
  have above : H.heapBase ≤ H.shares.start k := H.shares.lo_le_start k
  have below : H.shares.start k ≤ H.heapBase + H.usable :=
    H.shares.start_le (Nat.le_of_lt hk)
  have h1 := H.start_aligned k
  have h2 := H.base_aligned
  have h3 := H.ordered
  unfold usable at below ⊢
  omega

/-- The arena the code computes, in exact arithmetic. -/
theorem computeCoreArena_eq {k : Nat} (hk : k < H.coresPerCluster) :
    computeCoreArena H.toPlatform k =
      (H.shares.start k, H.shares.stop k - H.shares.start k) := by
  have ordered := H.ordered
  have top := H.end_lt
  have inside := H.usable_le
  have below : H.shares.start k ≤ H.heapBase + H.usable :=
    H.shares.start_le (Nat.le_of_lt hk)
  have size : (if H.heapEnd > H.heapBase then sub32 H.heapEnd H.heapBase else 0) =
      H.heapEnd - H.heapBase := by
    split
    · exact sub32_of_le ordered top
    · omega
  have share : (if H.coresPerCluster > 0 then (H.heapEnd - H.heapBase) / H.coresPerCluster
      else 0) / allocBlockSize * allocBlockSize = H.share := by
    rw [if_pos H.cores_pos]
    rfl
  have base : u32 (H.heapBase + u32 (k * H.share)) = H.shares.start k := by
    change H.heapBase + k * H.share ≤ _ at below
    rw [u32_of_lt (show k * H.share < 2 ^ 32 by omega), u32_of_lt (by omega)]
    rfl
  have last : sub32 H.coresPerCluster 1 = H.coresPerCluster - 1 :=
    sub32_of_le H.cores_pos H.cores_lt
  have rounded : (if k = H.coresPerCluster - 1 then sub32 H.heapEnd (H.shares.start k)
      else H.share) / allocBlockSize * allocBlockSize =
        H.shares.stop k - H.shares.start k := by
    rcases Nat.decEq (k + 1) H.coresPerCluster with inner | atEnd
    · rw [if_neg (by omega), H.shares.stop_inner inner, Nat.add_sub_cancel_left]
      exact Nat.div_mul_cancel (Nat.dvd_of_mod_eq_zero H.share_aligned)
    · rw [if_pos (by omega), H.shares.stop_last atEnd, sub32_of_le (by omega) top]
      exact H.last_size hk
  unfold computeCoreArena
  simp only [size, share, base, last, rounded]

/-- The bytes of the arena of a core. -/
def arenaBytes (k : Nat) : Block :=
  ⟨(computeCoreArena H.toPlatform k).1, (computeCoreArena H.toPlatform k).2⟩

theorem arenaBytes_stop {k : Nat} (hk : k < H.coresPerCluster) :
    (H.arenaBytes k).stop = H.shares.stop k := by
  have ordered := H.shares.start_le_stop hk
  unfold arenaBytes
  rw [Block.stop_mk, H.computeCoreArena_eq hk]
  exact Nat.add_sub_cancel' ordered

theorem arenaBytes_addr {k : Nat} (hk : k < H.coresPerCluster) :
    (H.arenaBytes k).addr = H.shares.start k := by
  unfold arenaBytes
  rw [H.computeCoreArena_eq hk]

theorem arenaBytes_aligned {k : Nat} (hk : k < H.coresPerCluster) :
    (H.arenaBytes k).addr % 8 = 0 ∧ (H.arenaBytes k).size % 8 = 0 := by
  have size : ∀ n, n / allocBlockSize * allocBlockSize % 8 = 0 := fun n => Nat.mul_mod_left _ 8
  refine ⟨?_, size _⟩
  rw [H.arenaBytes_addr hk]
  exact H.start_aligned k

/-- A byte belongs to an arena exactly when it is in a whole unit of the window. -/
theorem exists_arenaBytes_iff {a : Nat} :
    (∃ k < H.coresPerCluster, a ∈ H.arenaBytes k) ↔
      H.heapBase ≤ a ∧ a < H.heapBase + H.usable := by
  refine Iff.trans ?_ H.shares.exists_piece_iff
  refine exists_congr fun k => and_congr_right fun hk => ?_
  rw [Block.mem_def, H.arenaBytes_addr hk, H.arenaBytes_stop hk]

/-- The arenas of the cores are apart, aligned, inside the window, and make up all of it except
fewer than eight bytes at its end; the test program computes the same arenas. -/
theorem arenas_split :
    (∀ j k, j < H.coresPerCluster → k < H.coresPerCluster → j ≠ k →
      (H.arenaBytes j).Disjoint (H.arenaBytes k)) ∧
    (∀ k < H.coresPerCluster, (H.arenaBytes k).addr % 8 = 0 ∧ (H.arenaBytes k).size % 8 = 0 ∧
      H.heapBase ≤ (H.arenaBytes k).addr ∧ (H.arenaBytes k).stop ≤ H.heapEnd) ∧
    (∃ stop, H.heapBase ≤ stop ∧ stop ≤ H.heapEnd ∧ H.heapEnd < stop + 8 ∧
      ∀ a, (∃ k < H.coresPerCluster, a ∈ H.arenaBytes k) ↔ H.heapBase ≤ a ∧ a < stop) ∧
    ∀ k, getCoreArena H.toPlatform k =
      computeCoreArena (setRuntimeDims H.toPlatform H.numClusters H.coresPerCluster) k := by
  refine ⟨fun j k hj hk other => ?_, fun k hk => ?_, ?_, fun k => ?_⟩
  · unfold Block.Disjoint
    rw [H.arenaBytes_stop hj, H.arenaBytes_stop hk, H.arenaBytes_addr hj, H.arenaBytes_addr hk]
    exact H.shares.apart hj hk other
  · obtain ⟨base, size⟩ := H.arenaBytes_aligned hk
    refine ⟨base, size, ?_, ?_⟩
    · rw [H.arenaBytes_addr hk]
      exact H.shares.lo_le_start k
    · rw [H.arenaBytes_stop hk]
      exact Nat.le_trans (H.shares.stop_le hk) H.usable_le
  · exact ⟨H.heapBase + H.usable, Nat.le_add_right _ _, H.usable_le, H.lt_usable,
      fun a => H.exists_arenaBytes_iff⟩
  · rw [setRuntimeDims_build]
    rfl

end HeapWindow

/-- The last core takes what the shares leave over; in a window of two units, all of it. -/
example : (List.range 3).map (computeCoreArena ⟨64, 94, 1024, 1, 3⟩) =
    [(64, 8), (72, 8), (80, 8)] ∧
    (List.range 3).map (computeCoreArena ⟨64, 82, 1024, 1, 3⟩) =
      [(64, 0), (64, 0), (64, 16)] := by decide

end SoftHier.Daml
