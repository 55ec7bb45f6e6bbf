import SoftHier.Gemm.Allocation

/-!
# The benchmarks without broadcasts, and the one whose broadcast goes astray

In `benchmark_4` each of the sixteen clusters reads its two strips itself, and in `benchmark_2`
each of the four clusters of row 0 does, for the product of the first strip of `A` with `B`.  In
`benchmark_3` cluster `(0, 0)` alone reads the strip of `A` and broadcasts it at the offset of its
own buffer.  All reads and stores are serialised by barriers.

* `sweep`: what a list of clusters does, `benchmark2` and `benchmark4`.
* `benchmark3`: the same with the broadcast, whichever clusters it reaches.
* `sweep_product`: the sweeps leave the product, wherever the buffers of the clusters are.
* `benchmark3_stale`: clusters 1 to 3 of `benchmark_3` multiply what their blocks for the strip of
  `A` held before.
-/

namespace SoftHier.Gemm

/-! ## The programs -/

section

variable {R β : Type*} [Semiring R] {G : Sizes} (P : Arch) (L : Cluster4 → Buffers G)
  (E : Element R β G.elemBytes)

/-- Cluster `c` reads its strips. -/
def System.read (s : System β) (c : Cluster4) : System β :=
  (s.load c (copiesA P (L c) c.2)).load c (copiesB P (L c) c.1)

/-- The clusters multiply their strips and then store their tiles, one after the other. -/
def computeAndStore (workers : List Cluster4) (s : System β) : System β :=
  let s := { s with l1 := fun c =>
    if c ∈ workers then matmul G E ((L c).a P) ((L c).b P) ((L c).c P) (s.l1 c) else s.l1 c }
  dataOut (workers.flatMap fun c => (copiesC P (L c) c).map (c, ·)) s

/-- The clusters read their strips, one after the other, and go on. -/
def sweep (workers : List Cluster4) (s : System β) : System β :=
  computeAndStore P L E workers (workers.foldl (System.read P L) s)

/-- All clusters, row by row. -/
def allClusters : List Cluster4 :=
  (List.finRange 4).flatMap fun ry => (List.finRange 4).map fun rx => (rx, ry)

/-- `benchmark_2`, from the reads on. -/
def benchmark2 (s : System β) : System β := sweep P L E row0 s

/-- `benchmark_4`, from the reads on. -/
def benchmark4 (s : System β) : System β := sweep P L E allClusters s

/-- A broadcast of `size` bytes by cluster `src`, from and to address `addr`, that reaches the
clusters of `reached`. -/
def System.broadcast (s : System β) (reached : Cluster4 → Bool) (src : Cluster4) (addr size : Nat) :
    System β :=
  { s with l1 := fun c =>
    if reached c then
      stores (s.l1 c) (List.range' addr size) (loads (s.l1 src) (List.range' addr size))
    else s.l1 c }

/-- `benchmark_3`, from the reads on. -/
def benchmark3 (reached : Cluster4 → Bool) (s : System β) : System β :=
  let s := s.load leader (copiesA P (L leader) leader.2)
  -- `off_A` is both source and destination, at the start of a TCDM at address 0
  let s := s.broadcast reached leader ((L leader).a P) G.bytesAStrip
  let s := row0.foldl (fun s c => s.load c (copiesB P (L c) c.1)) s
  computeAndStore P L E row0 s

end

/-! ## The loads -/

section

variable {β : Type*} {G : Sizes} {P : Arch} {L : Cluster4 → Buffers G} {workers : List Cluster4}
  {s : System β}

/-- Both loads of a cluster together. -/
theorem read_eq (s : System β) (c : Cluster4) :
    System.read P L s c = s.load c (copiesA P (L c) c.2 ++ copiesB P (L c) c.1) := by
  unfold System.read System.load
  simp only [Function.update_self, Function.update_idem, List.foldl_append]

/-- Every cluster loads into its own memory. -/
theorem foldl_loads (copies : Cluster4 → List Copy) (nodup : workers.Nodup) :
    (workers.foldl (fun s c => s.load c (copies c)) s).hbm = s.hbm ∧
      ∀ c, (workers.foldl (fun s c => s.load c (copies c)) s).l1 c =
        if c ∈ workers then (copies c).foldl (Copy.apply s.hbm) (s.l1 c) else s.l1 c := by
  induction workers generalizing s with
  | nil => exact ⟨rfl, fun c => (if_neg List.not_mem_nil).symm⟩
  | cons d workers ih =>
    obtain ⟨new, nodup⟩ := List.nodup_cons.mp nodup
    obtain ⟨hbm, mine⟩ := ih (s := s.load d (copies d)) nodup
    refine ⟨hbm, fun c => (mine c).trans ?_⟩
    by_cases same : c = d
    · subst same
      rw [if_neg new, if_pos List.mem_cons_self]
      exact Function.update_self _ _ _
    · have there : (s.load d (copies d)).l1 c = s.l1 c := Function.update_of_ne same _ _
      have mem : c ∈ d :: workers ↔ c ∈ workers := by
        rw [List.mem_cons, or_iff_right same]
      simp only [there, mem]
      rfl

theorem row0_nodup : row0.Nodup := (List.nodup_finRange 4).map fun _ _ same => (Prod.mk.inj same).1

theorem mem_row0 {x : Fin 4} : (x, 0) ∈ row0 := List.mem_map_of_mem (List.mem_finRange x)

theorem allClusters_nodup : allClusters.Nodup := by
  decide

theorem mem_allClusters (c : Cluster4) : c ∈ allClusters :=
  List.mem_flatMap.mpr ⟨c.2, List.mem_finRange _, List.mem_map_of_mem (List.mem_finRange c.1)⟩

/-! ## The stores -/

/-- The rows that the workers store are apart. -/
theorem stores_apart (nodup : workers.Nodup) :
    (workers.flatMap fun c => (copiesC P (L c) c).map (c, ·)).Pairwise fun s t =>
      s.2.written.Disjoint t.2.written := by
  rw [List.pairwise_flatMap]
  constructor
  · intro c _
    rw [copiesC_eq, List.map_map, List.pairwise_map]
    apply List.nodup_range.pairwise_of_forall_ne
    intro k hk l hl differ x here there
    exact differ (eq_of_copyC P (L c) (List.mem_range.mp hk) (List.mem_range.mp hl) here there).2
  · apply nodup.pairwise_of_forall_ne
    intro c _ d _ differ s hs t ht x here there
    rw [copiesC_eq, List.map_map] at hs ht
    obtain ⟨k, hk, rfl⟩ := List.mem_map.mp hs
    obtain ⟨l, hl, rfl⟩ := List.mem_map.mp ht
    -- where a row goes does not depend on the buffers
    exact differ (eq_of_copyC P (L c) (List.mem_range.mp hk) (List.mem_range.mp hl) here there).1

/-- The bytes of the tile of cluster `c` in the matrix `C`. -/
def tileOf (P : Arch) (G : Sizes) (c : Cluster4) (x : Nat) : Prop :=
  ∃ k < G.tile, baseC P G + ((c.2 * G.tile + k) * 4 + c.1) * G.rowBytes ≤ x ∧
    x < baseC P G + ((c.2 * G.tile + k) * 4 + c.1) * G.rowBytes + G.rowBytes

variable {R : Type*} [Semiring R] (E : Element R β G.elemBytes)

/-- What the workers leave of their tiles. -/
theorem computeAndStore_c (nodup : workers.Nodup) (s : System β) {c : Cluster4} (mem : c ∈ workers)
    {i j : Nat} (hi : i < G.tile) (hj : j < G.tile) :
    loads (computeAndStore P L E workers s).hbm (List.range' (elemAddr P G G.hbmCBaseOffset
        (c.2 * G.tile + i) (c.1 * G.tile + j)) G.elemBytes) =
      E.encode (dot E ((L c).a P) ((L c).b P) (i, j) (s.l1 c)) := by
  obtain ⟨-, apartA, apartB⟩ := (L c).apart P
  have computed := matmul_c E (s.l1 c) apartA apartB hi hj
  rw [← computed]
  have stored : (c, copyC P (L c) c i) ∈
      workers.flatMap fun c => (copiesC P (L c) c).map (c, ·) := by
    refine List.mem_flatMap.mpr ⟨c, mem, List.mem_map_of_mem ?_⟩
    rw [copiesC_eq]
    exact List.mem_map_of_mem (List.mem_range.mpr hi)
  have to' : elemAddr P G G.hbmCBaseOffset (c.2 * G.tile + i) (c.1 * G.tile + j) =
      (copyC P (L c) c i).dst + j * G.elemBytes := by
    unfold elemAddr hbmAddr
    simp only [copyC, baseC]
    rw [G.hbmCBaseOffset_eq, G.square]
    unfold Sizes.rowBytes
    ring
  have elem : j * G.elemBytes + G.elemBytes ≤ G.rowBytes := row_le G.elemBytes hj
  apply loads_range'_eq_iff.mpr
  intro b hb
  have inside : j * G.elemBytes + b < (copyC P (L c) c i).size := show _ < G.rowBytes by omega
  have placed := foldl_apply_at (m := s.hbm) (fun t : Cluster4 × Copy =>
    if t.1 ∈ workers then matmul G E ((L t.1).a P) ((L t.1).b P) ((L t.1).c P) (s.l1 t.1)
    else s.l1 t.1) Prod.snd (stores_apart (P := P) (L := L) nodup) stored inside
  rw [if_pos mem] at placed
  rw [to', Nat.add_assoc, ← Nat.add_assoc ((L c).c P), Nat.add_assoc ((L c).c P + _)]
  exact placed

/-- Nothing else is stored. -/
theorem computeAndStore_of_not (s : System β) {x : Nat} (other : ∀ c ∈ workers, ¬ tileOf P G c x) :
    (computeAndStore P L E workers s).hbm x = s.hbm x := by
  apply foldl_apply_of_notMem (fun t : Cluster4 × Copy =>
    if t.1 ∈ workers then matmul G E ((L t.1).a P) ((L t.1).b P) ((L t.1).c P) (s.l1 t.1)
    else s.l1 t.1) Prod.snd
  intro t mem here
  obtain ⟨c, worker, mem⟩ := List.mem_flatMap.mp mem
  rw [copiesC_eq, List.map_map] at mem
  obtain ⟨k, hk, rfl⟩ := List.mem_map.mp mem
  rw [Function.comp_apply, mem_written] at here
  exact other c worker ⟨k, List.mem_range.mp hk, here⟩

/-! ## The strips -/

/-- The inner product of a row of the strip of `A` and a column of that of `B`, wherever they came
from. -/
theorem dot_eq {m : Nat → β} {a b addrA addrB i j : Nat} (mA mB : Nat → β)
    (hA : ∀ n < 4 * G.tileBytes, m (a + n) = mA (addrA + n))
    (hB : ∀ k < G.matN, ∀ n < G.rowBytes,
      m (b + k * G.rowBytes + n) = mB (addrB + k * (4 * G.rowBytes) + n))
    (hi : i < G.tile) (hj : j < G.tile) :
    dot E a b (i, j) m = ∑ k ∈ Finset.range G.matN,
      E.load mA (addrA + (i * G.matN + k) * G.elemBytes) *
        E.load mB (addrB + (k * G.matN + j) * G.elemBytes) := by
  apply Finset.sum_congr rfl
  intro k mem
  have hk := Finset.mem_range.mp mem
  obtain ⟨fromA, insideA⟩ := stripA_addr a hi hk
  obtain ⟨fromB, -⟩ := stripB_addr b hk hj
  have elem : j * G.elemBytes + G.elemBytes ≤ G.rowBytes := row_le G.elemBytes hj
  have placeA : (i * G.matN + k) * G.elemBytes = i * (4 * G.rowBytes) + k * G.elemBytes := by
    rw [G.square]
    unfold Sizes.rowBytes
    ring
  have placeB : (k * G.matN + j) * G.elemBytes = k * (4 * G.rowBytes) + j * G.elemBytes := by
    rw [G.square]
    unfold Sizes.rowBytes
    ring
  have left : E.load m (a + (i * (4 * G.rowBytes) + k * G.elemBytes)) =
      E.load mA (addrA + (i * (4 * G.rowBytes) + k * G.elemBytes)) := by
    apply load_eq
    intro n hn
    rw [Nat.add_assoc a, hA _ (by omega), ← Nat.add_assoc addrA]
  have right : E.load m (b + (k * G.rowBytes + j * G.elemBytes)) =
      E.load mB (addrB + (k * (4 * G.rowBytes) + j * G.elemBytes)) := by
    apply load_eq
    intro n hn
    rw [← Nat.add_assoc b, Nat.add_assoc (b + _), hB k hk _ (by omega), ← Nat.add_assoc addrB,
      Nat.add_assoc (addrB + _)]
  rw [fromA, fromB, placeA, placeB, left, right]

variable (L' : Buffers G) (hbm m : Nat → β) (r c : Fin 4)

/-- The load of a strip of `B` leaves that of `A`. -/
theorem loadB_kept {n : Nat} (hn : n < 4 * G.tileBytes) :
    (copiesB P L' c).foldl (Copy.apply hbm) m (L'.a P + n) = m (L'.a P + n) := by
  obtain ⟨apart, -, -⟩ := L'.apart P
  apply foldl_apply_of_notMem (fun _ => hbm) id
  intro k mem here
  have bounds := copiesB_written P L' mem here
  omega

theorem loadB_at {k n : Nat} (hk : k < G.matN) (hn : n < G.rowBytes) :
    (copiesB P L' c).foldl (Copy.apply hbm) m (L'.b P + k * G.rowBytes + n) =
      hbm (P.hbmStartBase + (0x400 + 16 * G.tileBytes + c * G.rowBytes) + k * (4 * G.rowBytes) +
        n) := by
  have row : (⟨L'.b P + k * G.rowBytes,
      P.hbmStartBase + (0x400 + 16 * G.tileBytes + c * G.rowBytes) + k * (4 * G.rowBytes),
      G.rowBytes⟩ : Copy) ∈ copiesB P L' c := by
    rw [copiesB_eq, List.mem_map]
    exact ⟨k, List.mem_range.mpr hk, rfl⟩
  exact foldl_apply_at (m := m) (fun _ => hbm) id (copiesB_apart P L' c) row hn

theorem loadA_at {n : Nat} (hn : n < 4 * G.tileBytes) :
    (copiesA P L' r).foldl (Copy.apply hbm) m (L'.a P + n) =
      hbm (P.hbmStartBase + (0x400 + r * (4 * G.tileBytes)) + n) := by
  rw [copiesA_eq]
  exact foldl_apply_at (m := m) (fun _ => hbm) id (List.pairwise_singleton _ _) List.mem_cons_self
    hn

/-- Elements of the strips are elements of the matrices. -/
theorem strip_elem (i k : Nat) :
    P.hbmStartBase + (0x400 + r * (4 * G.tileBytes)) + (i * G.matN + k) * G.elemBytes =
      elemAddr P G Sizes.hbmABaseOffset (r * G.tile + i) k := by
  unfold elemAddr hbmAddr Sizes.hbmABaseOffset Sizes.tileBytes Sizes.rowBytes
  rw [G.square]
  ring

theorem column_elem (k j : Nat) :
    P.hbmStartBase + (0x400 + 16 * G.tileBytes + c * G.rowBytes) + (k * G.matN + j) * G.elemBytes =
      elemAddr P G G.hbmBBaseOffset k (c * G.tile + j) := by
  unfold elemAddr hbmAddr
  rw [G.hbmBBaseOffset_eq]
  unfold Sizes.rowBytes
  ring

end

/-! ## The sweeps -/

section

variable {R β : Type*} [Semiring R] {G : Sizes} (P : Arch) (L : Cluster4 → Buffers G)
  (E : Element R β G.elemBytes)

/-- The element of the product in row `i` and column `j`. -/
def product (hbm : Nat → β) (i j : Nat) : R :=
  ∑ k ∈ Finset.range G.matN, E.load hbm (elemAddr P G Sizes.hbmABaseOffset i k) *
    E.load hbm (elemAddr P G G.hbmBBaseOffset k j)

omit [Semiring R] in
theorem read_eq_load : System.read P L =
    fun (s : System β) c => s.load c (copiesA P (L c) c.2 ++ copiesB P (L c) c.1) := by
  funext s c
  exact read_eq s c

/-- The matrices are only read. -/
theorem sweep_hbm {workers : List Cluster4} (nodup : workers.Nodup) (s : System β) :
    (workers.foldl (System.read P L) s).hbm = s.hbm := by
  rw [read_eq_load]
  exact (foldl_loads _ nodup).1

/-- A sweep leaves the tiles of its clusters. -/
theorem sweep_c {workers : List Cluster4} (nodup : workers.Nodup) (s : System β) {c : Cluster4}
    (mem : c ∈ workers) {i j : Nat} (hi : i < G.tile) (hj : j < G.tile) :
    loads (sweep P L E workers s).hbm (List.range' (elemAddr P G G.hbmCBaseOffset (c.2 * G.tile + i)
        (c.1 * G.tile + j)) G.elemBytes) =
      E.encode (product P E s.hbm (c.2 * G.tile + i) (c.1 * G.tile + j)) := by
  obtain ⟨-, mine⟩ :=
    foldl_loads (s := s) (fun c => copiesA P (L c) c.2 ++ copiesB P (L c) c.1) nodup
  have own := (mine c).trans (if_pos mem)
  rw [List.foldl_append] at own
  unfold sweep
  rw [computeAndStore_c E nodup _ mem hi hj, read_eq_load, own,
    dot_eq E s.hbm s.hbm (fun n hn => (loadB_kept (L c) s.hbm _ c.1 hn).trans
      (loadA_at (L c) s.hbm (s.l1 c) c.2 hn))
      (fun k hk n hn => loadB_at (L c) s.hbm _ c.1 hk hn) hi hj]
  simp only [strip_elem, column_elem]
  rfl

/-- Where the tiles lie. -/
theorem tileOf_bounds {c : Cluster4} {x : Nat} (here : tileOf P G c x) :
    baseC P G ≤ x ∧ x < baseC P G + (c.2 + 1) * (4 * G.tileBytes) := by
  obtain ⟨k, hk, low, high⟩ := here
  have col := c.1.isLt
  have line : c.2 * G.tile + G.tile = (c.2 + 1) * G.tile := (Nat.succ_mul _ _).symm
  have index : (c.2 * G.tile + k) * 4 + c.1 < (c.2 + 1) * G.tile * 4 := by omega
  have le := row_le G.rowBytes index
  have size : (c.2 + 1) * G.tile * 4 * G.rowBytes = (c.2 + 1) * (4 * G.tileBytes) := by
    unfold Sizes.tileBytes
    ring
  omega

/-- `benchmark_4` leaves the product of `A` and `B`, and `benchmark_2` that of the first strip of
`A` and `B`, wherever the buffers of each cluster are; nothing else in the memory changes. -/
theorem sweep_product (s : System β) :
    (∀ i < G.matN, ∀ j < G.matN,
      loads (benchmark4 P L E s).hbm
          (List.range' (elemAddr P G G.hbmCBaseOffset i j) G.elemBytes) =
        E.encode (product P E s.hbm i j)) ∧
      (∀ x, x < hbmAddr P.hbmStartBase G.hbmCBaseOffset ∨
        hbmAddr P.hbmStartBase (G.hbmCBaseOffset + G.matN * G.matN * G.elemBytes) ≤ x →
          (benchmark4 P L E s).hbm x = s.hbm x) ∧
      (∀ i < G.tile, ∀ j < G.matN,
        loads (benchmark2 P L E s).hbm
            (List.range' (elemAddr P G G.hbmCBaseOffset i j) G.elemBytes) =
          E.encode (product P E s.hbm i j)) ∧
      ∀ x, x < hbmAddr P.hbmStartBase G.hbmCBaseOffset ∨
        hbmAddr P.hbmStartBase (G.hbmCBaseOffset + G.tile * G.matN * G.elemBytes) ≤ x →
          (benchmark2 P L E s).hbm x = s.hbm x := by
  have start : hbmAddr P.hbmStartBase G.hbmCBaseOffset = baseC P G := by
    rw [G.hbmCBaseOffset_eq]
    rfl
  have stop : ∀ n, hbmAddr P.hbmStartBase (G.hbmCBaseOffset + n) = baseC P G + n := fun n => by
    rw [← start]
    exact (Nat.add_assoc _ _ _).symm
  have strip : G.tile * G.matN * G.elemBytes = 4 * G.tileBytes := by
    rw [G.square]
    unfold Sizes.tileBytes Sizes.rowBytes
    ring
  have matrix : G.matN * G.matN * G.elemBytes = 4 * (4 * G.tileBytes) := by
    rw [← strip, G.square]
    ring
  have column : ∀ j < G.matN, j / G.tile < 4 := fun j hj =>
    Nat.div_lt_of_lt_mul (by rw [Nat.mul_comm, ← G.square]; exact hj)
  rw [start, stop, stop, strip, matrix]
  refine ⟨fun i hi j hj => ?_, fun x away => ?_, fun i hi j hj => ?_, fun x away => ?_⟩
  · have stored := sweep_c P L E allClusters_nodup s
      (mem_allClusters (⟨_, column j hj⟩, ⟨_, column i hi⟩)) (Nat.mod_lt i G.tile_pos)
      (Nat.mod_lt j G.tile_pos)
    dsimp only at stored
    rw [Nat.div_add_mod', Nat.div_add_mod'] at stored
    exact stored
  · refine (computeAndStore_of_not E _ fun c _ here => ?_).trans ?_
    · have bounds := tileOf_bounds P here
      have rows : (c.2.val + 1) * (4 * G.tileBytes) ≤ 4 * (4 * G.tileBytes) :=
        Nat.mul_le_mul_right _ c.2.isLt
      omega
    · exact congrFun (sweep_hbm P L allClusters_nodup s) x
  · have stored := sweep_c P L E row0_nodup s (mem_row0 (x := ⟨_, column j hj⟩)) hi
      (Nat.mod_lt j G.tile_pos)
    have first : ((0 : Fin 4) : Nat) * G.tile + i = i := by
      rw [Fin.val_zero, Nat.zero_mul, Nat.zero_add]
    dsimp only at stored
    rw [first, Nat.div_add_mod'] at stored
    exact stored
  · refine (computeAndStore_of_not E _ fun c mem here => ?_).trans ?_
    · obtain ⟨rx, -, rfl⟩ := List.mem_map.mp mem
      have bounds := tileOf_bounds P here
      dsimp only at bounds
      rw [Fin.val_zero, Nat.zero_add, Nat.one_mul] at bounds
      omega
    · exact congrFun (sweep_hbm P L row0_nodup s) x

/-! ## The broadcast that goes astray -/

variable {P L} {A : Alloc.Arena} {m m' : Alloc.Mem}

omit [Semiring R] in
theorem a_bounds (K : Buffers G) : K.rawA ≤ K.a P ∧ K.a P ≤ K.rawA + 63 := by
  have bound := G.bound
  have endA := K.endA
  rw [G.bytesAStrip_eq, u32_of_lt (by omega)] at endA
  have align := alignUpU32_bounds (v := K.rawA) (by omega)
  have place : K.a P = alignUpU32 K.rawA 64 :=
    localAddr_tcdmOffsetFromPtr P.tcdmBase_lt (by omega)
  omega

/-- The strip of `A` of a cluster that has prepared the matrices lies behind that of the others. -/
theorem preload_behind {K K' : Buffers G} (req : Requested A m (preloadRequests G) K)
    (req' : Requested A m' [] K') : K'.a P + 4 * G.tileBytes ≤ K.a P := by
  have first := req.raw fun size mem => requests_valid mem
  have other := req'.raw fun size mem => requests_valid (List.mem_append_right _ mem)
  have before : blocksOf (preloadRequests G) =
      blockOf (4 * G.tileBytes + 64) + blockOf (16 * G.tileBytes + 64) := by
    rw [preloadRequests_eq]
    simp only [blocksOf, List.map_cons, List.map_nil, List.sum_cons, List.sum_nil, Nat.add_zero]
  rw [bufferRequests_eq] at first other
  simp only [places, List.cons.injEq] at first other
  have bounds := a_bounds (P := P) K
  have bounds' := a_bounds (P := P) K'
  have one := blockOf_bounds (4 * G.tileBytes + 64)
  have nothing : blocksOf [] = 0 := rfl
  omega

/-- A broadcast changes nothing in the cluster it comes from. -/
theorem broadcast_self (s : System β) (reached : Cluster4 → Bool) (src : Cluster4)
    (addr size y : Nat) : (s.broadcast reached src addr size).l1 src y = s.l1 src y := by
  unfold System.broadcast
  dsimp only
  split
  · by_cases inside : addr ≤ y ∧ y < addr + size
    · obtain ⟨i, rfl⟩ := Nat.exists_eq_add_of_le inside.1
      exact loads_range'_eq_iff.mp (loads_stores List.nodup_range' length_loads.symm) i (by omega)
    · apply stores_of_notMem
      rw [List.mem_range'_1]
      exact inside
  · rfl

/-- Nor beside the block that it writes. -/
theorem broadcast_kept (s : System β) (reached : Cluster4 → Bool) (src c : Cluster4)
    {addr size y : Nat} (away : y < addr ∨ addr + size ≤ y) :
    (s.broadcast reached src addr size).l1 c y = s.l1 c y := by
  unfold System.broadcast
  dsimp only
  split
  · apply stores_of_notMem
    rw [List.mem_range'_1]
    omega
  · rfl

/-- In `benchmark_3` the tile of cluster `(0, 0)` is a tile of the product of `A` and `B`, but
clusters 1 to 3 multiply what their block for the strip of `A` held before: whichever clusters the
broadcast reaches, it writes behind their strip, because cluster `(0, 0)` has two more blocks. -/
theorem benchmark3_stale (A : Alloc.Arena) (mem : Fin 4 → Alloc.Mem)
    (req : ∀ x, Requested A (mem x) (if x = 0 then preloadRequests G else []) (L (x, 0)))
    (reached : Cluster4 → Bool) (s : System β) (x : Fin 4) {i j : Nat} (hi : i < G.tile)
    (hj : j < G.tile) :
    loads (benchmark3 P L E reached s).hbm
        (List.range' (elemAddr P G G.hbmCBaseOffset i (x * G.tile + j)) G.elemBytes) =
      E.encode (∑ k ∈ Finset.range G.matN,
        (if x = 0 then E.load s.hbm (elemAddr P G Sizes.hbmABaseOffset i k)
          else E.load (s.l1 (x, 0)) ((L (x, 0)).a P + (i * G.matN + k) * G.elemBytes)) *
        E.load s.hbm (elemAddr P G G.hbmBBaseOffset k (x * G.tile + j))) := by
  obtain ⟨s1, hs1⟩ : ∃ s1, s1 = (s.load (0, 0) (copiesA P (L (0, 0)) 0)).broadcast reached (0, 0)
    ((L (0, 0)).a P) G.bytesAStrip := ⟨_, rfl⟩
  have hbm : s1.hbm = s.hbm := by rw [hs1]; rfl
  obtain ⟨-, mine⟩ := foldl_loads (s := s1) (fun c => copiesB P (L c) c.1) row0_nodup
  have own := (mine (x, 0)).trans (if_pos mem_row0)
  have program : benchmark3 P L E reached s =
      computeAndStore P L E row0 (row0.foldl (fun s c => s.load c (copiesB P (L c) c.1)) s1) := by
    rw [hs1]
    rfl
  have first : ((0 : Fin 4) : Nat) * G.tile + i = i := by
    rw [Fin.val_zero, Nat.zero_mul, Nat.zero_add]
  have stored := computeAndStore_c (P := P) (L := L) E row0_nodup
    (row0.foldl (fun s c => s.load c (copiesB P (L c) c.1)) s1) (mem_row0 (x := x)) hi hj
  dsimp only at stored
  rw [first] at stored
  rw [program, stored, own, hbm]
  congr 1
  by_cases source : x = 0
  · subst source
    have held : ∀ n < 4 * G.tileBytes, s1.l1 (0, 0) ((L (0, 0)).a P + n) =
        s.hbm (P.hbmStartBase + (0x400 + ((0 : Fin 4) : Nat) * (4 * G.tileBytes)) + n) := by
      intro n hn
      have loaded : (s.load (0, 0) (copiesA P (L (0, 0)) 0)).l1 (0, 0) =
          (copiesA P (L (0, 0)) 0).foldl (Copy.apply s.hbm) (s.l1 (0, 0)) := by
        simp only [System.load, Function.update_self]
      rw [hs1, broadcast_self, loaded]
      exact loadA_at (L (0, 0)) s.hbm _ 0 hn
    rw [dot_eq E s.hbm s.hbm (fun n hn => (loadB_kept (L (0, 0)) s.hbm _ 0 hn).trans
      (held n hn)) (fun k hk n hn => loadB_at (L (0, 0)) s.hbm _ 0 hk hn) hi hj]
    simp only [strip_elem, column_elem, first, if_true]
  · have held : ∀ n < 4 * G.tileBytes, s1.l1 (x, 0) ((L (x, 0)).a P + n) =
        s.l1 (x, 0) ((L (x, 0)).a P + n) := by
      intro n hn
      have other : (x, (0 : Fin 4)) ≠ (0, 0) := fun same => source (Prod.mk.inj same).1
      have leader := req 0
      have worker := req x
      rw [if_pos rfl] at leader
      rw [if_neg source] at worker
      have behind := preload_behind (P := P) leader worker
      have untouched : (s.load (0, 0) (copiesA P (L (0, 0)) 0)).l1 (x, 0) = s.l1 (x, 0) :=
        Function.update_of_ne other _ _
      rw [hs1, broadcast_kept _ _ _ _ (Or.inl (by omega)), untouched]
    rw [dot_eq E (s.l1 (x, 0)) s.hbm (fun n hn =>
      (loadB_kept (L (x, 0)) s.hbm _ x hn).trans (held n hn))
      (fun k hk n hn => loadB_at (L (x, 0)) s.hbm _ x hk hn) hi hj]
    simp only [column_elem, if_neg source]

end

/-- A heap of a page. -/
def pageArena : Alloc.Arena := ⟨128, 4096, by decide, by decide, by decide, by decide, by decide⟩

theorem requests_oneByOne : ∀ size ∈ preloadRequests oneByOne ++ bufferRequests oneByOne,
    blockOf size < 2 ^ 24 := by
  decide

theorem room_oneByOne :
    blocksOf (preloadRequests oneByOne ++ bufferRequests oneByOne) ≤ pageArena.size := by
  decide

theorem room_oneByOne_worker : blocksOf ([] ++ bufferRequests oneByOne) ≤ pageArena.size := by
  decide

theorem benchmark3_stale_oneByOne : ∃ L : Cluster4 → Buffers oneByOne, ∀ x : Fin 4,
    loads (benchmark3 defaultArch L intElement (fun _ => true) addressSystem).hbm
        (List.range' (elemAddr defaultArch oneByOne oneByOne.hbmCBaseOffset 0 (x * 1 + 0)) 1) =
      intElement.encode (∑ k ∈ Finset.range 4,
        (if x = 0 then
          intElement.load addressSystem.hbm (elemAddr defaultArch oneByOne Sizes.hbmABaseOffset 0 k)
          else intElement.load (addressSystem.l1 (x, 0))
            ((L (x, 0)).a defaultArch + (0 * 4 + k) * 1)) *
        intElement.load addressSystem.hbm
          (elemAddr defaultArch oneByOne oneByOne.hbmBBaseOffset k (x * 1 + 0))) := by
  obtain ⟨K, leader⟩ := exists_requested (A := pageArena) (m := fun _ => 0) requests_oneByOne
    room_oneByOne
  obtain ⟨K', worker⟩ : ∃ K' : Buffers oneByOne, Requested pageArena (fun _ => 0) [] K' :=
    exists_requested (fun size mem => requests_oneByOne size (List.mem_append_right _ mem))
      room_oneByOne_worker
  have req : ∀ x : Fin 4, Requested pageArena (fun _ => 0)
      (if x = 0 then preloadRequests oneByOne else []) (if x = 0 then K else K') := by
    intro x
    by_cases source : x = 0
    · rw [if_pos source, if_pos source]
      exact leader
    · rw [if_neg source, if_neg source]
      exact worker
  exact ⟨fun c => if c.1 = 0 then K else K', fun x =>
    benchmark3_stale intElement pageArena (fun _ _ => 0) req (fun _ => true) addressSystem x
      Nat.one_pos Nat.one_pos⟩

end SoftHier.Gemm
