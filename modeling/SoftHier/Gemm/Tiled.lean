import Mathlib.Algebra.BigOperators.Fin
import SoftHier.Gemm.Model
import SoftHier.Lib.Loops
import Mathlib.Tactic.Ring

/-!
# Correctness of the tiled matrix product

* `Sizes.bound`: what the absence of overflow means; the offsets follow as plain arithmetic.
* `Buffers.apart`: the aligned strips and the tile of a cluster do not overlap.
* `dataIn_a`, `dataIn_b`: after the broadcasts every cluster holds the strips of its row and column.
* `matmul_c`: the tile a cluster computes.
* `tiled_gemm`: in whatever order the tiles are stored, `C` becomes the product, each of its bytes
  is written once and nothing else is.
-/

namespace SoftHier.Gemm

/-! ## Sizes -/

namespace Sizes

variable (G : Sizes)

/-- The bytes of a row of a tile. -/
def rowBytes : Nat := G.tile * G.elemBytes

/-- The bytes of a tile. -/
def tileBytes : Nat := G.tile * G.rowBytes

theorem le_mul_elemBytes (n : Nat) : n ≤ n * G.elemBytes :=
  Nat.le_mul_of_pos_right n G.elemBytes_pos

theorem rowBytes_le : G.rowBytes ≤ G.tileBytes := Nat.le_mul_of_pos_left _ G.tile_pos

theorem bound : 0x400 + 44 * G.tileBytes + 3 * G.rowBytes < 2 ^ 32 := by
  have fits := G.fits
  have sum : 0x400 + 2 * (G.matN * G.matN * G.elemBytes) +
      (3 * G.tile * G.matN + 3 * G.tile) * G.elemBytes =
        0x400 + 44 * G.tileBytes + 3 * G.rowBytes := by
    rw [G.square]
    unfold tileBytes rowBytes
    ring
  omega

theorem u32_rowBytes : u32 (G.tile * G.elemBytes) = G.rowBytes := by
  have bound := G.bound
  have le := G.rowBytes_le
  exact u32_of_lt (show G.rowBytes < 2 ^ 32 by omega)

theorem u32_matRow : u32 (G.matN * G.elemBytes) = 4 * G.rowBytes := by
  have bound := G.bound
  have le := G.rowBytes_le
  have row : G.matN * G.elemBytes = 4 * G.rowBytes := by
    rw [G.square]
    unfold rowBytes
    ring
  rw [row, u32_of_lt (by omega)]

theorem matN_mul_rowBytes : G.matN * G.rowBytes = 4 * G.tileBytes := by
  rw [G.square, Nat.mul_assoc]
  rfl

theorem bytesAStrip_eq : G.bytesAStrip = 4 * G.tileBytes := by
  have bound := G.bound
  have le := G.le_mul_elemBytes (G.tile * G.matN)
  have strip : G.tile * G.matN * G.elemBytes = 4 * G.tileBytes := by
    rw [G.square]
    unfold tileBytes rowBytes
    ring
  rw [bytesAStrip, u32_of_lt (n := G.tile * G.matN) (by omega), u32_of_lt (by omega), strip]

theorem bytesBStrip_eq : G.bytesBStrip = 4 * G.tileBytes := by
  rw [← bytesAStrip_eq, bytesBStrip, bytesAStrip, Nat.mul_comm G.matN]

theorem bytesCTile_eq : G.bytesCTile = G.tileBytes := by
  have bound := G.bound
  have le := G.le_mul_elemBytes (G.tile * G.tile)
  have tile : G.tile * G.tile * G.elemBytes = G.tileBytes := Nat.mul_assoc _ _ _
  rw [bytesCTile, u32_of_lt (n := G.tile * G.tile) (by omega), u32_of_lt (by omega), tile]

theorem u32_matrix : u32 (u32 (G.matN * G.matN) * G.elemBytes) = 16 * G.tileBytes := by
  have bound := G.bound
  have le := G.le_mul_elemBytes (G.matN * G.matN)
  have matrix : G.matN * G.matN * G.elemBytes = 16 * G.tileBytes := by
    rw [G.square]
    unfold tileBytes rowBytes
    ring
  rw [u32_of_lt (n := G.matN * G.matN) (by omega), u32_of_lt (by omega), matrix]

theorem hbmBBaseOffset_eq : G.hbmBBaseOffset = 0x400 + 16 * G.tileBytes := by
  have bound := G.bound
  rw [hbmBBaseOffset, u32_matrix, hbmABaseOffset, u32_of_lt (by omega)]

theorem hbmCBaseOffset_eq : G.hbmCBaseOffset = 0x400 + 32 * G.tileBytes := by
  have bound := G.bound
  rw [hbmCBaseOffset, u32_matrix, hbmBBaseOffset_eq, u32_of_lt (by omega)]
  omega

theorem hbmOffAStrip_eq (r : Fin 4) : G.hbmOffAStrip r = 0x400 + r * (4 * G.tileBytes) := by
  have bound := G.bound
  have le := G.le_mul_elemBytes (r * G.tile * G.matN)
  have pos : 0 < G.matN := by
    have pos := G.tile_pos
    have square := G.square
    omega
  have le' := Nat.le_mul_of_pos_right (r * G.tile) pos
  have strips : r * G.tile * G.matN * G.elemBytes = r * (4 * G.tileBytes) := by
    rw [G.square]
    unfold tileBytes rowBytes
    ring
  have few : r * (4 * G.tileBytes) ≤ 3 * (4 * G.tileBytes) :=
    Nat.mul_le_mul_right _ (Nat.le_of_lt_succ r.isLt)
  unfold hbmOffAStrip hbmABaseOffset
  dsimp only
  rw [u32_of_lt (n := r * G.tile) (by omega), u32_of_lt (n := r * G.tile * G.matN) (by omega),
    strips, u32_of_lt (n := r * (4 * G.tileBytes)) (by omega), u32_of_lt (by omega)]

theorem hbmOffBStripBase_eq (c : Fin 4) :
    G.hbmOffBStripBase c = 0x400 + 16 * G.tileBytes + c * G.rowBytes := by
  have bound := G.bound
  have le := G.le_mul_elemBytes (c * G.tile)
  have cols : c * G.tile * G.elemBytes = c * G.rowBytes := Nat.mul_assoc _ _ _
  have few : c * G.rowBytes ≤ 3 * G.rowBytes := Nat.mul_le_mul_right _ (Nat.le_of_lt_succ c.isLt)
  unfold hbmOffBStripBase
  dsimp only
  rw [hbmBBaseOffset_eq, u32_of_lt (n := c * G.tile) (by omega), cols,
    u32_of_lt (n := c * G.rowBytes) (by omega), u32_of_lt (by omega)]

theorem hbmOffCTile_eq (r c : Fin 4) : G.hbmOffCTile r c =
    0x400 + 32 * G.tileBytes + (r * (4 * G.tileBytes) + c * G.rowBytes) := by
  have bound := G.bound
  have le := G.le_mul_elemBytes (r * G.tile * G.matN + c * G.tile)
  have pos : 0 < G.matN := by
    have pos := G.tile_pos
    have square := G.square
    omega
  have le' := Nat.le_mul_of_pos_right (r * G.tile) pos
  have index : (r * G.tile * G.matN + c * G.tile) * G.elemBytes =
      r * (4 * G.tileBytes) + c * G.rowBytes := by
    rw [G.square]
    unfold tileBytes rowBytes
    ring
  have few : r * (4 * G.tileBytes) ≤ 3 * (4 * G.tileBytes) :=
    Nat.mul_le_mul_right _ (Nat.le_of_lt_succ r.isLt)
  have few' : c * G.rowBytes ≤ 3 * G.rowBytes := Nat.mul_le_mul_right _ (Nat.le_of_lt_succ c.isLt)
  unfold hbmOffCTile
  dsimp only
  rw [hbmCBaseOffset_eq, u32_of_lt (n := r * G.tile) (by omega),
    u32_of_lt (n := r * G.tile * G.matN) (by omega), u32_of_lt (n := c * G.tile) (by omega),
    u32_of_lt (n := r * G.tile * G.matN + c * G.tile) (by omega), index,
    u32_of_lt (n := r * (4 * G.tileBytes) + c * G.rowBytes) (by omega), u32_of_lt (by omega)]

end Sizes

/-! ## Buffers -/

theorem alignUpU32_bounds {v : Nat} (room : v + 63 < 2 ^ 32) :
    v ≤ alignUpU32 v 64 ∧ alignUpU32 v 64 ≤ v + 63 := by
  have mask : alignUpU32 v 64 = (v + 63) - (v + 63) % 2 ^ 6 := by
    unfold alignUpU32
    rw [u32_of_lt (show v + (64 - 1) < 2 ^ 32 from room)]
    exact and_two_pow_sub_two_pow (w := 32) (k := 6) (by decide) room
  omega

theorem localAddr_tcdmOffsetFromPtr {base ptr : Nat} (hbase : base < 2 ^ 32) (hptr : ptr < 2 ^ 32) :
    localAddr base (tcdmOffsetFromPtr base ptr) = ptr := by
  unfold localAddr tcdmOffsetFromPtr sub32 u32
  omega

/-- The strips and the tile of a cluster do not overlap. -/
theorem Buffers.apart {G : Sizes} (P : Arch) (L : Buffers G) :
    (L.a P + 4 * G.tileBytes ≤ L.b P ∨ L.b P + 4 * G.tileBytes ≤ L.a P) ∧
      (L.a P + 4 * G.tileBytes ≤ L.c P ∨ L.c P + G.tileBytes ≤ L.a P) ∧
      (L.b P + 4 * G.tileBytes ≤ L.c P ∨ L.c P + G.tileBytes ≤ L.b P) := by
  have bound := G.bound
  have strip : u32 (G.bytesAStrip + 64) = 4 * G.tileBytes + 64 := by
    rw [G.bytesAStrip_eq, u32_of_lt (by omega)]
  have strip' : u32 (G.bytesBStrip + 64) = 4 * G.tileBytes + 64 := by
    rw [G.bytesBStrip_eq, u32_of_lt (by omega)]
  have tile : u32 (G.bytesCTile + 64) = G.tileBytes + 64 := by
    rw [G.bytesCTile_eq, u32_of_lt (by omega)]
  have endA := L.endA
  have endB := L.endB
  have endC := L.endC
  have apartAB := L.apartAB
  have apartAC := L.apartAC
  have apartBC := L.apartBC
  rw [strip] at endA apartAB apartAC
  rw [strip'] at endB apartAB apartBC
  rw [tile] at endC apartAC apartBC
  have alignA := alignUpU32_bounds (v := L.rawA) (by omega)
  have alignB := alignUpU32_bounds (v := L.rawB) (by omega)
  have alignC := alignUpU32_bounds (v := L.rawC) (by omega)
  have a : L.a P = alignUpU32 L.rawA 64 :=
    localAddr_tcdmOffsetFromPtr P.tcdmBase_lt (by omega)
  have b : L.b P = alignUpU32 L.rawB 64 :=
    localAddr_tcdmOffsetFromPtr P.tcdmBase_lt (by omega)
  have c : L.c P = alignUpU32 L.rawC 64 :=
    localAddr_tcdmOffsetFromPtr P.tcdmBase_lt (by omega)
  omega

/-! ## Copies -/

section

variable {β τ : Type*} (source : τ → Nat → β) (copy : τ → Copy) {ts : List τ} {m : Nat → β} {t : τ}

theorem mem_written {c : Copy} {x : Nat} : x ∈ c.written ↔ c.dst ≤ x ∧ x < c.dst + c.size :=
  List.mem_range'_1

/-- Copies to disjoint places: each place holds what was copied to it. -/
theorem foldl_apply_at (apart : ts.Pairwise fun s t => (copy s).written.Disjoint (copy t).written)
    (mem : t ∈ ts) {i : Nat} (hi : i < (copy t).size) :
    ts.foldl (fun m t => (copy t).apply (source t) m) m ((copy t).dst + i) =
      source t ((copy t).src + i) := by
  have placed := loads_writes (fun t => (copy t).written)
    (fun t _ => loads (source t) (List.range' (copy t).src (copy t).size)) m m (fun _ => True) apart
      (fun t _ => List.nodup_range') (fun t _ => by
      rw [length_loads, List.length_range', Copy.written, List.length_range'])
    (fun _ _ _ _ => trivial) (fun _ no => absurd trivial no) (fun _ _ _ _ => rfl) mem
  exact loads_range'_eq_iff.mp placed i hi

theorem foldl_apply_of_notMem {x : Nat} (other : ∀ t ∈ ts, x ∉ (copy t).written) :
    ts.foldl (fun m t => (copy t).apply (source t) m) m x = m x :=
  writes_of_notMem (fun t => (copy t).written)
    (fun t _ => loads (source t) (List.range' (copy t).src (copy t).size)) other

end

/-! ## Loads and broadcasts -/

section

variable {β : Type*}

/-- The leaders load one after the other, each into its own memory. -/
theorem foldl_load (leader : Fin 4 → Cluster4) (inj : Function.Injective leader)
    (copies : Fin 4 → List Copy) {rs : List (Fin 4)} (nodup : rs.Nodup) (s : System β) :
    let s' := rs.foldl (fun s r => s.load (leader r) (copies r)) s
    s'.hbm = s.hbm ∧
      (∀ r ∈ rs, s'.l1 (leader r) = (copies r).foldl (Copy.apply s.hbm) (s.l1 (leader r))) ∧
      ∀ c, (∀ r ∈ rs, c ≠ leader r) → s'.l1 c = s.l1 c := by
  induction rs generalizing s with
  | nil => exact ⟨rfl, nofun, fun _ _ => rfl⟩
  | cons r rs ih =>
    obtain ⟨hbm, mine, others⟩ := ih (List.nodup_cons.mp nodup).2 (s.load (leader r) (copies r))
    have new := (List.nodup_cons.mp nodup).1
    have there : ∀ c, c ≠ leader r → (s.load (leader r) (copies r)).l1 c = s.l1 c := fun c other =>
      Function.update_of_ne other _ _
    refine ⟨hbm, fun q mem => ?_, fun c away => ?_⟩
    · rcases List.mem_cons.mp mem with rfl | mem
      · have untouched := others (leader q) fun p mem same => new (inj same ▸ mem)
        exact untouched.trans (Function.update_self _ _ _)
      · have other : leader q ≠ leader r := fun same => new (inj same ▸ mem)
        exact (mine q mem).trans (by rw [there _ other]; rfl)
    · have kept := others c fun q mem => away q (List.mem_cons_of_mem _ mem)
      exact kept.trans (there c (away r List.mem_cons_self))

/-- What a leader does not write stays as it was. -/
theorem foldl_load_kept (leader : Fin 4 → Cluster4) (inj : Function.Injective leader)
    (copies : Fin 4 → List Copy) (s : System β) (c : Cluster4) {x : Nat}
    (away : ∀ r, ∀ k ∈ copies r, x ∉ k.written) :
    ((List.finRange 4).foldl (fun s r => s.load (leader r) (copies r)) s).l1 c x = s.l1 c x := by
  obtain ⟨-, mine, others⟩ := foldl_load leader inj copies (List.nodup_finRange 4) s
  by_cases leads : ∃ r, c = leader r
  · obtain ⟨r, rfl⟩ := leads
    rw [mine r (List.mem_finRange r)]
    exact foldl_apply_of_notMem (fun _ => s.hbm) id (away r)
  · rw [others c fun r _ same => leads ⟨r, same⟩]

/-- A delivered broadcast. -/
theorem deliver_at (s : System β) (leader : Cluster4 → Cluster4) (addr size : Nat) (c : Cluster4)
    {i : Nat} (hi : i < size) :
    (s.deliver leader addr size).l1 c (addr + i) = s.l1 (leader c) (addr + i) := by
  have placed : loads ((s.deliver leader addr size).l1 c) (List.range' addr size) =
      loads (s.l1 (leader c)) (List.range' addr size) :=
    loads_stores List.nodup_range' length_loads.symm
  exact loads_range'_eq_iff.mp placed i hi

theorem deliver_kept (s : System β) (leader : Cluster4 → Cluster4) {addr size : Nat} (c : Cluster4)
    {x : Nat} (away : x < addr ∨ addr + size ≤ x) :
    (s.deliver leader addr size).l1 c x = s.l1 c x := by
  apply stores_of_notMem
  rw [List.mem_range'_1]
  omega

variable {G : Sizes} (P : Arch) (L : Buffers G)

theorem copiesA_eq (r : Fin 4) : copiesA P L r =
    [⟨L.a P, P.hbmStartBase + (0x400 + r * (4 * G.tileBytes)), 4 * G.tileBytes⟩] := by
  rw [copiesA, G.hbmOffAStrip_eq, G.bytesAStrip_eq]
  rfl

theorem copiesB_eq (c : Fin 4) : copiesB P L c = (List.range G.matN).map fun k =>
    ⟨L.b P + k * G.rowBytes,
      P.hbmStartBase + (0x400 + 16 * G.tileBytes + c * G.rowBytes) + k * (4 * G.rowBytes),
      G.rowBytes⟩ := by
  rw [copiesB, G.hbmOffBStripBase_eq, G.u32_rowBytes, G.u32_matRow]
  rfl

/-- Where `C` starts. -/
def baseC (G : Sizes) : Nat := P.hbmStartBase + (0x400 + 32 * G.tileBytes)

/-- Row `k` of the tile of cluster `c`, where the rows of `C` consist of four rows of tiles. -/
def copyC (c : Cluster4) (k : Nat) : Copy :=
  ⟨baseC P G + ((c.2 * G.tile + k) * 4 + c.1) * G.rowBytes, L.c P + k * G.rowBytes, G.rowBytes⟩

theorem copiesC_eq (c : Cluster4) : copiesC P L c = (List.range G.tile).map (copyC P L c) := by
  rw [copiesC, G.hbmOffCTile_eq, G.u32_rowBytes, G.u32_matRow]
  apply List.map_congr_left
  intro k _
  have dst : hbmAddr P.hbmStartBase (0x400 + 32 * G.tileBytes +
      (c.2 * (4 * G.tileBytes) + c.1 * G.rowBytes)) + k * (4 * G.rowBytes) =
        baseC P G + ((c.2 * G.tile + k) * 4 + c.1) * G.rowBytes := by
    unfold hbmAddr baseC Sizes.tileBytes
    ring
  rw [dst]
  rfl

/-- Row `k` of a block of rows of `size` bytes. -/
theorem row_le {k n : Nat} (size : Nat) (less : k < n) : k * size + size ≤ n * size := by
  rw [← Nat.succ_mul]
  exact Nat.mul_le_mul_right _ less

theorem copiesB_written {c : Fin 4} {k : Copy} (mem : k ∈ copiesB P L c) {x : Nat}
    (here : x ∈ k.written) : L.b P ≤ x ∧ x < L.b P + 4 * G.tileBytes := by
  rw [copiesB_eq, List.mem_map] at mem
  obtain ⟨row, less, rfl⟩ := mem
  have le := row_le G.rowBytes (List.mem_range.mp less)
  rw [G.matN_mul_rowBytes] at le
  rw [mem_written] at here
  dsimp only at here
  omega

theorem copiesB_apart (c : Fin 4) :
    (copiesB P L c).Pairwise fun s t => s.written.Disjoint t.written := by
  rw [copiesB_eq, List.pairwise_map]
  apply List.pairwise_lt_range.imp
  intro k k' less x here there
  have le := row_le G.rowBytes less
  rw [mem_written] at here there
  dsimp only at here there
  omega

/-- The memory behind the clusters is only read. -/
theorem dataIn_hbm (s : System β) : (dataIn P L s).hbm = s.hbm := by
  obtain ⟨first, -⟩ := foldl_load (fun ry => (0, ry)) (Prod.mk_right_injective 0)
    (fun ry => copiesA P L ry) (List.nodup_finRange 4) s
  obtain ⟨second, -⟩ := foldl_load (fun rx => (rx, 0)) (Prod.mk_left_injective 0)
    (fun rx => copiesB P L rx) (List.nodup_finRange 4)
    ((List.finRange 4).foldl (fun s ry => s.load (0, ry) (copiesA P L ry)) s)
  exact second.trans first

/-- Every cluster holds the `A` strip of its row. -/
theorem dataIn_a (s : System β) (c : Cluster4) {i : Nat} (hi : i < 4 * G.tileBytes) :
    (dataIn P L s).l1 c (L.a P + i) =
      s.hbm (P.hbmStartBase + (0x400 + c.2 * (4 * G.tileBytes)) + i) := by
  obtain ⟨apart, -, -⟩ := L.apart P
  obtain ⟨-, mine, -⟩ := foldl_load (fun ry => (0, ry)) (Prod.mk_right_injective 0)
    (fun ry => copiesA P L ry) (List.nodup_finRange 4) s
  generalize hs1 : (List.finRange 4).foldl (fun s ry => s.load (0, ry) (copiesA P L ry)) s =
    s1 at mine
  have loaded : s1.l1 (0, c.2) (L.a P + i) =
      s.hbm (P.hbmStartBase + (0x400 + c.2 * (4 * G.tileBytes)) + i) := by
    rw [mine c.2 (List.mem_finRange _), copiesA_eq]
    exact foldl_apply_at (fun _ => s.hbm) id (List.pairwise_singleton _ _) List.mem_cons_self hi
  have kept := foldl_load_kept (fun rx => (rx, 0)) (Prod.mk_left_injective 0)
    (fun rx => copiesB P L rx) s1 (0, c.2) (x := L.a P + i) fun r k mem here => by
      have bounds := copiesB_written P L mem here
      omega
  unfold dataIn
  dsimp only
  rw [hs1, deliver_kept _ _ c (by rw [G.bytesBStrip_eq]; omega),
    deliver_at _ _ _ _ c (by rw [G.bytesAStrip_eq]; exact hi), kept, loaded]

/-- Every cluster holds the `B` strip of its column, packed row by row. -/
theorem dataIn_b (s : System β) (c : Cluster4) {k i : Nat} (hk : k < G.matN) (hi : i < G.rowBytes) :
    (dataIn P L s).l1 c (L.b P + k * G.rowBytes + i) =
      s.hbm (P.hbmStartBase + (0x400 + 16 * G.tileBytes + c.1 * G.rowBytes) +
        k * (4 * G.rowBytes) + i) := by
  obtain ⟨apart, -, -⟩ := L.apart P
  have inside := row_le G.rowBytes hk
  rw [G.matN_mul_rowBytes] at inside
  obtain ⟨hbm, -⟩ := foldl_load (fun ry => (0, ry)) (Prod.mk_right_injective 0)
    (fun ry => copiesA P L ry) (List.nodup_finRange 4) s
  generalize hs1 : (List.finRange 4).foldl (fun s ry => s.load (0, ry) (copiesA P L ry)) s =
    s1 at hbm
  obtain ⟨-, mine, -⟩ := foldl_load (fun rx => (rx, 0)) (Prod.mk_left_injective 0)
    (fun rx => copiesB P L rx) (List.nodup_finRange 4) s1
  have row : (⟨L.b P + k * G.rowBytes,
      P.hbmStartBase + (0x400 + 16 * G.tileBytes + c.1 * G.rowBytes) + k * (4 * G.rowBytes),
      G.rowBytes⟩ : Copy) ∈ copiesB P L c.1 := by
    rw [copiesB_eq, List.mem_map]
    exact ⟨k, List.mem_range.mpr hk, rfl⟩
  have loaded :=
    foldl_apply_at (m := s1.l1 (c.1, 0)) (fun _ => s.hbm) id (copiesB_apart P L c.1) row hi
  unfold dataIn
  dsimp only
  rw [hs1, Nat.add_assoc, deliver_at _ _ _ _ c (by rw [G.bytesBStrip_eq]; omega),
    deliver_kept _ _ (c.1, 0) (by rw [G.bytesAStrip_eq]; omega), mine c.1 (List.mem_finRange _),
    hbm, ← Nat.add_assoc]
  exact loaded

end

/-! ## The product of two strips -/

section

variable {R β : Type*} [Semiring R] {G : Sizes} (E : Element R β G.elemBytes) {A B C : Nat}

/-- The element that a pass of the inner loop computes. -/
def dot (A B : Nat) (t : Nat × Nat) (m : Nat → β) : R :=
  ∑ k ∈ Finset.range G.matN, E.load m (A + u32 (t.1 * G.matN) * G.elemBytes + k * G.elemBytes) *
    E.load m (B + u32 (u32 (k * G.tile) + t.2) * G.elemBytes)

/-- The nested loops are one sequence of writes. -/
theorem matmul_eq (m : Nat → β) : matmul G E A B C m =
    writes (fun t => List.range' (C + u32 (t.1 * G.tile) * G.elemBytes + t.2 * G.elemBytes)
      G.elemBytes)
      (fun t m => E.encode (dot E A B t m)) (List.range G.tile ×ˢ List.range G.tile) m := by
  unfold matmul writes
  rw [show List.range G.tile ×ˢ List.range G.tile =
    (List.range G.tile).flatMap fun i => (List.range G.tile).map (Prod.mk i) from rfl,
    List.foldl_flatMap]
  simp only [List.foldl_map, foldl_add, zero_add]
  rfl

/-- Element `(i, j)` of a packed tile. -/
theorem tile_addr (C : Nat) {i j : Nat} (hi : i < G.tile) (hj : j < G.tile) :
    C + u32 (i * G.tile) * G.elemBytes + j * G.elemBytes = C + (i * G.rowBytes + j * G.elemBytes) ∧
      i * G.rowBytes + j * G.elemBytes + G.elemBytes ≤ G.tileBytes := by
  have bound := G.bound
  have le := G.le_mul_elemBytes (i * G.tile)
  have row : i * G.tile * G.elemBytes = i * G.rowBytes := Nat.mul_assoc _ _ _
  have inside : i * G.rowBytes + G.rowBytes ≤ G.tileBytes := row_le G.rowBytes hi
  have elem : j * G.elemBytes + G.elemBytes ≤ G.rowBytes := row_le G.elemBytes hj
  rw [u32_of_lt (by omega), row, Nat.add_assoc]
  omega

/-- Element `(i, k)` of an `A` strip. -/
theorem stripA_addr (A : Nat) {i k : Nat} (hi : i < G.tile) (hk : k < G.matN) :
    A + u32 (i * G.matN) * G.elemBytes + k * G.elemBytes =
        A + (i * (4 * G.rowBytes) + k * G.elemBytes) ∧
      i * (4 * G.rowBytes) + k * G.elemBytes + G.elemBytes ≤ 4 * G.tileBytes := by
  have bound := G.bound
  have le := G.le_mul_elemBytes (i * G.matN)
  have row : i * G.matN * G.elemBytes = i * (4 * G.rowBytes) := by
    rw [G.square]
    unfold Sizes.rowBytes
    ring
  have inside := row_le (4 * G.rowBytes) hi
  have strip : G.tile * (4 * G.rowBytes) = 4 * G.tileBytes := Nat.mul_left_comm _ _ _
  have matRow : G.matN * G.elemBytes = 4 * G.rowBytes := by
    rw [G.square, Nat.mul_assoc]
    rfl
  have elem := row_le G.elemBytes hk
  rw [u32_of_lt (by omega), row, Nat.add_assoc]
  omega

/-- Element `(k, j)` of a packed `B` strip. -/
theorem stripB_addr (B : Nat) {k j : Nat} (hk : k < G.matN) (hj : j < G.tile) :
    B + u32 (u32 (k * G.tile) + j) * G.elemBytes = B + (k * G.rowBytes + j * G.elemBytes) ∧
      k * G.rowBytes + j * G.elemBytes + G.elemBytes ≤ 4 * G.tileBytes := by
  have bound := G.bound
  have le := G.le_mul_elemBytes (k * G.tile + j)
  have row : (k * G.tile + j) * G.elemBytes = k * G.rowBytes + j * G.elemBytes := by
    unfold Sizes.rowBytes
    ring
  have inside := row_le G.rowBytes hk
  rw [G.matN_mul_rowBytes] at inside
  have elem : j * G.elemBytes + G.elemBytes ≤ G.rowBytes := row_le G.elemBytes hj
  rw [u32_of_lt (n := k * G.tile) (by omega), u32_of_lt (by omega), row]
  omega

/-- A byte of a packed tile belongs to one element. -/
theorem eq_of_elem {s t : Nat × Nat} {x : Nat} (hs : s.2 < G.tile) (ht : t.2 < G.tile)
    (lowS : s.1 * G.rowBytes + s.2 * G.elemBytes ≤ x)
    (highS : x < s.1 * G.rowBytes + s.2 * G.elemBytes + G.elemBytes)
    (lowT : t.1 * G.rowBytes + t.2 * G.elemBytes ≤ x)
    (highT : x < t.1 * G.rowBytes + t.2 * G.elemBytes + G.elemBytes) : s = t := by
  have elemS : s.2 * G.elemBytes + G.elemBytes ≤ G.rowBytes := row_le G.elemBytes hs
  have elemT : t.2 * G.elemBytes + G.elemBytes ≤ G.rowBytes := row_le G.elemBytes ht
  have row : s.1 = t.1 := by
    rcases Nat.lt_trichotomy s.1 t.1 with less | same | more
    · have le := row_le G.rowBytes less
      omega
    · exact same
    · have le := row_le G.rowBytes more
      omega
  have col : s.2 = t.2 := by
    rw [row] at lowS highS
    rcases Nat.lt_trichotomy s.2 t.2 with less | same | more
    · have le := row_le G.elemBytes less
      omega
    · exact same
    · have le := row_le G.elemBytes more
      omega
  exact Prod.ext row col

omit [Semiring R] in
/-- What is read of a part of the memory that is not written stays the same. -/
theorem load_congr {m m' : Nat → β} {addr : Nat}
    (same : ∀ x, addr ≤ x → x < addr + G.elemBytes → m' x = m x) :
    E.load m' addr = E.load m addr := by
  unfold Element.load
  rw [loads_range'_eq_iff.mpr fun i less => same (addr + i) (Nat.le_add_right _ _) (by omega)]

theorem dot_congr {m m' : Nat → β} {t : Nat × Nat} (hi : t.1 < G.tile) (hj : t.2 < G.tile)
    (sameA : ∀ x, A ≤ x → x < A + 4 * G.tileBytes → m' x = m x)
    (sameB : ∀ x, B ≤ x → x < B + 4 * G.tileBytes → m' x = m x) :
    dot E A B t m' = dot E A B t m := by
  apply Finset.sum_congr rfl
  intro k mem
  have hk := Finset.mem_range.mp mem
  obtain ⟨addrA, insideA⟩ := stripA_addr A hi hk
  obtain ⟨addrB, insideB⟩ := stripB_addr B hk hj
  rw [addrA, addrB,
    load_congr E fun x low high => sameA x (by omega) (by omega),
    load_congr E fun x low high => sameB x (by omega) (by omega)]

/-- The tile that a cluster computes. -/
theorem matmul_c (m : Nat → β) (apartA : A + 4 * G.tileBytes ≤ C ∨ C + G.tileBytes ≤ A)
    (apartB : B + 4 * G.tileBytes ≤ C ∨ C + G.tileBytes ≤ B) {i j : Nat} (hi : i < G.tile)
    (hj : j < G.tile) :
    loads (matmul G E A B C m)
        (List.range' (C + (i * G.rowBytes + j * G.elemBytes)) G.elemBytes) =
      E.encode (dot E A B (i, j) m) := by
  have tiles : ∀ t ∈ List.range G.tile ×ˢ List.range G.tile, t.1 < G.tile ∧ t.2 < G.tile := by
    intro t mem
    rw [List.mem_product, List.mem_range, List.mem_range] at mem
    exact mem
  have placed := loads_writes
    (fun t => List.range' (C + u32 (t.1 * G.tile) * G.elemBytes + t.2 * G.elemBytes) G.elemBytes)
    (fun t m => E.encode (dot E A B t m)) m m (fun x => C ≤ x ∧ x < C + G.tileBytes)
    (t := (i, j)) ?_ ?_ ?_ ?_ (fun _ _ => rfl) ?_
    (List.mem_product.mpr ⟨List.mem_range.mpr hi, List.mem_range.mpr hj⟩)
  · rw [← (tile_addr C hi hj).1, matmul_eq]
    exact placed
  · -- the elements are apart
    apply (List.nodup_range.product List.nodup_range).pairwise_of_forall_ne
    intro s hs t ht differ x here there
    obtain ⟨addrS, -⟩ := tile_addr C (tiles s hs).1 (tiles s hs).2
    obtain ⟨addrT, -⟩ := tile_addr C (tiles t ht).1 (tiles t ht).2
    rw [addrS, List.mem_range'_1] at here
    rw [addrT, List.mem_range'_1] at there
    apply differ
    exact eq_of_elem (x := x - C) (tiles s hs).2 (tiles t ht).2 (by omega) (by omega) (by omega)
      (by omega)
  · exact fun t _ => List.nodup_range'
  · intro t _
    rw [List.length_range', E.length_encode]
  · intro t mem x here
    obtain ⟨addr, inside⟩ := tile_addr C (tiles t mem).1 (tiles t mem).2
    rw [addr, List.mem_range'_1] at here
    omega
  · intro t mem m' agree
    have same := dot_congr E (A := A) (B := B) (tiles t mem).1 (tiles t mem).2
      (fun x low high => agree x (by omega)) (fun x low high => agree x (by omega))
    rw [same]

end

/-! ## The scatter -/

section

variable {β : Type*} {G : Sizes} (P : Arch) (L : Buffers G)

theorem mem_allCopiesC {t : Cluster4 × Copy} :
    t ∈ allCopiesC P L ↔ ∃ c, ∃ k < G.tile, t = (c, copyC P L c k) := by
  simp only [allCopiesC, copiesC_eq, List.map_map, List.mem_flatMap, List.mem_map, List.mem_range,
    Function.comp_apply]
  constructor
  · rintro ⟨c, -, k, less, rfl⟩
    exact ⟨c, k, less, rfl⟩
  · rintro ⟨c, k, less, rfl⟩
    exact ⟨c, List.mem_product.mpr ⟨List.mem_finRange _, List.mem_finRange _⟩, k, less, rfl⟩

theorem rowBytes_pos : 0 < G.rowBytes := Nat.mul_pos G.tile_pos G.elemBytes_pos

/-- A byte of `C` belongs to one row of one tile. -/
theorem eq_of_copyC {c d : Cluster4} {k l x : Nat} (hk : k < G.tile) (hl : l < G.tile)
    (here : x ∈ (copyC P L c k).written) (there : x ∈ (copyC P L d l).written) : c = d ∧ k = l := by
  rw [mem_written] at here there
  simp only [copyC] at here there
  have index : (c.2 * G.tile + k) * 4 + c.1 = (d.2 * G.tile + l) * 4 + (d.1 : Nat) := by
    rcases Nat.lt_trichotomy ((c.2 * G.tile + k) * 4 + c.1) ((d.2 * G.tile + l) * 4 + d.1) with
      less | same | more
    · have le := row_le G.rowBytes less
      omega
    · exact same
    · have le := row_le G.rowBytes more
      omega
  have hc := c.1.isLt
  have hd := d.1.isLt
  have col : c.1 = d.1 := Fin.ext (by omega)
  have line : c.2 * G.tile + k = d.2 * G.tile + l := by omega
  have row : c.2 = d.2 := by
    apply Fin.ext
    rcases Nat.lt_trichotomy c.2 d.2 with less | same | more
    · have le := row_le G.tile less
      omega
    · exact same
    · have le := row_le G.tile more
      omega
  rw [row] at line
  exact ⟨Prod.ext col row, by omega⟩

theorem allCopiesC_nodup : (allCopiesC P L).Nodup := by
  have start : ∀ c k, baseC P G + ((c.2 * G.tile + k) * 4 + c.1) * G.rowBytes ∈
      (copyC P L c k).written := by
    intro c k
    rw [mem_written]
    exact ⟨Nat.le_refl _, Nat.lt_add_of_pos_right rowBytes_pos⟩
  unfold allCopiesC
  rw [List.nodup_flatMap]
  constructor
  · intro c _
    rw [copiesC_eq, List.map_map]
    apply List.Nodup.map_on _ List.nodup_range
    intro k hk l hl same
    have copies : copyC P L c k = copyC P L c l := (Prod.mk.inj same).2
    exact (eq_of_copyC P L (List.mem_range.mp hk) (List.mem_range.mp hl) (start c k)
      (copies ▸ start c k)).2
  · apply ((List.nodup_finRange 4).product (List.nodup_finRange 4)).pairwise_of_forall_ne
    intro c _ d _ differ t here there
    obtain ⟨k, -, rfl⟩ := List.mem_map.mp here
    obtain ⟨l, -, same⟩ := List.mem_map.mp there
    exact differ (Prod.mk.inj same).1.symm

/-- In whatever order the rows are stored, they are apart. -/
theorem order_apart {order : List (Cluster4 × Copy)} (perm : order.Perm (allCopiesC P L)) :
    order.Pairwise fun s t => s.2.written.Disjoint t.2.written := by
  apply (perm.nodup_iff.mpr (allCopiesC_nodup P L)).pairwise_of_forall_ne
  intro s hs t ht differ x here there
  obtain ⟨c, k, hk, rfl⟩ := (mem_allCopiesC P L).mp (perm.mem_iff.mp hs)
  obtain ⟨d, l, hl, rfl⟩ := (mem_allCopiesC P L).mp (perm.mem_iff.mp ht)
  obtain ⟨rfl, rfl⟩ := eq_of_copyC P L hk hl here there
  exact differ rfl

/-- The rows cover `C` and nothing else. -/
theorem mem_order_written {order : List (Cluster4 × Copy)} (perm : order.Perm (allCopiesC P L))
    (x : Nat) : x ∈ order.flatMap (fun t => t.2.written) ↔
      baseC P G ≤ x ∧ x < baseC P G + 16 * G.tileBytes := by
  have size : 16 * G.tile * G.rowBytes = 16 * G.tileBytes := Nat.mul_assoc _ _ _
  rw [List.mem_flatMap]
  constructor
  · rintro ⟨t, mem, here⟩
    obtain ⟨c, k, hk, rfl⟩ := (mem_allCopiesC P L).mp (perm.mem_iff.mp mem)
    rw [mem_written] at here
    simp only [copyC] at here
    have lines : c.2 * G.tile + G.tile ≤ 4 * G.tile := row_le G.tile c.2.isLt
    have col := c.1.isLt
    have index : (c.2 * G.tile + k) * 4 + c.1 < 16 * G.tile := by omega
    have le := row_le G.rowBytes index
    omega
  · rintro ⟨low, high⟩
    have pos := rowBytes_pos (G := G)
    obtain ⟨off, rfl⟩ := Nat.exists_eq_add_of_le low
    have index : off / G.rowBytes < 16 * G.tile := by
      apply Nat.div_lt_of_lt_mul
      rw [Nat.mul_comm, size]
      omega
    have line : off / G.rowBytes / 4 < 4 * G.tile := by omega
    have row : off / G.rowBytes / 4 / G.tile < 4 := by
      apply Nat.div_lt_of_lt_mul
      omega
    have col : off / G.rowBytes % 4 < 4 := Nat.mod_lt _ (by decide)
    refine ⟨((⟨_, col⟩, ⟨_, row⟩), copyC P L (⟨_, col⟩, ⟨_, row⟩) (off / G.rowBytes / 4 % G.tile)),
      ?_, ?_⟩
    · rw [perm.mem_iff, mem_allCopiesC]
      exact ⟨_, _, Nat.mod_lt _ G.tile_pos, rfl⟩
    · have tiles := Nat.div_add_mod' (off / G.rowBytes / 4) G.tile
      have cols := Nat.div_add_mod' (off / G.rowBytes) 4
      have bytes := Nat.div_add_mod' off G.rowBytes
      have inside := Nat.mod_lt off pos
      rw [mem_written]
      simp only [copyC]
      rw [tiles, cols]
      omega

end

/-! ## The program -/

section

variable {R β : Type*} [Semiring R] {G : Sizes} (P : Arch) (L : Buffers G)
  (E : Element R β G.elemBytes)

omit [Semiring R] in
theorem load_eq {m m' : Nat → β} {addr addr' : Nat}
    (same : ∀ i < G.elemBytes, m (addr + i) = m' (addr' + i)) :
    E.load m addr = E.load m' addr' := by
  unfold Element.load
  rw [loads_range'_eq_iff.mpr same]

/-- The address of element `(i, j)` of a matrix. -/
def elemAddr (G : Sizes) (offset i j : Nat) : Nat :=
  hbmAddr P.hbmStartBase (offset + (i * G.matN + j) * G.elemBytes)

/-- What a cluster computes from its strips is the inner product of a row of `A` and a column of
`B`. -/
theorem dot_dataIn (s : System β) (c : Cluster4) {i j : Nat} (hi : i < G.tile) (hj : j < G.tile) :
    dot E (L.a P) (L.b P) (i, j) ((dataIn P L s).l1 c) =
      ∑ k ∈ Finset.range G.matN,
        E.load s.hbm (elemAddr P G Sizes.hbmABaseOffset (c.2 * G.tile + i) k) *
          E.load s.hbm (elemAddr P G G.hbmBBaseOffset k (c.1 * G.tile + j)) := by
  apply Finset.sum_congr rfl
  intro k mem
  have hk := Finset.mem_range.mp mem
  obtain ⟨addrA, insideA⟩ := stripA_addr (L.a P) hi hk
  obtain ⟨addrB, insideB⟩ := stripB_addr (L.b P) hk hj
  have elem : j * G.elemBytes + G.elemBytes ≤ G.rowBytes := row_le G.elemBytes hj
  have left : E.load ((dataIn P L s).l1 c) (L.a P + (i * (4 * G.rowBytes) + k * G.elemBytes)) =
      E.load s.hbm (elemAddr P G Sizes.hbmABaseOffset (c.2 * G.tile + i) k) := by
    apply load_eq
    intro b hb
    have from' : elemAddr P G Sizes.hbmABaseOffset (c.2 * G.tile + i) k =
        P.hbmStartBase + (0x400 + c.2 * (4 * G.tileBytes)) +
          (i * (4 * G.rowBytes) + k * G.elemBytes) := by
      unfold elemAddr hbmAddr Sizes.hbmABaseOffset Sizes.tileBytes Sizes.rowBytes
      rw [G.square]
      ring
    rw [from', Nat.add_assoc (L.a P), dataIn_a P L s c (by omega),
      Nat.add_assoc (P.hbmStartBase + _)]
  have right : E.load ((dataIn P L s).l1 c) (L.b P + (k * G.rowBytes + j * G.elemBytes)) =
      E.load s.hbm (elemAddr P G G.hbmBBaseOffset k (c.1 * G.tile + j)) := by
    apply load_eq
    intro b hb
    have from' : elemAddr P G G.hbmBBaseOffset k (c.1 * G.tile + j) =
        P.hbmStartBase + (0x400 + 16 * G.tileBytes + c.1 * G.rowBytes) + k * (4 * G.rowBytes) +
          j * G.elemBytes := by
      unfold elemAddr hbmAddr
      rw [G.hbmBBaseOffset_eq, G.square]
      unfold Sizes.rowBytes
      ring
    rw [from', ← Nat.add_assoc (L.b P), Nat.add_assoc (L.b P + _),
      dataIn_b P L s c hk (by omega), Nat.add_assoc (P.hbmStartBase + _ + _)]
  rw [addrA, addrB, left, right]

end

/-- What the scatter leaves at an element of `C`. -/
theorem dataOut_c {β : Type*} {G : Sizes} (P : Arch) (L : Buffers G)
    {order : List (Cluster4 × Copy)} (perm : order.Perm (allCopiesC P L)) (s : System β)
    (c : Cluster4) {i j : Nat} (hi : i < G.tile) (hj : j < G.tile) :
    loads (dataOut order s).hbm (List.range' (elemAddr P G G.hbmCBaseOffset (c.2 * G.tile + i)
        (c.1 * G.tile + j)) G.elemBytes) =
      loads (s.l1 c) (List.range' (L.c P + (i * G.rowBytes + j * G.elemBytes)) G.elemBytes) := by
  have mem : (c, copyC P L c i) ∈ order := by
    rw [perm.mem_iff, mem_allCopiesC]
    exact ⟨c, i, hi, rfl⟩
  have to' : elemAddr P G G.hbmCBaseOffset (c.2 * G.tile + i) (c.1 * G.tile + j) =
      (copyC P L c i).dst + j * G.elemBytes := by
    unfold elemAddr hbmAddr
    simp only [copyC, baseC]
    rw [G.hbmCBaseOffset_eq, G.square]
    unfold Sizes.rowBytes
    ring
  have elem : j * G.elemBytes + G.elemBytes ≤ G.rowBytes := row_le G.elemBytes hj
  apply loads_range'_eq_iff.mpr
  intro b hb
  have inside : j * G.elemBytes + b < (copyC P L c i).size := show _ < G.rowBytes by omega
  have placed := foldl_apply_at (m := s.hbm) (fun t => s.l1 t.1) Prod.snd (order_apart P L perm) mem
    inside
  rw [to', Nat.add_assoc, ← Nat.add_assoc (L.c P), Nat.add_assoc (L.c P + _)]
  exact placed

/-- In whatever order the rows of the tiles are stored, every element of `C` is the inner product
of a row of `A` and a column of `B`, every byte of `C` is written exactly once, and nothing else is
written; `A`, `B` and `C` follow each other in memory. -/
theorem tiled_gemm {R β : Type*} [CommRing R] {G : Sizes} (P : Arch) (L : Buffers G)
    (E : Element R β G.elemBytes) (order : List (Cluster4 × Copy))
    (perm : order.Perm (allCopiesC P L)) (s : System β) :
    (∀ i < G.matN, ∀ j < G.matN,
      loads (run P L E order s).hbm
          (List.range' (elemAddr P G G.hbmCBaseOffset i j) G.elemBytes) =
        E.encode (∑ k ∈ Finset.range G.matN,
          E.load s.hbm (elemAddr P G Sizes.hbmABaseOffset i k) *
            E.load s.hbm (elemAddr P G G.hbmBBaseOffset k j))) ∧
      (order.flatMap fun t => t.2.written).Nodup ∧
      (∀ x, x ∈ (order.flatMap fun t => t.2.written) ↔
        hbmAddr P.hbmStartBase G.hbmCBaseOffset ≤ x ∧
          x < hbmAddr P.hbmStartBase (G.hbmCBaseOffset + G.matN * G.matN * G.elemBytes)) ∧
      (∀ x, x < hbmAddr P.hbmStartBase G.hbmCBaseOffset ∨
        hbmAddr P.hbmStartBase (G.hbmCBaseOffset + G.matN * G.matN * G.elemBytes) ≤ x →
          (run P L E order s).hbm x = s.hbm x) ∧
      Sizes.hbmABaseOffset + G.matN * G.matN * G.elemBytes = G.hbmBBaseOffset ∧
      G.hbmBBaseOffset + G.matN * G.matN * G.elemBytes = G.hbmCBaseOffset := by
  have matrix : G.matN * G.matN * G.elemBytes = 16 * G.tileBytes := by
    rw [G.square]
    unfold Sizes.tileBytes Sizes.rowBytes
    ring
  have low : hbmAddr P.hbmStartBase G.hbmCBaseOffset = baseC P G := by
    rw [G.hbmCBaseOffset_eq]
    rfl
  have high : hbmAddr P.hbmStartBase (G.hbmCBaseOffset + G.matN * G.matN * G.elemBytes) =
      baseC P G + 16 * G.tileBytes := by
    rw [matrix, G.hbmCBaseOffset_eq]
    exact (Nat.add_assoc _ _ _).symm
  have apart := order_apart P L perm
  obtain ⟨-, apartA, apartB⟩ := L.apart P
  rw [low, high]
  refine ⟨fun i hi j hj => ?_, ?_, mem_order_written P L perm, fun x away => ?_, ?_, ?_⟩
  · have hi' : i / G.tile < 4 := Nat.div_lt_of_lt_mul (by rw [Nat.mul_comm, ← G.square]; exact hi)
    have hj' : j / G.tile < 4 := Nat.div_lt_of_lt_mul (by rw [Nat.mul_comm, ← G.square]; exact hj)
    have low := Nat.mod_lt i G.tile_pos
    have low' := Nat.mod_lt j G.tile_pos
    have stored := dataOut_c P L perm (compute P L E (dataIn P L s)) (⟨_, hj'⟩, ⟨_, hi'⟩) low low'
    have computed := matmul_c E ((dataIn P L s).l1 (⟨_, hj'⟩, ⟨_, hi'⟩)) apartA apartB low low'
    rw [dot_dataIn P L E s _ low low'] at computed
    dsimp only at stored computed
    rw [Nat.div_add_mod', Nat.div_add_mod'] at stored computed
    exact stored.trans computed
  · rw [List.nodup_flatMap]
    exact ⟨fun t _ => List.nodup_range', apart⟩
  · have unwritten : (run P L E order s).hbm x = (dataIn P L s).hbm x := by
      apply foldl_apply_of_notMem (fun t => (compute P L E (dataIn P L s)).l1 t.1) Prod.snd
      intro t mem here
      have inside := (mem_order_written P L perm x).mp (List.mem_flatMap.mpr ⟨t, mem, here⟩)
      omega
    rw [unwritten, dataIn_hbm]
  · rw [matrix, G.hbmBBaseOffset_eq, Sizes.hbmABaseOffset]
  · rw [matrix, G.hbmBBaseOffset_eq, G.hbmCBaseOffset_eq]
    omega

/-- Tiles of one element of one byte. -/
def oneByOne : Sizes := ⟨4, 1, 1, rfl, Nat.one_pos, Nat.one_pos, by decide⟩

/-- The blocks of a fresh heap. -/
def oneByOneBuffers : Buffers oneByOne :=
  ⟨64, 192, 320, by decide, by decide, by decide, by decide, by decide, by decide⟩

/-- A memory of integers. -/
def intElement : Element ℤ ℤ oneByOne.elemBytes :=
  ⟨fun x => [x], fun l => l.headD 0, fun _ => rfl, fun _ => rfl⟩

/-- The bases of the default architecture. -/
def defaultArch : Arch := ⟨0, 0xc0000000, by decide⟩

/-- Every cell of the memory holds its address. -/
def addressSystem : System ℤ := ⟨fun x => x, fun _ _ => 0⟩

theorem tiled_gemm_oneByOne :
    let order := allCopiesC defaultArch oneByOneBuffers
    let s' := run defaultArch oneByOneBuffers intElement order addressSystem
    (∀ i < oneByOne.matN, ∀ j < oneByOne.matN,
      loads s'.hbm (List.range' (elemAddr defaultArch oneByOne oneByOne.hbmCBaseOffset i j)
          oneByOne.elemBytes) =
        intElement.encode (∑ k ∈ Finset.range oneByOne.matN,
          intElement.load addressSystem.hbm
              (elemAddr defaultArch oneByOne Sizes.hbmABaseOffset i k) *
            intElement.load addressSystem.hbm
              (elemAddr defaultArch oneByOne oneByOne.hbmBBaseOffset k j))) ∧
      (order.flatMap fun t => t.2.written).Nodup ∧
      (∀ x, x ∈ (order.flatMap fun t => t.2.written) ↔
        hbmAddr defaultArch.hbmStartBase oneByOne.hbmCBaseOffset ≤ x ∧
          x < hbmAddr defaultArch.hbmStartBase (oneByOne.hbmCBaseOffset +
            oneByOne.matN * oneByOne.matN * oneByOne.elemBytes)) ∧
      (∀ x, x < hbmAddr defaultArch.hbmStartBase oneByOne.hbmCBaseOffset ∨
        hbmAddr defaultArch.hbmStartBase (oneByOne.hbmCBaseOffset +
          oneByOne.matN * oneByOne.matN * oneByOne.elemBytes) ≤ x →
            s'.hbm x = addressSystem.hbm x) ∧
      Sizes.hbmABaseOffset + oneByOne.matN * oneByOne.matN * oneByOne.elemBytes =
        oneByOne.hbmBBaseOffset ∧
      oneByOne.hbmBBaseOffset + oneByOne.matN * oneByOne.matN * oneByOne.elemBytes =
        oneByOne.hbmCBaseOffset :=
  tiled_gemm defaultArch oneByOneBuffers intElement _ (.refl _) addressSystem

end SoftHier.Gemm
