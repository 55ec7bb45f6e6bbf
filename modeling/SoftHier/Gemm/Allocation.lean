import SoftHier.Alloc.Heap
import SoftHier.Gemm.Tiled

/-!
# The buffers of the benchmarks

The dm core of a cluster asks the allocator of its cluster for the blocks of its two strips and its
tile.  The clusters ask for the same blocks in the same order, but in `benchmark_2` and
`benchmark_3` cluster `(0, 0)` has asked for two blocks before, in which it prepares the matrices,
and never gives them back.

* `flexL1Mallocs`: requests one after the other.
* `places`, `flexL1Mallocs_spec`: the pointers into a heap of one block, and when one of them is
  `NULL`.
* `Requested`: a cluster has got its buffers; `requested_iff` says where they are.
-/

namespace SoftHier.Gemm

open Alloc

/-- `flex_l1_malloc` for each of the sizes: the pointers, and the heap after them. -/
def flexL1Mallocs (h : Heap) : List Nat → Option (List Nat × Heap)
  | [] => some ([], h)
  | size :: sizes =>
    (domainMalloc h size).bind fun got =>
      (flexL1Mallocs got.2 sizes).map fun rest => (got.1 :: rest.1, rest.2)

/-- The size of the block that `domain_malloc` takes. -/
def blockOf (size : Nat) : Nat := (size + 4 + 7) / 8 * 8

/-- All of them together. -/
def blocksOf (sizes : List Nat) : Nat := (sizes.map blockOf).sum

/-- The pointers behind the headers of consecutive blocks from `a` on. -/
def places (a : Nat) : List Nat → List Nat
  | [] => []
  | size :: sizes => (a + 4) :: places (a + blockOf size) sizes

/-- A heap whose only free block is the one of `n` bytes at `a`. -/
def single (a n : Nat) : List Block := if n = 0 then [] else [⟨a, n⟩]

section

variable {A : Arena} {s : Sys} {a n size : Nat} {sizes : List Nat}

theorem blockOf_pos : 0 < blockOf size := by
  unfold blockOf
  omega

theorem places_append (before sizes : List Nat) :
    places a (before ++ sizes) = places a before ++ places (a + blocksOf before) sizes := by
  induction before generalizing a with
  | nil => rfl
  | cons size before ih =>
    simp only [List.cons_append, places, ih, blocksOf, List.map_cons, List.sum_cons, Nat.add_assoc]

/-- The front of the free block is taken. -/
theorem cutFront_single (fits : blockOf size ≤ n) :
    cutFront ⟨a, n⟩ (blockOf size) = single (a + blockOf size) (n - blockOf size) := by
  unfold cutFront single
  by_cases whole : n = blockOf size
  · rw [if_pos whole, if_pos (by omega)]
  · rw [if_neg whole, if_neg (by omega)]

/-- Every request returns; all of them succeed exactly if the headers can hold the sizes and there
is room, and then the blocks follow each other. -/
theorem flexL1Mallocs_spec (inv : HeapInv A s (single a n))
    (valid : ∀ size ∈ sizes, blockOf size < 2 ^ 32) :
    ∃ ptrs h, flexL1Mallocs s.heap sizes = some (ptrs, h) ∧
      (0 ∉ ptrs ↔ (∀ size ∈ sizes, blockOf size < 2 ^ 24) ∧ blocksOf sizes ≤ n) ∧
      (0 ∉ ptrs → ptrs = places a sizes) := by
  induction sizes generalizing s a n with
  | nil => exact ⟨[], s.heap, rfl, by simp [blocksOf], fun _ => rfl⟩
  | cons size sizes ih =>
    have valid' : ∀ size ∈ sizes, blockOf size < 2 ^ 32 := fun _ mem =>
      valid _ (List.mem_cons_of_mem _ mem)
    have pos : 0 < blockOf size := blockOf_pos
    have total : blocksOf (size :: sizes) = blockOf size + blocksOf sizes := by
      simp only [blocksOf, List.map_cons, List.sum_cons]
    by_cases ok : blockOf size < 2 ^ 24 ∧ blockOf size ≤ n
    · obtain ⟨small, fits⟩ := ok
      have block : single a n = [] ++ ⟨a, n⟩ :: [] := if_neg (by omega)
      rw [block] at inv
      obtain ⟨h, ran, inv', -, -⟩ := domainMalloc_some inv small nofun fits
      have rest : [] ++ (cutFront ⟨a, n⟩ ((size + 4 + 7) / 8 * 8) ++ []) =
          single (a + blockOf size) (n - blockOf size) := by
        rw [List.nil_append, List.append_nil]
        exact cutFront_single fits
      rw [rest] at inv'
      obtain ⟨ptrs, h', ran', iff, eq⟩ := ih inv' valid'
      refine ⟨(a + 4) :: ptrs, h', ?_, ?_, fun held => ?_⟩
      · rw [flexL1Mallocs, ran, Option.bind_some]
        exact congrArg (Option.map _) ran'
      · rw [List.mem_cons, not_or, iff, total, List.forall_mem_cons]
        constructor
        · rintro ⟨-, smalls, room⟩
          exact ⟨⟨small, smalls⟩, by omega⟩
        · rintro ⟨⟨-, smalls⟩, room⟩
          exact ⟨by omega, smalls, by omega⟩
      · rw [places, eq fun mem => held (List.mem_cons_of_mem _ mem)]
    · have fails : 2 ^ 24 ≤ blockOf size ∨ ∀ b ∈ single a n, b.size < blockOf size := by
        rcases Nat.lt_or_ge (blockOf size) (2 ^ 24) with small | large
        · refine Or.inr fun b mem => ?_
          have short : ¬ blockOf size ≤ n := fun fits => ok ⟨small, fits⟩
          unfold single at mem
          split at mem
          · cases mem
          · rw [List.mem_singleton.mp mem]
            exact Nat.lt_of_not_le short
        · exact Or.inl large
      have ran := domainMalloc_none inv (valid size List.mem_cons_self) fails
      obtain ⟨ptrs, h', ran', -, -⟩ := ih inv valid'
      have null : 0 ∈ 0 :: ptrs := List.mem_cons_self
      refine ⟨0 :: ptrs, h', ?_, ?_, fun held => absurd null held⟩
      · rw [flexL1Mallocs, ran, Option.bind_some]
        exact congrArg (Option.map _) ran'
      · refine iff_of_false (fun held => held null) ?_
        rintro ⟨smalls, room⟩
        rw [total] at room
        exact ok ⟨smalls size List.mem_cons_self, by omega⟩

/-- In a fresh heap. -/
theorem flexL1Mallocs_init (A : Arena) (m : Mem) (valid : ∀ size ∈ sizes, blockOf size < 2 ^ 32) :
    ∃ ptrs h, flexL1Mallocs (A.init m).heap sizes = some (ptrs, h) ∧
      (0 ∉ ptrs ↔ (∀ size ∈ sizes, blockOf size < 2 ^ 24) ∧ blocksOf sizes ≤ A.size) ∧
      (0 ∉ ptrs → ptrs = places A.base sizes) := by
  have fresh : single A.base A.size = [⟨A.base, A.size⟩] := if_neg A.size_pos.ne'
  exact flexL1Mallocs_spec (fresh ▸ A.init_inv m) valid

end

/-! ## The buffers of a cluster -/

section

variable (G : Sizes)

/-- `B_BYTES`, of the whole matrix. -/
def bBytes : Nat := u32 (u32 (G.matN * G.matN) * G.elemBytes)

/-- The blocks in which the matrices are prepared. -/
def preloadRequests : List Nat := [u32 (G.bytesAStrip + 64), u32 (bBytes G + 64)]

/-- The blocks every cluster asks for. -/
def bufferRequests : List Nat :=
  [u32 (G.bytesAStrip + 64), u32 (G.bytesBStrip + 64), u32 (G.bytesCTile + 64)]

/-- After the requests `before` a cluster with heap `A` has got its buffers, and no request
failed. -/
def Requested {G : Sizes} (A : Arena) (m : Mem) (before : List Nat) (L : Buffers G) : Prop :=
  ∃ ptrs h, flexL1Mallocs (A.init m).heap (before ++ bufferRequests G) =
    some (ptrs ++ [L.rawA, L.rawB, L.rawC], h) ∧ 0 ∉ ptrs ++ [L.rawA, L.rawB, L.rawC]

variable {G} {A : Arena} {m : Mem} {before : List Nat} {L : Buffers G}

theorem preloadRequests_eq :
    preloadRequests G = [4 * G.tileBytes + 64, 16 * G.tileBytes + 64] := by
  have bound := G.bound
  rw [preloadRequests, bBytes, G.bytesAStrip_eq, G.u32_matrix, u32_of_lt (by omega),
    u32_of_lt (by omega)]

theorem bufferRequests_eq :
    bufferRequests G = [4 * G.tileBytes + 64, 4 * G.tileBytes + 64, G.tileBytes + 64] := by
  have bound := G.bound
  rw [bufferRequests, G.bytesAStrip_eq, G.bytesBStrip_eq, G.bytesCTile_eq, u32_of_lt (by omega),
    u32_of_lt (by omega)]

theorem blockOf_bounds (size : Nat) : size + 4 ≤ blockOf size ∧ blockOf size ≤ size + 11 := by
  unfold blockOf
  omega

/-- No request of a benchmark wraps. -/
theorem requests_valid {size : Nat} (mem : size ∈ preloadRequests G ++ bufferRequests G) :
    blockOf size < 2 ^ 32 := by
  have bound := G.bound
  have round := blockOf_bounds size
  rw [preloadRequests_eq, bufferRequests_eq] at mem
  simp only [List.cons_append, List.nil_append, List.mem_cons, List.not_mem_nil, or_false] at mem
  omega

/-- Where the buffers of a cluster are. -/
theorem Requested.raw (req : Requested A m before L)
    (valid : ∀ size ∈ before ++ bufferRequests G, blockOf size < 2 ^ 32) :
    [L.rawA, L.rawB, L.rawC] = places (A.base + blocksOf before) (bufferRequests G) := by
  obtain ⟨ptrs, h, ran, held⟩ := req
  obtain ⟨all, h', ran', -, eq⟩ := flexL1Mallocs_init A m valid
  obtain ⟨rfl, -⟩ := Prod.mk.inj (Option.some.inj (ran.symm.trans ran'))
  have split := eq held
  rw [places_append] at split
  refine (List.append_inj' split ?_).2
  rw [bufferRequests_eq]
  rfl

/-- If the headers can hold the sizes and there is room every request succeeds, and the blocks do
not overlap. -/
theorem exists_requested (small : ∀ size ∈ before ++ bufferRequests G, blockOf size < 2 ^ 24)
    (room : blocksOf (before ++ bufferRequests G) ≤ A.size) :
    ∃ L : Buffers G, Requested A m before L := by
  have bound := G.bound
  have stop := A.stop_lt
  have valid : ∀ size ∈ before ++ bufferRequests G, blockOf size < 2 ^ 32 := fun size mem =>
    (small size mem).trans (by decide)
  obtain ⟨ptrs, h, ran, held, eq⟩ := flexL1Mallocs_init A m valid
  have all : 0 ∉ ptrs := held.mpr ⟨small, room⟩
  obtain rfl := eq all
  have total : blocksOf (before ++ bufferRequests G) =
      blocksOf before + blocksOf (bufferRequests G) := by
    simp only [blocksOf, List.map_append, List.sum_append]
  have one := blockOf_bounds (4 * G.tileBytes + 64)
  have two := blockOf_bounds (G.tileBytes + 64)
  have request : u32 (G.bytesAStrip + 64) = 4 * G.tileBytes + 64 ∧
      u32 (G.bytesBStrip + 64) = 4 * G.tileBytes + 64 ∧
        u32 (G.bytesCTile + 64) = G.tileBytes + 64 := by
    rw [G.bytesAStrip_eq, G.bytesBStrip_eq, G.bytesCTile_eq, u32_of_lt (by omega),
      u32_of_lt (by omega)]
    exact ⟨rfl, rfl, rfl⟩
  obtain ⟨strip, strip', tile⟩ := request
  rw [total, bufferRequests_eq] at room
  simp only [blocksOf, List.map_cons, List.map_nil, List.sum_cons, List.sum_nil] at room
  rw [places_append, bufferRequests_eq, blocksOf] at ran all
  refine ⟨⟨A.base + (before.map blockOf).sum + 4,
    A.base + (before.map blockOf).sum + blockOf (4 * G.tileBytes + 64) + 4,
    A.base + (before.map blockOf).sum + blockOf (4 * G.tileBytes + 64) +
      blockOf (4 * G.tileBytes + 64) + 4, ?_, ?_, ?_, ?_, ?_, ?_⟩,
    places A.base before, h, ?_, all⟩
  · omega
  · omega
  · omega
  · omega
  · omega
  · omega
  · rw [bufferRequests_eq]
    exact ran

end

end SoftHier.Gemm
