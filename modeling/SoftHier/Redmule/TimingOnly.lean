import SoftHier.Lib.Segments
import SoftHier.Redmule.Protocol
import SoftHier.Redmule.Requests

/-!
# Jobs without computation

A job with the computation disabled sends the requests of the job with the computation enabled if
every Z tile has the size that the accelerator has left from before, and only then.

* `Alike`: two sizes with which a tile is stored by the same requests.
* `requests_inj`: the requests of a job determine how the tiles are stored.
* `SameStores`, `timing_only`: when the requests are the same.
-/

namespace SoftHier.Redmule

section

variable {A : Arch} {R : Regs} {T : Tiles}

/-! ## Rows -/

/-- A tile is stored by the same requests with either size. -/
def Alike (R : Regs) (size size' : Nat × Nat) : Prop :=
  size.2 = size'.2 ∧ (size'.2 = 0 ∨ u32 (size.1 * R.elemSize) = u32 (size'.1 * R.elemSize))

theorem rowRequests_length {stride tileRow size n addr : Nat} {isWrite : Bool} :
    (rowRequests A R stride tileRow size isWrite n addr).length = n := by
  induction n generalizing addr with
  | zero => rfl
  | succ n ih => exact congrArg Nat.succ ih

theorem rowRequests_isWrite {stride tileRow size n addr : Nat} {isWrite : Bool} {r : TcdmReq}
    (mem : r ∈ rowRequests A R stride tileRow size isWrite n addr) : r.isWrite = isWrite := by
  induction n generalizing addr with
  | zero => cases mem
  | succ n ih =>
    rcases List.mem_cons.mp mem with rfl | later
    · rfl
    · exact ih later

/-- Row `i` is `i` steps away from the first one. -/
theorem rowRequests_addr (stride tileRow size : Nat) (isWrite : Bool) {n addr i : Nat}
    (less : i < n) (wrapped : addr < 2 ^ 32) :
    ∃ r, (rowRequests A R stride tileRow size isWrite n addr)[i]? = some r ∧
      r.addr = u32
        (addr + i * ((if A.foldTilesMapping then tileRow else stride) * R.elemSize)) := by
  induction i generalizing n addr with
  | zero =>
    cases n with
    | zero => cases less
    | succ n => exact ⟨_, rfl, by rw [Nat.zero_mul, Nat.add_zero, u32_of_lt wrapped]⟩
  | succ i ih =>
    cases n with
    | zero => cases less
    | succ n =>
      have next : incAddr A R addr stride tileRow =
          u32 (addr + (if A.foldTilesMapping then tileRow else stride) * R.elemSize) := by
        unfold incAddr
        split <;> rfl
      have wrapped' : incAddr A R addr stride tileRow < 2 ^ 32 := by
        rw [next]
        exact u32_lt _
      obtain ⟨r, found, addr'⟩ := ih (n := n) (Nat.lt_of_succ_lt_succ less) wrapped'
      refine ⟨r, found, ?_⟩
      rw [addr', next, Nat.succ_mul]
      unfold u32
      rw [Nat.mod_add_mod, Nat.add_assoc, Nat.add_comm (i * _)]

theorem storeRequests_eq_iff (tile : Nat × Nat) {size size' : Nat × Nat} :
    storeRequests A R tile size = storeRequests A R tile size' ↔ Alike R size size' := by
  constructor
  · intro same
    have height := congrArg List.length same
    unfold storeRequests at same height
    rw [rowRequests_length, rowRequests_length] at height
    refine ⟨height, ?_⟩
    cases rows : size'.2 with
    | zero => exact Or.inl rfl
    | succ n =>
      rw [height, rows] at same
      exact Or.inr (congrArg TcdmReq.size (List.cons.inj same).1)
  · rintro ⟨height, width⟩
    unfold storeRequests
    rcases width with none | width
    · rw [height, none]
      rfl
    · rw [height, width]

/-! ## Reads and writes -/

theorem storeRequests_isWrite {tile size : Nat × Nat} :
    ∀ r ∈ storeRequests A R tile size, r.isWrite = true := fun _ => rowRequests_isWrite

theorem routineStores_isWrite {it : Iter} {size : Nat × Nat} :
    ∀ r ∈ routineStores A R T it size, r.isWrite = true := by
  intro r mem
  unfold routineStores at mem
  split at mem
  · exact storeRequests_isWrite r mem
  · cases mem

/-- The reads of a phase are none without a row to read; the first row is one of Y or W. -/
theorem routineReads_cons {it : Iter} (rows : 0 < A.bufferN R.elemSize) :
    ∃ r l, routineReads A R T it = r :: l ∧ r.isWrite = false := by
  have reads : ∀ r ∈ routineReads A R T it, r.isWrite = false := by
    intro r mem
    unfold routineReads blockRequests getRoutineAccessBlockNumber at mem
    simp only [ite_self, rowRequests, List.append_nil, List.mem_append] at mem
    rcases mem with (y | w) | x
    · exact rowRequests_isWrite y
    · exact rowRequests_isWrite w
    · exact rowRequests_isWrite x
  have blocks : ∀ lastK : Bool,
      0 < if lastK && decide (T.xRowLefts > 0) then T.xRowLefts else A.bufferN R.elemSize := by
    intro lastK
    split
    · rename_i left
      exact of_decide_eq_true (Bool.and_eq_true_iff.mp left).2
    · exact rows
  cases given : routineReads A R T it with
  | nil =>
    have none := congrArg List.length given
    unfold routineReads blockRequests getRoutineAccessBlockNumber at none
    simp only [List.length_append, rowRequests_length, List.length_nil] at none
    have pos := blocks (it.k == sub32 T.xRowTiles 1)
    omega
  | cons r l => exact ⟨r, l, rfl, reads r (given ▸ List.mem_cons_self)⟩

/-- No request of a phase is lost if the number of its blocks does not wrap. -/
theorem routine_whole {it : Iter} {size : Nat × Nat} (tilesN : T.xRowLefts < A.bufferN R.elemSize)
    (bound : A.bufferN R.elemSize + 2 * A.bufferH + size.2 < 2 ^ 32) :
    (routineReads A R T it ++ routineStores A R T it size).take (routineTotal A R T it size.2) =
      routineReads A R T it ++ routineStores A R T it size := by
  have rows : ∀ i, rowBlocks A R i ≤ A.bufferH := fun i => Nat.min_le_right _ _
  apply List.take_of_length_le
  rw [← blockRequests_routine (a := ⟨0, 0, 0, 0, 0, 0, 0, 0, .loadY⟩)]
  unfold routineTotal blockRequests getRoutineAccessBlockNumber
  simp only [List.length_append, rowRequests_length]
  have x := rows (nextTile T it).i
  have y := rows (nextYTile T it).1
  rw [u32_of_lt]
  · split <;> split <;> split <;> split <;> omega
  · split <;> split <;> split <;> split <;> omega

/-! ## The stores of a job -/

theorem requestsAt_routine {size : Nat → Nat × Nat} {n : Nat}
    (tilesN : T.xRowLefts < A.bufferN R.elemSize)
    (bound : ∀ t, A.bufferN R.elemSize + 2 * A.bufferH + (size t).2 < 2 ^ 32) (less : n < T.total) :
    requestsAt A R T size (n + 1) = routineReads A R T (iterAt T n) ++
      routineStores A R T (iterAt T n) (size (n / T.xRowTiles - 1)) := by
  unfold requestsAt
  rw [if_neg (Nat.succ_ne_zero n), if_pos (Nat.succ_le_of_lt less), Nat.add_sub_cancel]
  exact routine_whole tilesN (bound _)

theorem requestsAt_storing (size : Nat → Nat × Nat) :
    requestsAt A R T size (T.total + 1) =
      storeRequests A R (tileAt T (T.zColTiles * T.zRowTiles - 1))
      (size (T.zColTiles * T.zRowTiles - 1)) := by
  unfold requestsAt
  rw [if_neg (Nat.succ_ne_zero _), if_neg (Nat.not_succ_le_self _)]

/-- The tile before tile `t + 1`. -/
theorem previousZTile_eq {t : Nat} (sound : T.Sound) (less : t + 1 < T.zColTiles * T.zRowTiles) :
    previousZTile T ⟨(t + 1) / T.zRowTiles, (t + 1) % T.zRowTiles, 0⟩ = tileAt T t := by
  have pos := sound.zRow_pos
  have product := Nat.div_add_mod (t + 1) T.zRowTiles
  have row : (t + 1) / T.zRowTiles < T.zColTiles :=
    Nat.div_lt_of_lt_mul (Nat.mul_comm T.zColTiles T.zRowTiles ▸ less)
  have column := Nat.mod_lt (t + 1) pos
  unfold previousZTile tileAt
  dsimp only
  split
  · rename_i whole
    rw [whole, Nat.add_zero] at product
    have some : 0 < (t + 1) / T.zRowTiles := by
      rcases Nat.eq_zero_or_pos ((t + 1) / T.zRowTiles) with none | some
      · rw [none, Nat.mul_zero] at product
        cases product
      · exact some
    have split : T.zRowTiles - 1 + T.zRowTiles * ((t + 1) / T.zRowTiles - 1) = t := by
      rw [Nat.mul_sub_one]
      have le := Nat.le_mul_of_pos_right T.zRowTiles some
      omega
    obtain ⟨row', column'⟩ := (Nat.div_mod_unique pos).mpr ⟨split, by omega⟩
    rw [sub32_of_le some (Nat.lt_trans row sound.zCol_lt), sub32_of_le pos sound.zRow_lt, row',
      column']
  · rename_i inner
    have split : (t + 1) % T.zRowTiles - 1 + T.zRowTiles * ((t + 1) / T.zRowTiles) = t := by omega
    obtain ⟨row', column'⟩ := (Nat.div_mod_unique pos).mpr ⟨split, by omega⟩
    rw [sub32_of_le (by omega) (Nat.lt_trans column sound.zRow_lt), row', column']

/-- Tile `t` is stored in the first iteration of the next tile. -/
theorem routineStores_first {t : Nat} {size : Nat × Nat} (sound : T.Sound)
    (less : t + 1 < T.zColTiles * T.zRowTiles) :
    routineStores A R T (iterAt T ((t + 1) * T.xRowTiles)) size =
      storeRequests A R (tileAt T t) size := by
  have product := Nat.div_add_mod (t + 1) T.zRowTiles
  have tile : iterAt T ((t + 1) * T.xRowTiles) =
      ⟨(t + 1) / T.zRowTiles, (t + 1) % T.zRowTiles, 0⟩ := by
    unfold iterAt
    rw [Nat.mul_div_cancel _ sound.xRow_pos, Nat.mul_mod_left]
  have notFirst : isFirstIteration ⟨(t + 1) / T.zRowTiles, (t + 1) % T.zRowTiles, 0⟩ = false := by
    by_contra first
    unfold isFirstIteration at first
    simp only [Bool.not_eq_false, Bool.and_eq_true, beq_iff_eq] at first
    rw [first.1.1, first.1.2, Nat.mul_zero] at product
    cases product
  rw [tile]
  unfold routineStores
  rw [notFirst, previousZTile_eq sound less]
  rfl

/-- Nothing is stored in the other iterations. -/
theorem routineStores_other {n : Nat} {size : Nat × Nat} (other : n % T.xRowTiles ≠ 0 ∨ n = 0) :
    routineStores A R T (iterAt T n) size = [] := by
  have none : ((iterAt T n).k == 0 && !isFirstIteration (iterAt T n)) = false := by
    unfold iterAt isFirstIteration
    rcases other with inner | rfl
    · dsimp only
      rw [beq_false_of_ne inner, Bool.false_and]
    · simp only [Nat.zero_div, Nat.zero_mod, beq_self_eq_true, Bool.and_self, Bool.not_true,
        Bool.and_false]
  unfold routineStores
  rw [none, if_neg Bool.false_ne_true]

/-- Alike sizes give the same requests. -/
theorem requestsAt_congr {size size' : Nat → Nat × Nat} (sound : T.Sound)
    (alike : ∀ t < T.zColTiles * T.zRowTiles, Alike R (size t) (size' t)) (n : Nat) :
    requestsAt A R T size n = requestsAt A R T size' n := by
  have tiles : 0 < T.zColTiles * T.zRowTiles := Nat.mul_pos sound.zCol_pos sound.zRow_pos
  unfold requestsAt
  split
  · rfl
  · split
    · rename_i pos le
      have tile : (n - 1) / T.xRowTiles < T.zColTiles * T.zRowTiles := by
        apply Nat.div_lt_of_lt_mul
        rw [Nat.mul_comm]
        unfold Tiles.total at le
        omega
      have same := alike ((n - 1) / T.xRowTiles - 1) (by omega)
      have total : ∀ it, routineTotal A R T it (size ((n - 1) / T.xRowTiles - 1)).2 =
          routineTotal A R T it (size' ((n - 1) / T.xRowTiles - 1)).2 := fun it => by rw [same.1]
      have stores : ∀ it, routineStores A R T it (size ((n - 1) / T.xRowTiles - 1)) =
          routineStores A R T it (size' ((n - 1) / T.xRowTiles - 1)) := by
        intro it
        unfold routineStores
        rw [(storeRequests_eq_iff _).mpr same]
      dsimp only
      rw [total, stores]
    · exact (storeRequests_eq_iff _).mpr (alike _ (by omega))

/-- A job's requests as those of its first phase, of each iteration but the last, and the rest. -/
theorem requests_split {size : Nat → Nat × Nat} {N : Nat}
    (tilesN : T.xRowLefts < A.bufferN R.elemSize)
    (bound : ∀ t, A.bufferN R.elemSize + 2 * A.bufferH + (size t).2 < 2 ^ 32)
    (total : T.total = N + 1) :
    (List.range (T.total + 2)).flatMap (requestsAt A R T size) =
      preloadRequests A R ++ ((List.range N).flatMap (fun n => routineReads A R T (iterAt T n) ++
        routineStores A R T (iterAt T n) (size (n / T.xRowTiles - 1))) ++
          (routineReads A R T (iterAt T N) ++
            (routineStores A R T (iterAt T N) (size (N / T.xRowTiles - 1)) ++
              storeRequests A R (tileAt T (T.zColTiles * T.zRowTiles - 1))
                (size (T.zColTiles * T.zRowTiles - 1))))) := by
  have iterations : (List.range N).flatMap (fun n => requestsAt A R T size (n + 1)) =
      (List.range N).flatMap (fun n => routineReads A R T (iterAt T n) ++
        routineStores A R T (iterAt T n) (size (n / T.xRowTiles - 1))) :=
    List.flatMap_congr fun n mem =>
      requestsAt_routine tilesN bound (by have less := List.mem_range.mp mem; omega)
  have last := requestsAt_storing (A := A) (R := R) (T := T) size
  rw [total] at last ⊢
  rw [List.range_succ_eq_map, List.flatMap_cons, List.flatMap_map, List.range_succ, List.range_succ,
    List.flatMap_append, List.flatMap_append, List.flatMap_singleton, List.flatMap_singleton,
    iterations, requestsAt_routine tilesN bound (by omega), last, List.append_assoc,
    List.append_assoc]
  rfl

/-- A tile is stored in the first iteration of the next one. -/
theorem routineStores_tile {size : Nat → Nat × Nat} {t : Nat} (sound : T.Sound)
    (less : t + 1 < T.zColTiles * T.zRowTiles) :
    routineStores A R T (iterAt T ((t + 1) * T.xRowTiles))
        (size ((t + 1) * T.xRowTiles / T.xRowTiles - 1)) =
      storeRequests A R (tileAt T t) (size t) := by
  rw [routineStores_first sound less, Nat.mul_div_cancel _ sound.xRow_pos, Nat.add_sub_cancel]

theorem next_tile_of_iteration {N t : Nat} (total : T.total = N + 1)
    (le : (t + 1) * T.xRowTiles ≤ N) : t + 1 < T.zColTiles * T.zRowTiles := by
  apply Nat.lt_of_mul_lt_mul_right (a := T.xRowTiles)
  unfold Tiles.total at total
  omega

/-- In a job with one iteration a tile nothing is read between the last two. -/
theorem lastTwo_of_iteration {N t : Nat} (sound : T.Sound) (total : T.total = N + 1)
    (index : (t + 1) * T.xRowTiles = N) : t + 2 = T.zColTiles * T.zRowTiles := by
  have less := next_tile_of_iteration total (Nat.le_of_eq index)
  have le := Nat.mul_le_mul_right T.xRowTiles less
  have pos := sound.xRow_pos
  unfold Tiles.total at total
  rw [Nat.succ_mul] at le
  have one : T.xRowTiles = 1 := by omega
  rw [one] at total index
  omega

/-- The sizes of a job's tiles from its requests after the first phase: those of the iterations but
the last, each between the reads, and those of the last iteration and the last phase. -/
theorem alike_of_segments {size size' : Nat → Nat × Nat} {N : Nat} (sound : T.Sound)
    (total : T.total = N + 1)
    (lastTwo : ∀ t, t + 2 = T.zColTiles * T.zRowTiles →
      storeRequests A R (tileAt T t) (size t) ++
        storeRequests A R (tileAt T (t + 1)) (size (t + 1)) =
        storeRequests A R (tileAt T t) (size' t) ++
          storeRequests A R (tileAt T (t + 1)) (size' (t + 1)) → Alike R (size t) (size' t))
    (stores : ∀ n < N, routineStores A R T (iterAt T n) (size (n / T.xRowTiles - 1)) =
      routineStores A R T (iterAt T n) (size' (n / T.xRowTiles - 1)))
    (last : routineStores A R T (iterAt T N) (size (N / T.xRowTiles - 1)) ++
        storeRequests A R (tileAt T (T.zColTiles * T.zRowTiles - 1))
          (size (T.zColTiles * T.zRowTiles - 1)) =
      routineStores A R T (iterAt T N) (size' (N / T.xRowTiles - 1)) ++
        storeRequests A R (tileAt T (T.zColTiles * T.zRowTiles - 1))
          (size' (T.zColTiles * T.zRowTiles - 1))) :
    ∀ t < T.zColTiles * T.zRowTiles, Alike R (size t) (size' t) := by
  have inner : ∀ t, (t + 1) * T.xRowTiles < N → Alike R (size t) (size' t) := by
    intro t less
    have next := next_tile_of_iteration total (Nat.le_of_lt less)
    have alike := stores _ less
    rw [routineStores_tile sound next, routineStores_tile sound next] at alike
    exact (storeRequests_eq_iff _).mp alike
  have outer : ∀ t, (t + 1) * T.xRowTiles = N → Alike R (size t) (size' t) := by
    intro t index
    have next := next_tile_of_iteration total (Nat.le_of_eq index)
    have two := lastTwo_of_iteration sound total index
    rw [← index, routineStores_tile sound next, routineStores_tile sound next, ← two] at last
    exact lastTwo t two last
  intro t less
  rcases Nat.lt_or_ge (t + 1) (T.zColTiles * T.zRowTiles) with notLast | isLast
  · have le := Nat.mul_le_mul_right T.xRowTiles notLast
    have whole : T.total = T.zColTiles * T.zRowTiles * T.xRowTiles := rfl
    have pos := sound.xRow_pos
    rw [Nat.succ_mul] at le
    rcases Nat.lt_or_ge ((t + 1) * T.xRowTiles) N with before | after
    · exact inner t before
    · exact outer t (by omega)
  · obtain rfl : t = T.zColTiles * T.zRowTiles - 1 := by omega
    apply (storeRequests_eq_iff (A := A) (tileAt T (T.zColTiles * T.zRowTiles - 1))).mp
    rcases Decidable.em (N % T.xRowTiles ≠ 0 ∨ N = 0) with other | stored
    · rw [routineStores_other other, routineStores_other other] at last
      exact last
    · -- the last iteration stores the tile before
      have pos : N ≠ 0 := fun zero => stored (Or.inr zero)
      have multiple : N % T.xRowTiles = 0 := not_not.mp fun inner => stored (Or.inl inner)
      obtain ⟨q, product⟩ := Nat.dvd_of_mod_eq_zero multiple
      cases q with
      | zero => exact absurd product pos
      | succ t =>
        have index : (t + 1) * T.xRowTiles = N := by rw [product, Nat.mul_comm]
        have next := next_tile_of_iteration total (Nat.le_of_eq index)
        have alike := (storeRequests_eq_iff (A := A) (tileAt T t)).mpr (outer t index)
        rw [← index, routineStores_tile sound next, routineStores_tile sound next, alike] at last
        exact List.append_cancel_left last

/-- The requests of a job determine the sizes with which its tiles are stored, if those of the last
two do when nothing is read between them. -/
theorem requests_inj {size size' : Nat → Nat × Nat} (sound : T.Sound)
    (tilesN : T.xRowLefts < A.bufferN R.elemSize)
    (bound : ∀ t, A.bufferN R.elemSize + 2 * A.bufferH + (size t).2 < 2 ^ 32)
    (bound' : ∀ t, A.bufferN R.elemSize + 2 * A.bufferH + (size' t).2 < 2 ^ 32)
    (lastTwo : ∀ t, t + 2 = T.zColTiles * T.zRowTiles →
      storeRequests A R (tileAt T t) (size t) ++
        storeRequests A R (tileAt T (t + 1)) (size (t + 1)) =
        storeRequests A R (tileAt T t) (size' t) ++
          storeRequests A R (tileAt T (t + 1)) (size' (t + 1)) → Alike R (size t) (size' t))
    (same : (List.range (T.total + 2)).flatMap (requestsAt A R T size) =
      (List.range (T.total + 2)).flatMap (requestsAt A R T size')) :
    ∀ t < T.zColTiles * T.zRowTiles, Alike R (size t) (size' t) := by
  have total : T.total = (T.total - 1) + 1 := by
    have pos := sound.total_pos
    omega
  generalize T.total - 1 = N at total
  rw [requests_split tilesN bound total, requests_split tilesN bound' total] at same
  have reads : ∀ n, ∃ r l, routineReads A R T (iterAt T n) = r :: l ∧ r.isWrite = false :=
    fun n => routineReads_cons (Nat.zero_lt_of_lt tilesN)
  obtain ⟨r, l, first, read⟩ := reads N
  obtain ⟨stores, rest⟩ := segments_inj TcdmReq.isWrite reads
    (fun n => routineStores_isWrite) (fun n => routineStores_isWrite) (separated_append first read)
    (separated_append first read) (List.append_cancel_left same)
  exact alike_of_segments sound total lastTwo stores (List.append_cancel_left rest)

/-! ## The last two tiles -/

/-- The sizes of two tiles that are stored one after the other, the second of them not the larger
one. -/
theorem stores_inj {tile tile' left size size' : Nat × Nat} (smaller : size'.2 ≤ size.2)
    (apart : size'.2 < size.2 → ∀ i < size.2,
      u32 (calculateTileBaseAddress A R R.zAddr R.kSize A.bufferH A.bufferW tile.1 tile.2 +
          i * ((if A.foldTilesMapping then A.bufferW else R.kSize) * R.elemSize)) ≠
        calculateTileBaseAddress A R R.zAddr R.kSize A.bufferH A.bufferW tile'.1 tile'.2)
    (same : storeRequests A R tile left ++ storeRequests A R tile' left =
      storeRequests A R tile size ++ storeRequests A R tile' size') : Alike R left size := by
  have wrapped : ∀ i j, calculateTileBaseAddress A R R.zAddr R.kSize A.bufferH A.bufferW i j <
      2 ^ 32 := by
    intro i j
    unfold calculateTileBaseAddress
    split
    · exact u32_lt _
    · exact u32_lt _
  have rows := congrArg List.length same
  rw [List.length_append, List.length_append] at rows
  unfold storeRequests at rows
  simp only [rowRequests_length] at rows
  by_cases height : left.2 = size.2
  · apply (storeRequests_eq_iff tile).mp
    apply (List.append_inj same ?_).1
    unfold storeRequests
    rw [rowRequests_length, rowRequests_length, height]
  · exfalso
    have less : left.2 < size.2 := by omega
    have pos : 0 < left.2 := by omega
    -- the second tile begins where the first one has another row
    obtain ⟨r, first, addr⟩ :=
      rowRequests_addr (A := A) R.kSize A.bufferW (u32 (left.1 * R.elemSize))
      true pos (wrapped tile'.1 tile'.2)
    obtain ⟨r', row, addr'⟩ :=
      rowRequests_addr (A := A) R.kSize A.bufferW (u32 (size.1 * R.elemSize))
      true less (wrapped tile.1 tile.2)
    have at' := congrArg (fun l : List TcdmReq => l[left.2]?) same
    unfold storeRequests at at'
    rw [List.getElem?_append_right (by rw [rowRequests_length]),
      List.getElem?_append_left (by rw [rowRequests_length]; exact less), rowRequests_length,
      Nat.sub_self, first, row] at at'
    obtain rfl := Option.some.inj at'
    rw [Nat.zero_mul, Nat.add_zero, u32_of_lt (wrapped _ _)] at addr
    exact apart (by omega) left.2 less (addr'.symm.trans addr)

/-- The size of Z tile `t`. -/
def tileSize (A : Arch) (R : Regs) (T : Tiles) (t : Nat) : Nat × Nat :=
  (zWidthCutoff A R (tileAt T t).2 / R.elemSize, zHeightCutoff A R (tileAt T t).1 / R.elemSize)

/-- The Z matrix, with its last tiles filled up, fits into the address space. -/
structure Fits (A : Arch) (R : Regs) : Prop where
  elem : 0 < R.elemSize
  height : 0 < A.bufferH
  width : 0 < A.bufferW
  columns : 0 < R.kSize
  matrix : (R.mSize + A.bufferH) * (R.kSize + A.bufferW) * R.elemSize < 2 ^ 32

theorem Fits.le (fits : Fits A R) {rows columns : Nat} (le : rows ≤ R.mSize + A.bufferH)
    (le' : columns ≤ R.kSize + A.bufferW) : rows * columns * R.elemSize < 2 ^ 32 :=
  Nat.lt_of_le_of_lt (Nat.mul_le_mul_right _ (Nat.mul_le_mul le le')) fits.matrix

theorem Fits.rows (fits : Fits A R) {rows : Nat} (le : rows ≤ R.mSize + A.bufferH) :
    rows * R.elemSize < 2 ^ 32 := by
  have whole := fits.le le (Nat.succ_le_of_lt (Nat.add_pos_left fits.columns A.bufferW))
  rw [Nat.mul_one] at whole
  exact whole

theorem zHeight_le (i : Nat) : zHeightCutoff A R i / R.elemSize ≤ A.bufferH := by
  apply Nat.div_le_of_le_mul
  apply Nat.le_trans (Nat.min_le_right _ _)
  rw [Nat.mul_comm]
  exact Nat.mod_le _ _

/-- A whole tile has `ce_height` rows. -/
theorem zHeight_whole (fits : Fits A R) {i : Nat} (whole : (i + 1) * A.bufferH ≤ R.mSize) :
    zHeightCutoff A R i / R.elemSize = A.bufferH := by
  rw [Nat.succ_mul] at whole
  have block : A.bufferHByte R.elemSize = A.bufferH * R.elemSize :=
    u32_of_lt (fits.rows (Nat.le_add_left _ _))
  have size : u32 (R.mSize * R.elemSize) = R.mSize * R.elemSize := u32_of_lt (fits.rows (by omega))
  have before : u32 (i * A.bufferHByte R.elemSize) = i * A.bufferH * R.elemSize := by
    rw [block, ← Nat.mul_assoc]
    exact u32_of_lt (fits.rows (by omega))
  have left : sub32 (R.mSize * R.elemSize) (i * A.bufferH * R.elemSize) =
      (R.mSize - i * A.bufferH) * R.elemSize := by
    rw [sub32_of_le (Nat.mul_le_mul_right _ (by omega)) (fits.rows (by omega)), Nat.sub_mul]
  unfold zHeightCutoff cutoff
  rw [size, before, left, block, Nat.min_eq_right (Nat.mul_le_mul_right _ (by omega)),
    Nat.mul_div_cancel _ fits.elem]

/-- With one column of tiles the rows of a tile come before the next tile. -/
theorem tiles_apart (fits : Fits A R) {t i : Nat} (row : i < A.bufferH) :
    u32 (calculateTileBaseAddress A R R.zAddr R.kSize A.bufferH A.bufferW t 0 +
        i * ((if A.foldTilesMapping then A.bufferW else R.kSize) * R.elemSize)) ≠
      calculateTileBaseAddress A R R.zAddr R.kSize A.bufferH A.bufferW (t + 1) 0 := by
  have wrap : ∀ {base before rows distance : Nat}, rows < distance → distance < 2 ^ 32 →
      u32 (u32 (base + before) + rows) ≠ u32 (base + (before + distance)) := by
    intro base before rows distance less bound
    unfold u32
    omega
  have e := fits.elem
  unfold calculateTileBaseAddress
  cases A.foldTilesMapping with
  | true =>
    have size : 1 * (R.kSize + A.bufferW) * R.elemSize < 2 ^ 32 :=
      fits.le (Nat.le_trans fits.height (Nat.le_add_left _ _)) (Nat.le_refl _)
    have sum : u32 (R.kSize + A.bufferW - 1) = R.kSize + A.bufferW - 1 := by
      apply u32_of_lt
      rw [Nat.one_mul] at size
      have le := Nat.le_mul_of_pos_right (R.kSize + A.bufferW) e
      omega
    have some : 1 ≤ (R.kSize + A.bufferW - 1) / A.bufferW :=
      (Nat.one_le_div_iff fits.width).mpr (by have k := fits.columns; omega)
    have across : (R.kSize + A.bufferW - 1) / A.bufferW * A.bufferW ≤ R.kSize + A.bufferW :=
      Nat.le_trans (Nat.div_mul_le_self _ _) (Nat.sub_le _ _)
    rw [if_pos rfl, if_pos rfl, if_pos rfl, sum]
    generalize (R.kSize + A.bufferW - 1) / A.bufferW = perRow at some across
    have distance : ((t + 1) * perRow + 0) * A.bufferW * A.bufferH * R.elemSize =
        (t * perRow + 0) * A.bufferW * A.bufferH * R.elemSize +
          A.bufferH * (perRow * A.bufferW) * R.elemSize := by ring
    dsimp only
    rw [distance]
    apply wrap
    · calc i * (A.bufferW * R.elemSize) < A.bufferH * (A.bufferW * R.elemSize) :=
            Nat.mul_lt_mul_of_pos_right row (Nat.mul_pos fits.width e)
        _ = A.bufferH * (1 * A.bufferW) * R.elemSize := by ring
        _ ≤ A.bufferH * (perRow * A.bufferW) * R.elemSize :=
            Nat.mul_le_mul_right _ (Nat.mul_le_mul_left _ (Nat.mul_le_mul_right _ some))
    · exact fits.le (Nat.le_add_left _ _) across
  | false =>
    rw [if_neg Bool.false_ne_true, if_neg Bool.false_ne_true, if_neg Bool.false_ne_true]
    have distance : ((t + 1) * A.bufferH * R.kSize + 0 * A.bufferW) * R.elemSize =
        (t * A.bufferH * R.kSize + 0 * A.bufferW) * R.elemSize +
          A.bufferH * R.kSize * R.elemSize := by
      ring
    rw [distance]
    apply wrap
    · rw [← Nat.mul_assoc]
      exact Nat.mul_lt_mul_of_pos_right (Nat.mul_lt_mul_of_pos_right row fits.columns) e
    · exact fits.le (Nat.le_add_left _ _) (Nat.le_add_right _ _)

/-- The size left from before is that of the last but one tile, if it is stored directly before the
last. -/
theorem lastTwo_inj (fits : Fits A R) (sound : (initTiles A R).Sound) {left : Nat × Nat} {t : Nat}
    (lastTwo : t + 2 = (initTiles A R).zColTiles * (initTiles A R).zRowTiles)
    (same : storeRequests A R (tileAt (initTiles A R) t) left ++
        storeRequests A R (tileAt (initTiles A R) (t + 1)) left =
      storeRequests A R (tileAt (initTiles A R) t) (tileSize A R (initTiles A R) t) ++
        storeRequests A R (tileAt (initTiles A R) (t + 1)) (tileSize A R (initTiles A R) (t + 1))) :
    Alike R left (tileSize A R (initTiles A R) t) := by
  have pos := sound.zRow_pos
  rcases Nat.eq_or_lt_of_le pos with one | more
  · -- one column: the tile before the last one is whole
    have place : ∀ u, tileAt (initTiles A R) u = (u, 0) := by
      intro u
      unfold tileAt
      rw [← one, Nat.div_one, Nat.mod_one]
    rw [← one, Nat.mul_one] at lastTwo
    have whole : (t + 1) * A.bufferH ≤ R.mSize := by
      have count : tileCount R.mSize A.bufferH ≤ R.mSize / A.bufferH + 1 := by
        unfold tileCount
        split <;> omega
      have less : t + 1 ≤ R.mSize / A.bufferH := by
        have tiles : (initTiles A R).zColTiles = tileCount R.mSize A.bufferH := rfl
        omega
      exact Nat.le_trans (Nat.mul_le_mul_right _ less) (Nat.div_mul_le_self _ _)
    have height : (tileSize A R (initTiles A R) t).2 = A.bufferH := by
      unfold tileSize
      rw [place]
      exact zHeight_whole fits whole
    apply stores_inj _ _ same
    · rw [height]
      exact zHeight_le _
    · intro _ i row
      rw [place, place]
      exact tiles_apart fits (height ▸ row)
  · -- more columns: both tiles are in the last row
    have row : ∀ u, u = t ∨ u = t + 1 →
        (tileAt (initTiles A R) u).1 = (initTiles A R).zColTiles - 1 := by
      intro u place
      apply Nat.div_eq_of_lt_le
      · rw [Nat.sub_one_mul]
        omega
      · rw [Nat.succ_mul, Nat.sub_one_mul]
        have le := Nat.le_mul_of_pos_left (initTiles A R).zRowTiles sound.zCol_pos
        omega
    have height : (tileSize A R (initTiles A R) (t + 1)).2 =
        (tileSize A R (initTiles A R) t).2 := by
      unfold tileSize
      rw [row t (Or.inl rfl), row (t + 1) (Or.inr rfl)]
    apply stores_inj (Nat.le_of_eq height) _ same
    intro less
    rw [height] at less
    exact absurd less (Nat.lt_irrefl _)

end

/-! ## Jobs -/

section

variable {Q : Type*} {A : Arch} {s t : Machine Q}

/-- Every Z tile has the height that the accelerator has left from before and, if that is not 0,
the width. -/
def SameStores (A : Arch) (s : Machine Q) : Prop :=
  ∀ i < tileCount s.regs.mSize A.bufferH, ∀ j < tileCount s.regs.kSize A.bufferW,
    zHeightCutoff A s.regs i / s.regs.elemSize = s.data.zStoreHeight ∧
      (s.data.zStoreHeight = 0 ∨
        u32 (zWidthCutoff A s.regs j / s.regs.elemSize * s.regs.elemSize) =
          u32 (s.data.zStoreWidth * s.regs.elemSize))

instance : Decidable (SameStores A s) :=
  inferInstanceAs (Decidable (∀ i < tileCount s.regs.mSize A.bufferH,
    ∀ j < tileCount s.regs.kSize A.bufferW, _))

/-- No number of requests of a phase and no address of the Z matrix wraps. -/
structure Roomy (A : Arch) (s : Machine Q) : Prop where
  fits : Fits A s.regs
  rows : 0 < A.bufferN s.regs.elemSize
  counts : A.bufferN s.regs.elemSize + 3 * A.bufferH + s.data.zStoreHeight < 2 ^ 32

theorem sameStores_iff (sound : (initTiles A s.regs).Sound) : SameStores A s ↔
    ∀ t < (initTiles A s.regs).zColTiles * (initTiles A s.regs).zRowTiles,
      Alike s.regs s.data.storeSize (tileSize A s.regs (initTiles A s.regs) t) := by
  constructor
  · intro same t less
    have row : t / (initTiles A s.regs).zRowTiles < (initTiles A s.regs).zColTiles :=
      Nat.div_lt_of_lt_mul (Nat.mul_comm _ (initTiles A s.regs).zRowTiles ▸ less)
    obtain ⟨height, width⟩ := same _ row _ (Nat.mod_lt t sound.zRow_pos)
    refine ⟨height.symm, ?_⟩
    rcases width with none | width
    · exact Or.inl (height.trans none)
    · exact Or.inr width.symm
  · intro alike i row j column
    have inside : Iter.Inside (initTiles A s.regs) ⟨i, j, 0⟩ := ⟨row, column, sound.xRow_pos⟩
    have less : i * (initTiles A s.regs).zRowTiles + j <
        (initTiles A s.regs).zColTiles * (initTiles A s.regs).zRowTiles := by
      have le := Nat.mul_le_mul_right (initTiles A s.regs).zRowTiles row
      rw [Nat.succ_mul] at le
      have column' : j < (initTiles A s.regs).zRowTiles := column
      have rows : (initTiles A s.regs).zColTiles = tileCount s.regs.mSize A.bufferH := rfl
      rw [rows]
      omega
    obtain ⟨height, width⟩ := alike _ less
    unfold tileSize at height width
    rw [tileAt_eq inside] at height width
    refine ⟨height.symm, ?_⟩
    rcases width with none | width
    · exact Or.inl (height.trans none)
    · exact Or.inr width.symm

/-- A triggered job is at its first phase, with the computation enabled or disabled. -/
theorem trigger_located (mode : Nat) (bounded : Bounded s.fsm s.regs s.data)
    (triggered : trigger A s = some t) :
    Located (initTiles A s.regs) 0 { t with computeAble := mode } ∧
      phaseRequests A { t with computeAble := mode } = preloadRequests A s.regs ∧
      t.regs = s.regs ∧ t.data.storeSize = s.data.storeSize ∧ t.trace = s.trace := by
  obtain ⟨sound, state, -⟩ := trigger_sound bounded triggered
  have sound' : Machine.Sound { t with computeAble := mode } :=
    ⟨sound.bounded, sound.blocks, sound.tiles, sound.iter, sound.idle, sound.acknowledge⟩
  obtain ⟨-, -, -, rfl⟩ := trigger_eq triggered
  exact ⟨⟨sound', rfl, rfl, rfl, fun _ => rfl, fun routine => (by cases routine)⟩, rfl, rfl, rfl,
    rfl⟩

/-- The requests of a triggered job. -/
theorem trigger_trace (mode : Nat) (latency : Nat → Nat) (bounded : Bounded s.fsm s.regs s.data)
    (triggered : trigger A s = some t) :
    ∃ u, Finishes A latency { t with computeAble := mode } u ∧
      u.trace = s.trace ++ (List.range ((initTiles A s.regs).total + 2)).flatMap
        (requestsAt A s.regs (initTiles A s.regs)
          (if mode = 0 then fun _ => s.data.storeSize
            else tileSize A s.regs (initTiles A s.regs))) := by
  obtain ⟨located, start, regs, size, trace⟩ := trigger_located mode bounded triggered
  obtain ⟨u, ran, sent⟩ := trace_phases located (start.trans (by rw [← regs])) _ (Nat.le_refl _)
  have sizes : storedSize A { t with computeAble := mode } =
      if mode = 0 then fun _ => s.data.storeSize else tileSize A s.regs (initTiles A s.regs) := by
    have tiles : t.tiles = initTiles A s.regs := located.tiles
    funext tile
    unfold storedSize tileSize
    dsimp only
    rw [regs, size, tiles]
    split <;> rfl
  refine ⟨u, (finishes_iff latency located).mpr ran, ?_⟩
  rw [sent, sizes]
  dsimp only
  rw [regs, trace]

/-- A job with the computation disabled sends the requests of the same job with the computation
enabled if every Z tile has the size that is left from before; and only then, if no count and no
address wraps. -/
theorem timing_only {mode : Nat} (bounded : Bounded s.fsm s.regs s.data)
    (triggered : trigger A s = some t) (enabled : mode ≠ 0) (latency latency' : Nat → Nat) :
    ∃ u u', Finishes A latency { t with computeAble := 0 } u ∧
      Finishes A latency' { t with computeAble := mode } u' ∧
      (SameStores A s → u.trace = u'.trace) ∧
        (Roomy A s → u.trace = u'.trace → SameStores A s) := by
  obtain ⟨u, finished, trace⟩ := trigger_trace 0 latency bounded triggered
  obtain ⟨u', finished', trace'⟩ := trigger_trace mode latency' bounded triggered
  have located := (trigger_located 0 bounded triggered).1
  have sound := located.tilesSound (Nat.zero_le _)
  rw [if_pos rfl] at trace
  rw [if_neg enabled] at trace'
  refine ⟨u, u', finished, finished', fun same => ?_, fun roomy same => ?_⟩
  · rw [trace, trace']
    apply congrArg
    exact List.flatMap_congr fun n _ => requestsAt_congr sound ((sameStores_iff sound).mp same) n
  · rw [trace, trace'] at same
    have counts := roomy.counts
    have height : ∀ t, (tileSize A s.regs (initTiles A s.regs) t).2 ≤ A.bufferH :=
      fun t => zHeight_le _
    apply (sameStores_iff sound).mpr
    refine requests_inj sound (Nat.mod_lt _ roomy.rows) (fun t => ?_) (fun t => ?_)
      (fun t lastTwo => lastTwo_inj roomy.fits sound lastTwo) (List.append_cancel_left same)
    · have bound : s.data.storeSize.2 = s.data.zStoreHeight := rfl
      omega
    · have le := height t
      omega

end

/-! ## After construction -/

/-- The accelerator after a job whose last tile was one row of two elements. -/
def usedMachine : Machine Unit :=
  { tinySystem.machine with data := { zeroDatapath with zStoreWidth := 2, zStoreHeight := 1 } }

theorem timing_only_usedMachine : ∃ t u u', trigger tinyArch usedMachine = some t ∧
    Finishes tinyArch (fun _ => 0) { t with computeAble := 0 } u ∧
    Finishes tinyArch (fun _ => 7) { t with computeAble := 1 } u' ∧ u.trace = u'.trace := by
  have sound : Fsm.Sound usedMachine.fsm :=
    ⟨Nat.le_refl _, by decide, fun _ mem => (by cases mem), fun idle => (by cases idle)⟩
  have bounded : Bounded usedMachine.fsm usedMachine.regs usedMachine.data :=
    ⟨sound, by decide, by decide, by decide, by decide⟩
  have same : SameStores tinyArch usedMachine := by decide
  obtain ⟨u, u', finished, finished', equal, -⟩ :=
    timing_only (A := tinyArch) bounded rfl (by decide : 1 ≠ 0) (fun _ => 0) (fun _ => 7)
  exact ⟨_, u, u', rfl, finished, finished', equal same⟩

/-- The request of a core that starts a job in the given mode, with all addresses 0. -/
def startAt (mode : Byte) : IoReq := ⟨4, true, fun i => if i = 12 then mode else 0⟩

/-- The first job after construction stores nothing without the computation, and stores its tiles
with it. -/
theorem first_job_stores_nothing : ∃ s s' u u',
    tinySystem.step tinyArch (.coreAcc (startAt 0)) = some (s, .ok) ∧
      tinySystem.step tinyArch (.coreAcc (startAt 1)) = some (s', .ok) ∧
      s'.machine = { s.machine with computeAble := 1 } ∧
      Finishes tinyArch (fun _ => 0) s.machine u ∧ Finishes tinyArch (fun _ => 0) s'.machine u' ∧
      (∀ r ∈ u.trace, r.isWrite = false) ∧ (∃ r ∈ u'.trace, r.isWrite = true) ∧
      u.trace ≠ u'.trace := by
  have sound : tinySystem.machine.Sound := initial_sound.machine
  have bounded : ∀ mode, Bounded (configureXWY (startAt mode) tinySystem.machine).fsm
      (configureXWY (startAt mode) tinySystem.machine).regs
      (configureXWY (startAt mode) tinySystem.machine).data := fun _ =>
    ⟨sound.bounded.fsm, sound.bounded.mSize, sound.bounded.nSize, sound.bounded.kSize,
      sound.bounded.height⟩
  obtain ⟨u, finished, trace⟩ :=
    trigger_trace (A := tinyArch) 0 (fun _ => 0) (bounded 0) rfl
  obtain ⟨u', finished', trace'⟩ :=
    trigger_trace (A := tinyArch) 1 (fun _ => 0) (bounded 1) rfl
  have reads : ∀ r ∈ u.trace, r.isWrite = false := by
    rw [trace]
    decide
  have writes : ∃ r ∈ u'.trace, r.isWrite = true := by
    rw [trace']
    decide
  refine ⟨_, _, u, u', rfl, rfl, rfl, finished, finished', reads, writes, fun same => ?_⟩
  obtain ⟨r, mem, write⟩ := writes
  rw [← same] at mem
  exact absurd (reads r mem) (by rw [write]; decide)

end SoftHier.Redmule
