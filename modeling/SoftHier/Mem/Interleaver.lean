import Mathlib.Data.List.Nodup
import SoftHier.Lib.Interleave
import SoftHier.Lib.Memory
import SoftHier.Lib.Word

/-!
# The bank interleaver

`HWPEInterleaver` spreads the words of a memory over banks: a request is split at the bounds of the
bank words, and each piece is forwarded to its bank.

* `HWPEInterleaver.locate`: the bank and the offset in it of a global offset.
* `HWPEInterleaver.loop`: the splitting loop, with the accesses to the banks.
* `loop_spec`: the loop serves a request as one access to the located addresses.
* `interleaver_refines`: behind the interleaver the banks are one flat memory.
-/

namespace SoftHier.Mem

/-- The fields the constructor computes. -/
structure HWPEInterleaver where
  idShift : Nat
  idMask : Nat
  offsetRightShift : Nat
  offsetLeftShift : Nat
  bankWidth : Nat
  deriving Repr

/-- `HWPEInterleaver::HWPEInterleaver` -/
def HWPEInterleaver.new (nbBanks bankWidth : Nat) : HWPEInterleaver where
  idShift := bankWidth.log2
  idMask := (1 <<< nbBanks.log2) - 1
  offsetRightShift := bankWidth.log2 + nbBanks.log2
  offsetLeftShift := bankWidth.log2
  bankWidth := bankWidth

/-- What one pass of the loop forwards to a bank. -/
structure Piece where
  bankId : Nat
  bankOffset : Nat
  bankSize : Nat
  deriving DecidableEq, Repr

/-- The bytes of a piece. -/
def Piece.cells (p : Piece) : List (Nat × Nat) :=
  (List.range p.bankSize).map fun i => (p.bankId, p.bankOffset + i)

/-- A request: `addr` and the size of the data are 64-bit values. -/
structure IoReq where
  addr : Nat
  isWrite : Bool
  data : List UInt8
  addr_lt : addr < 2 ^ 64
  size_lt : data.length < 2 ^ 64

/-- What a byte memory answers to an access: the data buffer and the memory afterwards. -/
def respond {α : Type*} [DecidableEq α] (isWrite : Bool) (m : α → UInt8) (cells : List α)
    (data : List UInt8) : List UInt8 × (α → UInt8) :=
  if isWrite then (data, stores m cells data) else (loads m cells, m)

namespace HWPEInterleaver

/-- The bank and the offset in it of a global offset. -/
def locate (h : HWPEInterleaver) (offset : Nat) : Nat × Nat :=
  ((offset >>> h.idShift) &&& h.idMask,
    ((offset >>> h.offsetRightShift) <<< h.offsetLeftShift) +
      (offset &&& ((1 <<< h.offsetLeftShift) - 1)))

/-- What a pass of the loop forwards. -/
def piece (h : HWPEInterleaver) (offset size : Nat) : Piece where
  bankId := (h.locate offset).1
  bankOffset := (h.locate offset).2
  bankSize := min (h.bankWidth - (offset &&& (h.bankWidth - 1))) size

/-- The loop of `HWPEInterleaver::req`, for at most `fuel` passes: the pieces, the data buffer and
the banks afterwards. -/
def loop (h : HWPEInterleaver) (isWrite : Bool) :
    Nat → Nat → List UInt8 → (Nat × Nat → UInt8) →
      Option (List Piece × List UInt8 × (Nat × Nat → UInt8))
  | _, _, [], banks => some ([], [], banks)
  | 0, _, _ :: _, _ => none
  | fuel + 1, offset, byte :: data, banks =>
      let data := byte :: data
      let p := h.piece offset data.length
      let (bytes, banks) := respond isWrite banks p.cells (data.take p.bankSize)
      match h.loop isWrite fuel ((offset + p.bankSize) % 2 ^ 64) (data.drop p.bankSize) banks with
      | none => none
      | some (ps, rest, banks) => some (p :: ps, bytes ++ rest, banks)

/-- `HWPEInterleaver::req` -/
def req (h : HWPEInterleaver) (fuel : Nat) (r : IoReq) (banks : Nat × Nat → UInt8) :
    Option (List Piece × List UInt8 × (Nat × Nat → UInt8)) :=
  h.loop r.isWrite fuel r.addr r.data banks

/-- The requests of a sequence, one after the other, and the data buffers afterwards. -/
def run (h : HWPEInterleaver) (fuel : Nat) :
    List IoReq → (Nat × Nat → UInt8) → Option (List (List UInt8) × (Nat × Nat → UInt8))
  | [], banks => some ([], banks)
  | r :: rs, banks =>
      match h.req fuel r banks with
      | none => none
      | some (_, data, banks) =>
          match h.run fuel rs banks with
          | none => none
          | some (datas, banks) => some (data :: datas, banks)

end HWPEInterleaver

/-! ## The flat memory -/

/-- The addresses of `size` bytes, which wrap at 64 bits. -/
def addresses (addr size : Nat) : List Nat := (List.range size).map fun i => (addr + i) % 2 ^ 64

/-- A sequence of requests to one byte memory. -/
def flatRun : List IoReq → (Nat → UInt8) → List (List UInt8) × (Nat → UInt8)
  | [], m => ([], m)
  | r :: rs, m =>
      let (data, m) := respond r.isWrite m (addresses r.addr r.data.length) r.data
      let (datas, m) := flatRun rs m
      (data :: datas, m)

section

variable {α β : Type*} [DecidableEq α] [DecidableEq β] {as : List α}
  {xs : List UInt8}

/-- An access in two pieces. -/
theorem respond_append (isWrite : Bool) (m : α → UInt8) (len : as.length = xs.length)
    (bs : List α) (ys : List UInt8) : respond isWrite m (as ++ bs) (xs ++ ys) =
      ((respond isWrite m as xs).1 ++ (respond isWrite (respond isWrite m as xs).2 bs ys).1,
        (respond isWrite (respond isWrite m as xs).2 bs ys).2) := by
  cases isWrite with
  | true => exact congrArg (Prod.mk _) (stores_append len)
  | false => exact congrArg (Prod.mk · m) loads_append

/-- A memory behind an injective map of addresses answers as the memory itself. -/
theorem respond_comp (isWrite : Bool) {f : α → β} (inj : Function.Injective f) (m : β → UInt8)
    (as : List α) (xs : List UInt8) :
    respond isWrite (m ∘ f) as xs =
      ((respond isWrite m (as.map f) xs).1, (respond isWrite m (as.map f) xs).2 ∘ f) := by
  cases isWrite with
  | true => exact congrArg (Prod.mk _) (stores_comp inj m as xs).symm
  | false => exact congrArg (Prod.mk · _) (loads_comp m f as)

end

theorem length_addresses (addr size : Nat) : (addresses addr size).length = size := by
  rw [addresses, List.length_map, List.length_range]

/-- The first addresses of a request, and those of the rest. -/
theorem addresses_split {size k : Nat} (addr : Nat) (le : k ≤ size) :
    addresses addr size = addresses addr k ++ addresses ((addr + k) % 2 ^ 64) (size - k) := by
  have split : List.range size = List.range k ++ (List.range (size - k)).map (k + ·) := by
    rw [← List.range_add, Nat.add_sub_cancel' le]
  unfold addresses
  rw [split, List.map_append, List.map_map]
  apply congrArg
  apply List.map_congr_left
  intro i _
  rw [Function.comp_apply, ← Nat.add_assoc, Nat.mod_add_mod]

theorem nodup_addresses (addr : Nat) {size : Nat} (bound : size ≤ 2 ^ 64) :
    (addresses addr size).Nodup := by
  apply List.Nodup.map_on _ List.nodup_range
  intro i hi j hj same
  rw [List.mem_range] at hi hj
  omega

/-! ## The map of addresses -/

namespace HWPEInterleaver

section

variable {a b x i : Nat}

theorem locate_new (a b x : Nat) :
    (new (2 ^ a) (2 ^ b)).locate x = interleave (2 ^ a) (2 ^ b) x := by
  simp only [locate, new, Nat.log2_two_pow]
  exact interleave_shift a b x

/-- Within a bank word the offsets in the bank follow the global ones. -/
theorem locate_add (inside : x % 2 ^ b + i < 2 ^ b) :
    (new (2 ^ a) (2 ^ b)).locate (x + i) =
      (((new (2 ^ a) (2 ^ b)).locate x).1, ((new (2 ^ a) (2 ^ b)).locate x).2 + i) := by
  rw [locate_new, locate_new]
  exact interleave_add inside

/-- No two global offsets share a byte of a bank. -/
theorem locate_injective (a b : Nat) : Function.Injective (new (2 ^ a) (2 ^ b)).locate := by
  intro x y same
  rw [locate_new, locate_new] at same
  exact interleave_injective _ (Nat.two_pow_pos b) same

/-! ## The splitting loop -/

/-- A piece takes at least one byte, all in one bank word. -/
theorem piece_new (a b offset : Nat) {size : Nat} (some : 0 < size) :
    let p := (new (2 ^ a) (2 ^ b)).piece offset size
    0 < p.bankSize ∧ p.bankSize ≤ size ∧ p.bankOffset % 2 ^ b = offset % 2 ^ b ∧
      offset % 2 ^ b + p.bankSize ≤ 2 ^ b := by
  have inside : offset % 2 ^ b < 2 ^ b := Nat.mod_lt _ (Nat.two_pow_pos b)
  have taken : ((new (2 ^ a) (2 ^ b)).piece offset size).bankSize =
      min (2 ^ b - offset % 2 ^ b) size := by
    simp only [piece, new, Nat.and_two_pow_sub_one_eq_mod]
  have word : ((new (2 ^ a) (2 ^ b)).piece offset size).bankOffset % 2 ^ b = offset % 2 ^ b := by
    have located := congrArg Prod.snd (locate_new a b offset)
    exact (congrArg (· % 2 ^ b) located).trans (interleave_snd_mod _ _ _)
  simp only [taken, word, true_and]
  omega

/-- The bytes of a piece are those of the request. -/
theorem cells_piece (small : b ≤ 64) {offset size : Nat} (low : offset < 2 ^ 64) (some : 0 < size) :
    ((new (2 ^ a) (2 ^ b)).piece offset size).cells =
      (addresses offset ((new (2 ^ a) (2 ^ b)).piece offset size).bankSize).map
        (new (2 ^ a) (2 ^ b)).locate := by
  obtain ⟨-, -, -, word⟩ := piece_new a b offset some
  -- a bank word does not wrap
  have top : offset / 2 ^ b + 1 ≤ 2 ^ (64 - b) := by
    apply Nat.div_lt_of_lt_mul
    rw [← Nat.pow_add, Nat.add_sub_cancel' small]
    exact low
  have room : offset - offset % 2 ^ b + 2 ^ b ≤ 2 ^ 64 := by
    have whole := Nat.mul_le_mul_left (2 ^ b) top
    rw [← Nat.pow_add, Nat.add_sub_cancel' small, Nat.mul_succ] at whole
    have split := Nat.div_add_mod offset (2 ^ b)
    omega
  unfold Piece.cells addresses
  rw [List.map_map]
  apply List.map_congr_left
  intro i mem
  have le := Nat.mod_le offset (2 ^ b)
  have less := List.mem_range.mp mem
  have inside : offset % 2 ^ b + i < 2 ^ b := by omega
  have flat : (offset + i) % 2 ^ 64 = offset + i := Nat.mod_eq_of_lt (by omega)
  rw [Function.comp_apply, flat, locate_add inside]
  rfl

/-- A pass of the loop. -/
theorem loop_succ (h : HWPEInterleaver) (isWrite : Bool) (fuel offset : Nat) {data : List UInt8}
    (banks : Nat × Nat → UInt8) (some : 0 < data.length) :
    h.loop isWrite (fuel + 1) offset data banks =
      match h.loop isWrite fuel ((offset + (h.piece offset data.length).bankSize) % 2 ^ 64)
        (data.drop (h.piece offset data.length).bankSize)
        (respond isWrite banks (h.piece offset data.length).cells
          (data.take (h.piece offset data.length).bankSize)).2 with
      | none => none
      | .some (ps, rest, banks') => .some (h.piece offset data.length :: ps,
          (respond isWrite banks (h.piece offset data.length).cells
            (data.take (h.piece offset data.length).bankSize)).1 ++ rest, banks') := by
  cases data with
  | nil => cases some
  | cons byte data => rfl

/-- The loop ends, and serves the request as one access to the located addresses: its pieces cover
them in order, each in a single bank word. -/
theorem loop_spec (small : b ≤ 64) (isWrite : Bool) {fuel offset : Nat} {data : List UInt8}
    (banks : Nat × Nat → UInt8) (low : offset < 2 ^ 64) (enough : data.length ≤ fuel) :
    ∃ ps, (new (2 ^ a) (2 ^ b)).loop isWrite fuel offset data banks =
        some (ps, respond isWrite banks
          ((addresses offset data.length).map (new (2 ^ a) (2 ^ b)).locate) data) ∧
      ps.flatMap Piece.cells = (addresses offset data.length).map (new (2 ^ a) (2 ^ b)).locate ∧
      ∀ p ∈ ps, 0 < p.bankSize ∧ p.bankOffset % 2 ^ b + p.bankSize ≤ 2 ^ b := by
  induction fuel generalizing offset data banks with
  | zero =>
    obtain rfl : data = [] := List.length_eq_zero_iff.mp (Nat.le_zero.mp enough)
    cases isWrite <;> exact ⟨[], rfl, rfl, nofun⟩
  | succ fuel ih =>
    rcases Nat.eq_zero_or_pos data.length with none | some
    · obtain rfl : data = [] := List.length_eq_zero_iff.mp none
      cases isWrite <;> exact ⟨[], rfl, rfl, nofun⟩
    · obtain ⟨pos, le, word, inside⟩ := piece_new a b offset some
      have cells := cells_piece (a := a) small low some
      have pass := loop_succ (new (2 ^ a) (2 ^ b)) isWrite fuel offset banks some
      generalize (new (2 ^ a) (2 ^ b)).piece offset data.length = p at *
      have first : p.cells.length = (data.take p.bankSize).length := by
        rw [cells, List.length_map, length_addresses, List.length_take_of_le le]
      have rest : (data.drop p.bankSize).length = data.length - p.bankSize := List.length_drop
      have cover : p.cells ++ (addresses ((offset + p.bankSize) % 2 ^ 64)
          (data.length - p.bankSize)).map (new (2 ^ a) (2 ^ b)).locate =
            (addresses offset data.length).map (new (2 ^ a) (2 ^ b)).locate := by
        rw [cells, ← List.map_append, ← addresses_split offset le]
      have whole := respond_append isWrite banks first ((addresses ((offset + p.bankSize) % 2 ^ 64)
        (data.length - p.bankSize)).map (new (2 ^ a) (2 ^ b)).locate) (data.drop p.bankSize)
      rw [List.take_append_drop, cover] at whole
      have low' : (offset + p.bankSize) % 2 ^ 64 < 2 ^ 64 := Nat.mod_lt _ (Nat.two_pow_pos 64)
      have enough' : (data.drop p.bankSize).length ≤ fuel := by omega
      obtain ⟨ps, served, after, within⟩ := ih
        (respond isWrite banks p.cells (data.take p.bankSize)).2 low' enough'
      rw [rest] at served after
      rw [served] at pass
      refine ⟨p :: ps, ?_, ?_, ?_⟩
      · rw [pass, whole]
      · rw [List.flatMap_cons, after, cover]
      · intro q mem
        rcases List.mem_cons.mp mem with rfl | mem
        · exact ⟨pos, by rw [word]; exact inside⟩
        · exact within q mem

end

/-! ## Sequences of requests -/

/-- The banks behind the interleaver answer as a flat memory. -/
theorem run_refines {a b : Nat} (small : b ≤ 64) {fuel : Nat} {rs : List IoReq}
    (enough : ∀ r ∈ rs, r.data.length ≤ fuel) (banks : Nat × Nat → UInt8) :
    ∃ datas banks', (new (2 ^ a) (2 ^ b)).run fuel rs banks = some (datas, banks') ∧
      flatRun rs (banks ∘ (new (2 ^ a) (2 ^ b)).locate) =
        (datas, banks' ∘ (new (2 ^ a) (2 ^ b)).locate) := by
  induction rs generalizing banks with
  | nil => exact ⟨[], banks, rfl, rfl⟩
  | cons r rs ih =>
    obtain ⟨ps, served, -⟩ := loop_spec (a := a) small r.isWrite banks r.addr_lt
      (enough r List.mem_cons_self)
    obtain ⟨datas, banks', rest, flat⟩ := ih (fun q mem => enough q (List.mem_cons_of_mem _ mem))
      (respond r.isWrite banks ((addresses r.addr r.data.length).map
        (new (2 ^ a) (2 ^ b)).locate) r.data).2
    have first := respond_comp r.isWrite (locate_injective a b) banks
      (addresses r.addr r.data.length) r.data
    refine ⟨(respond r.isWrite banks ((addresses r.addr r.data.length).map
      (new (2 ^ a) (2 ^ b)).locate) r.data).1 :: datas, banks', ?_, ?_⟩
    · rw [run, req, served]
      dsimp only
      rw [rest]
    · rw [flatRun, first]
      dsimp only
      rw [flat]

end HWPEInterleaver

/-- For powers of two, the width an `int`: every sequence of requests of any offset and size is
served, and reads what a flat memory would; each request is split into pieces that cover its bytes
exactly once and in order, none crossing a bank word; and no two global offsets share a byte of a
bank. -/
theorem interleaver_refines (a b : Nat) (bankWidth : 2 ^ b < 2 ^ 31) :
    (∀ rs banks, ∃ fuel datas banks',
      (HWPEInterleaver.new (2 ^ a) (2 ^ b)).run fuel rs banks = some (datas, banks') ∧
        flatRun rs (banks ∘ (HWPEInterleaver.new (2 ^ a) (2 ^ b)).locate) =
          (datas, banks' ∘ (HWPEInterleaver.new (2 ^ a) (2 ^ b)).locate)) ∧
      (∀ r banks, ∃ ps data banks',
        (HWPEInterleaver.new (2 ^ a) (2 ^ b)).req r.data.length r banks =
            some (ps, data, banks') ∧
          ps.flatMap Piece.cells = (addresses r.addr r.data.length).map
            (HWPEInterleaver.new (2 ^ a) (2 ^ b)).locate ∧
          (ps.flatMap Piece.cells).Nodup ∧
          ∀ p ∈ ps, p.bankOffset % 2 ^ b + p.bankSize ≤ 2 ^ b) ∧
      Function.Injective (HWPEInterleaver.new (2 ^ a) (2 ^ b)).locate := by
  have small : b ≤ 64 := by
    have bound := (Nat.pow_lt_pow_iff_right (by decide)).mp bankWidth
    omega
  refine ⟨fun rs banks => ?_, fun r banks => ?_, HWPEInterleaver.locate_injective a b⟩
  · obtain ⟨datas, banks', served, flat⟩ := HWPEInterleaver.run_refines (a := a) small
      (fun r (_ : r ∈ rs) => r.size_lt.le) banks
    exact ⟨2 ^ 64, datas, banks', served, flat⟩
  · obtain ⟨ps, served, cover, within⟩ := HWPEInterleaver.loop_spec (a := a) small r.isWrite banks
      r.addr_lt (Nat.le_refl r.data.length)
    refine ⟨ps, _, _, served, cover, ?_, fun p mem => (within p mem).2⟩
    rw [cover]
    exact List.Nodup.map (HWPEInterleaver.locate_injective a b) (nodup_addresses _ r.size_lt.le)

/-- Four banks of eight bytes. -/
theorem interleaver_refines_four :
    (∀ rs banks, ∃ fuel datas banks',
      (HWPEInterleaver.new (2 ^ 2) (2 ^ 3)).run fuel rs banks = some (datas, banks') ∧
        flatRun rs (banks ∘ (HWPEInterleaver.new (2 ^ 2) (2 ^ 3)).locate) =
          (datas, banks' ∘ (HWPEInterleaver.new (2 ^ 2) (2 ^ 3)).locate)) ∧
      (∀ r banks, ∃ ps data banks',
        (HWPEInterleaver.new (2 ^ 2) (2 ^ 3)).req r.data.length r banks =
            some (ps, data, banks') ∧
          ps.flatMap Piece.cells = (addresses r.addr r.data.length).map
            (HWPEInterleaver.new (2 ^ 2) (2 ^ 3)).locate ∧
          (ps.flatMap Piece.cells).Nodup ∧
          ∀ p ∈ ps, p.bankOffset % 2 ^ 3 + p.bankSize ≤ 2 ^ 3) ∧
      Function.Injective (HWPEInterleaver.new (2 ^ 2) (2 ^ 3)).locate :=
  interleaver_refines 2 3 (by decide)

/-- A request for twelve bytes at offset 30 takes the end of one word, the next one, and two bytes
of the one after it. -/
example : ((HWPEInterleaver.new 4 8).req 12 ⟨30, false, List.replicate 12 0, by decide, by decide⟩
    fun _ => 0).map Prod.fst = some [⟨3, 6, 2⟩, ⟨0, 8, 8⟩, ⟨1, 8, 2⟩] := by
  decide

end SoftHier.Mem
