import SoftHier.Spatz.UnitStride
import SoftHier.Lib.Loops

/-!
# Vector integers from bits and bytes

`binToInt`, `buildDataInt`, `myAbs` and `myAbsU` add up bits or bytes of an element, each moved to
its place.  The multiplication by `pow(2, k)` has become a left shift of a promoted `int`, whose
bits above the 32 of an `int` do not exist and whose bit 31 is a sign.

* `shiftSum_eq_iff`: the shifts give the sum of the products exactly below 32 bits, and at 32 bits
  if the top bit is clear.
* `shift_rewrite_iff`: the four helpers for all element widths.
-/

namespace SoftHier.Spatz

/-! ## The code -/

/-- `x << k` for a value `x` promoted to `int`: undefined from 32 on, and otherwise the bits of an
`int`. -/
def shlInt (x k : Nat) : Option Int :=
  if k < 32 then some (BitVec.ofNat 32 (x <<< k)).toInt else none

/-- The loop `tmp = digit[j] << (w * j); *data += tmp`. -/
def shiftSum (digit : Nat → Nat) (w n : Nat) : Option (BitVec 64) :=
  (List.range n).foldlM
    (fun data j => (shlInt (digit j) (w * j)).map fun tmp => data + BitVec.ofInt 64 tmp) 0

/-- The replaced loop `*data += digit[j] * pow(2, w * j)`, with exact powers. -/
def powSum (digit : Nat → Nat) (w n : Nat) : BitVec 64 :=
  (List.range n).foldl (fun data j => data + BitVec.ofNat 64 (digit j * 2 ^ (w * j))) 0

/-- `*data += cin; *data = cin ? (-*data) : *data` -/
def applySign (cin : Int) (data : BitVec 64) : BitVec 64 :=
  let data := data + BitVec.ofInt 64 cin
  if cin ≠ 0 then -data else data

/-- `binToInt(size, dataIn, res)` -/
def binToInt (size : Nat) (dataIn : Nat → Bool) : Option (BitVec 64) :=
  shiftSum (fun j => (dataIn j).toNat) 1 size

/-- `binToInt` before the change. -/
def binToIntPow (size : Nat) (dataIn : Nat → Bool) : BitVec 64 :=
  powSum (fun j => (dataIn j).toNat) 1 size

/-- The end of `buildDataInt(iss, vs, i, data)`: `temp` holds the bytes that its head has read. -/
def buildDataInt (iteration : Nat) (temp : Buffer) : Option (BitVec 64) :=
  shiftSum (fun j => (temp j).toNat) 8 iteration

/-- `buildDataInt` before the change. -/
def buildDataIntPow (iteration : Nat) (temp : Buffer) : BitVec 64 :=
  powSum (fun j => (temp j).toNat) 8 iteration

/-- The end of `myAbs(iss, size, vs, i, data)`: its head has set `temp` and `cin`. -/
def myAbs (iteration : Nat) (temp : Buffer) (cin : Int) : Option (BitVec 64) :=
  (shiftSum (fun j => (temp j).toNat) 8 iteration).map (applySign cin)

/-- `myAbs` before the change. -/
def myAbsPow (iteration : Nat) (temp : Buffer) (cin : Int) : BitVec 64 :=
  applySign cin (powSum (fun j => (temp j).toNat) 8 iteration)

/-- The end of `myAbsU(iss, size, vs, i, data)`. -/
def myAbsU (iteration : Nat) (temp : Buffer) : Option (BitVec 64) :=
  shiftSum (fun j => (temp j).toNat) 8 iteration

/-- `myAbsU` before the change. -/
def myAbsUPow (iteration : Nat) (temp : Buffer) : BitVec 64 :=
  powSum (fun j => (temp j).toNat) 8 iteration

/-! ## Sums of shifted digits -/

section

variable {digit : Nat → Nat} {w n k x : Nat}

/-- A shift that does not reach the sign is the product. -/
theorem shlInt_of_lt (less : k < 32) (small : x * 2 ^ k < 2 ^ 31) :
    shlInt x k = some ((x * 2 ^ k : Nat) : Int) := by
  unfold shlInt
  rw [if_pos less, Nat.shiftLeft_eq, BitVec.toInt_eq_toNat_of_lt, BitVec.toNat_ofNat,
    Nat.mod_eq_of_lt (by omega)]
  rw [BitVec.toNat_ofNat]
  omega

/-- A shift into the sign. -/
theorem shlInt_of_sign (less : k < 32) (sign : 2 ^ 31 ≤ x * 2 ^ k) (word : x * 2 ^ k < 2 ^ 32) :
    shlInt x k = some ((x * 2 ^ k : Nat) - 2 ^ 32 : Int) := by
  unfold shlInt
  rw [if_pos less, Nat.shiftLeft_eq, BitVec.toInt_eq_toNat_cond, BitVec.toNat_ofNat,
    Nat.mod_eq_of_lt word, if_neg (by omega)]
  rfl

theorem shiftSum_succ : shiftSum digit w (n + 1) = (shiftSum digit w n).bind fun data =>
    (shlInt (digit n) (w * n)).map fun tmp => data + BitVec.ofInt 64 tmp := by
  unfold shiftSum
  rw [List.range_succ, List.foldlM_append]
  simp

theorem powSum_succ : powSum digit w (n + 1) =
    powSum digit w n + BitVec.ofNat 64 (digit n * 2 ^ (w * n)) := by
  unfold powSum
  rw [List.range_succ, List.foldl_append]
  rfl

variable (below : ∀ j, digit j < 2 ^ w)
include below

theorem digit_lt (j : Nat) : digit j * 2 ^ (w * j) < 2 ^ (w * (j + 1)) := by
  rw [Nat.mul_succ, Nat.add_comm, Nat.pow_add]
  exact Nat.mul_lt_mul_of_pos_right (below j) (Nat.two_pow_pos _)

/-- Below 32 bits the shifts are products. -/
theorem shiftSum_of_lt (pos : 0 < w) (short : w * n < 32) :
    shiftSum digit w n = some (powSum digit w n) := by
  induction n with
  | zero => rfl
  | succ n ih =>
    have before : w * n < 32 := by
      rw [Nat.mul_succ] at short
      omega
    have small : digit n * 2 ^ (w * n) < 2 ^ 31 :=
      (digit_lt below n).trans_le (Nat.pow_le_pow_right (by decide) (by omega))
    rw [shiftSum_succ, powSum_succ, ih before, shlInt_of_lt before small, Option.bind_some,
      Option.map_some, BitVec.ofInt_natCast]

omit below in
/-- Behind 32 bits a shift is undefined. -/
theorem shiftSum_of_gt (pos : 0 < w) (dvd : w ∣ 32) (long : 32 < w * n) :
    shiftSum digit w n = none := by
  induction n with
  | zero => omega
  | succ n ih =>
    rw [shiftSum_succ]
    rcases Nat.lt_or_ge 32 (w * n) with before | here
    · rw [ih before]
      rfl
    · obtain ⟨m, whole⟩ := dvd
      rw [whole] at here long
      have least := Nat.le_of_mul_le_mul_left here pos
      have most := Nat.lt_of_mul_lt_mul_left long
      obtain rfl : n = m := by omega
      have undefined : shlInt (digit n) (w * n) = none := if_neg (by omega)
      simp [undefined]

/-- The shift of the top digit of 32 bits is the product if its own top bit is clear. -/
theorem shiftSum_last (pos : 0 < w) (whole : w * (n + 1) = 32) :
    shiftSum digit w (n + 1) = some (powSum digit w (n + 1)) ↔ digit n < 2 ^ (w - 1) := by
  have before : w * n < 32 := by
    rw [Nat.mul_succ] at whole
    omega
  have word : digit n * 2 ^ (w * n) < 2 ^ 32 := whole ▸ digit_lt below n
  have top : 2 ^ 31 = 2 ^ (w - 1) * 2 ^ (w * n) := by
    rw [← Nat.pow_add]
    congr 1
    rw [Nat.mul_succ] at whole
    omega
  rw [shiftSum_succ, powSum_succ, shiftSum_of_lt below pos before, Option.bind_some]
  rcases Nat.lt_or_ge (digit n) (2 ^ (w - 1)) with clear | set
  · have small : digit n * 2 ^ (w * n) < 2 ^ 31 := by
      rw [top]
      exact Nat.mul_lt_mul_of_pos_right clear (Nat.two_pow_pos _)
    rw [shlInt_of_lt before small, Option.map_some, BitVec.ofInt_natCast]
    exact ⟨fun _ => clear, fun _ => rfl⟩
  · have sign : 2 ^ 31 ≤ digit n * 2 ^ (w * n) := by
      rw [top]
      exact Nat.mul_le_mul_right _ set
    rw [shlInt_of_sign before sign word, Option.map_some, Option.some_inj, BitVec.add_right_inj]
    refine ⟨fun same => ?_, fun clear => absurd clear (Nat.not_lt.mpr set)⟩
    -- the sum is 2 ^ 32 too small
    have bits := congrArg BitVec.toNat same
    rw [BitVec.toNat_ofInt, BitVec.toNat_ofNat] at bits
    omega

/-- The shifts give the sum of the products exactly below 32 bits, and at 32 bits if the top bit is
clear. -/
theorem shiftSum_eq_iff (pos : 0 < w) (dvd : w ∣ 32) (n : Nat) :
    shiftSum digit w n = some (powSum digit w n) ↔
      w * n < 32 ∨ w * n = 32 ∧ digit (n - 1) < 2 ^ (w - 1) := by
  rcases Nat.lt_trichotomy (w * n) 32 with short | whole | long
  · rw [shiftSum_of_lt below pos short]
    exact ⟨fun _ => .inl short, fun _ => rfl⟩
  · cases n with
    | zero => omega
    | succ n =>
      rw [shiftSum_last below pos whole, Nat.add_sub_cancel]
      omega
  · rw [shiftSum_of_gt pos dvd long]
    constructor
    · intro same
      cases same
    · omega

end

/-! ## The helpers -/

theorem applySign_injective (cin : Int) : Function.Injective (applySign cin) := by
  intro a b same
  unfold applySign at same
  dsimp only at same
  split at same
  · exact (BitVec.add_left_inj _).mp (BitVec.neg_inj.mp same)
  · exact (BitVec.add_left_inj _).mp same

theorem bytes_eq_iff (e : Sew) (temp : Buffer) :
    shiftSum (fun j => (temp j).toNat) 8 e.bytes =
      some (powSum (fun j => (temp j).toNat) 8 e.bytes) ↔
      e.bytes < 4 ∨ e.bytes = 4 ∧ (temp 3).toNat < 2 ^ 7 := by
  rw [shiftSum_eq_iff (fun j => (temp j).isLt) (by decide) (by decide)]
  cases e with
  | e8 | e16 | e32 | e64 => simp [Sew.bytes]

/-- For elements of 8 and 16 bits the helpers are those with the powers of two; for elements of 32
bits exactly if the top bit that they shift is clear; and for elements of 64 bits never. -/
theorem shift_rewrite_iff (e : Sew) :
    (∀ dataIn, binToInt (8 * e.bytes) dataIn = some (binToIntPow (8 * e.bytes) dataIn) ↔
      e.bytes < 4 ∨ e.bytes = 4 ∧ dataIn 31 = false) ∧
    (∀ temp, buildDataInt e.bytes temp = some (buildDataIntPow e.bytes temp) ↔
      e.bytes < 4 ∨ e.bytes = 4 ∧ (temp 3).toNat < 2 ^ 7) ∧
    (∀ temp cin, myAbs e.bytes temp cin = some (myAbsPow e.bytes temp cin) ↔
      e.bytes < 4 ∨ e.bytes = 4 ∧ (temp 3).toNat < 2 ^ 7) ∧
    ∀ temp, myAbsU e.bytes temp = some (myAbsUPow e.bytes temp) ↔
      e.bytes < 4 ∨ e.bytes = 4 ∧ (temp 3).toNat < 2 ^ 7 := by
  refine ⟨fun dataIn => ?_, bytes_eq_iff e, fun temp cin => ?_, bytes_eq_iff e⟩
  · unfold binToInt binToIntPow
    rw [shiftSum_eq_iff (fun j => Bool.toNat_lt (dataIn j)) (by decide) (by decide)]
    cases e with
    | e8 | e16 | e32 | e64 => simp [Sew.bytes]
  · unfold myAbs myAbsPow
    rw [← bytes_eq_iff, Option.map_eq_some_iff]
    constructor
    · rintro ⟨data, sum, same⟩
      rw [sum, applySign_injective cin same]
    · intro sum
      exact ⟨_, sum, rfl⟩

/-- The bit pattern `0x80000000` of 32 bits becomes a negative number. -/
theorem shift_into_sign :
    binToInt 32 (fun j => j = 31) = some 0xffffffff80000000 ∧
      binToInt 32 (fun j => j = 31) ≠ some (binToIntPow 32 fun j => j = 31) ∧
      myAbsU 4 (fun j => if j = 3 then 0x80 else 0) ≠
        some (myAbsUPow 4 fun j => if j = 3 then 0x80 else 0) := by
  decide

end SoftHier.Spatz
