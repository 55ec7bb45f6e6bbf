import SoftHier.Mem.Hbm
import SoftHier.Mem.Interleaver

/-!
# The banks of an HBM controller

An `hbm_ctrl` has three kinds of ports.  Each computes a bank and the offset in it from the offset
of a request by itself: the plain port with shifts and masks, the multiplexed ports after the node
they belong to and with an optional scrambling of the banks, the test-and-set ports with constants
of their own.

* `HbmConf`: the configuration; `HbmConf.req`, `HbmConf.reqMuxed`, `HbmConf.reqTs`: the places.
* `reqMuxed_places`: the multiplexed ports reach different places from different nodes and offsets.
* `ports_agree`: what the three have in common without scrambling.
-/

namespace SoftHier.Mem

/-- What the constructor reads with `get_child_int`. -/
structure HbmConf extends HbmCtrl where
  nbMasters : Nat
  stageBits : Nat
  xorScrambling : Nat
  redScrambling : Nat
  deriving Repr

namespace HbmConf

variable (c : HbmConf)

/-- `stage_bits` after the constructor. -/
def stage : Nat := if c.stageBits = 0 then c.nbSlaves.log2 else c.stageBits

/-- The constructor takes the logarithm of `nb_slaves`, and the `int` constants 1 that are shifted
by `stage_bits` and `interleaving_bits` stay in range. -/
def Defined : Prop := 0 < c.nbSlaves ∧ c.stage ≤ 30 ∧ c.interleavingBits ≤ 30

instance : Decidable c.Defined := inferInstanceAs (Decidable (_ ∧ _))

def bankMask : Nat := (1 <<< c.stage) - 1

/-- `hbm_ctrl::req`: the bank and the offset in it. -/
def req (offset : Nat) : Option (Nat × Nat) :=
  if c.Defined then some (c.bankId c.stage offset, c.bankOffset c.stage offset) else none

/-- The scrambling loop with `n` rounds left; `bank_id` is an `int`. -/
def xorLoop (stage : Nat) : Nat → Nat → Nat → Nat
  | 0, bankId, _ => bankId
  | n + 1, bankId, tmp => xorLoop stage n (u32 (bankId ^^^ tmp)) (tmp >>> stage)

/-- The number of rounds of the scrambling loop. -/
def numXor : Nat := (32 - c.interleavingBits - 1) / c.stage

/-- `hbm_ctrl::req_muxed`; the reduction divides by `nb_slaves - 1`. -/
def reqMuxed (muxId offset : Nat) : Option (Nat × Nat) :=
  if c.Defined then
    let offset := c.nodeOffset muxId offset
    let bankId := c.bankId c.stage offset
    let bankId :=
      if c.xorScrambling ≠ 0 ∧ 0 < c.stage then
        xorLoop c.stage c.numXor bankId (offset >>> (c.stage + c.interleavingBits)) &&& c.bankMask
      else bankId
    if c.redScrambling ≠ 0 then
      if c.nbSlaves - 1 = 0 then none
      else
        some ((offset >>> c.interleavingBits) % (c.nbSlaves - 1),
          (((offset >>> c.interleavingBits) / (c.nbSlaves - 1)) <<< c.interleavingBits) +
            (offset &&& ((1 <<< c.interleavingBits) - 1)))
    else some (bankId, c.bankOffset c.stage offset)
  else none

/-- `hbm_ctrl::req_ts`, where the alias at bit 20 is taken off. -/
def reqTs (offset : Nat) : Option (Nat × Nat) :=
  if c.Defined ∧ c.stage ≤ 20 then
    let bankOffset := ((offset >>> (c.stage + 2)) <<< 2) + (offset &&& 3)
    some (c.bankId c.stage offset, bankOffset &&& (2 ^ 64 - 1 - (1 <<< (20 - c.stage))))
  else none

/-- A port of the controller. -/
inductive Port where
  | plain
  | muxed (muxId : Nat)
  | ts
  deriving DecidableEq, Repr

/-- The place a port resolves an offset to. -/
def resolve : Port → Nat → Option (Nat × Nat)
  | .plain, offset => c.req offset
  | .muxed muxId, offset => c.reqMuxed muxId offset
  | .ts, offset => c.reqTs offset

/-- What a bank does with a request on a port: a read on a test-and-set port is followed by a write
of `ts_data`, which has eight bytes. -/
def forward : Port → IoReq → List (Nat × Nat) → (Nat × Nat → UInt8) →
    Option (List UInt8 × (Nat × Nat → UInt8))
  | .ts, r, cells, banks =>
      let (data, banks) := respond r.isWrite banks cells r.data
      if r.isWrite then some (data, banks)
      else if r.data.length ≤ 8 then
        some (data, stores banks cells (List.replicate r.data.length 0xff))
      else none
  | _, r, cells, banks => some (respond r.isWrite banks cells r.data)

/-- A request on a port: the data buffer and the banks afterwards. -/
def access (p : Port) (r : IoReq) (banks : Nat × Nat → UInt8) :
    Option (List UInt8 × (Nat × Nat → UInt8)) :=
  match c.resolve p r.addr with
  | none => none
  | some (bankId, bankOffset) =>
      if bankId < c.nbSlaves then
        forward p r ((List.range r.data.length).map fun i => (bankId, bankOffset + i)) banks
      else none

/-! ## Scrambling -/

section

variable {stage n a b tmp : Nat}

/-- The loop leaves a difference in the bank alone. -/
theorem xorLoop_xor (ha : a < 2 ^ 32) :
    xorLoop stage n (a ^^^ b) tmp = a ^^^ xorLoop stage n b tmp := by
  induction n generalizing b tmp with
  | zero => rfl
  | succ n ih =>
      have round : u32 (a ^^^ b ^^^ tmp) = a ^^^ u32 (b ^^^ tmp) := by
        unfold u32
        rw [Nat.xor_assoc, Nat.xor_mod_two_pow, Nat.mod_eq_of_lt ha]
      rw [xorLoop, xorLoop, round, ih]

/-- Different banks stay different. -/
theorem xorLoop_injective {k : Nat} (hk : k ≤ 32) (ha : a < 2 ^ k) (hb : b < 2 ^ k)
    (same : xorLoop stage n a tmp % 2 ^ k = xorLoop stage n b tmp % 2 ^ k) : a = b := by
  have word : 2 ^ k ≤ 2 ^ 32 := Nat.pow_le_pow_right (by decide) hk
  have loop : ∀ x, x < 2 ^ k → xorLoop stage n x tmp % 2 ^ k =
      x ^^^ xorLoop stage n 0 tmp % 2 ^ k := by
    intro x hx
    have start : xorLoop stage n (x ^^^ 0) tmp = x ^^^ xorLoop stage n 0 tmp :=
      xorLoop_xor (Nat.lt_of_lt_of_le hx word)
    rw [Nat.xor_zero] at start
    rw [start, Nat.xor_mod_two_pow, Nat.mod_eq_of_lt hx]
  rw [loop a ha, loop b hb] at same
  exact Nat.xor_left_injective same

end

/-- The bank of a row that the scrambled ports take for the bank `bankId`. -/
def order (row bankId : Nat) : Nat :=
  if c.xorScrambling ≠ 0 ∧ 0 < c.stage then
    xorLoop c.stage c.numXor bankId row &&& c.bankMask
  else bankId

theorem and_bankMask (x : Nat) : x &&& c.bankMask = x % 2 ^ c.stage := by
  unfold bankMask
  rw [Nat.shiftLeft_eq, Nat.one_mul, Nat.and_two_pow_sub_one_eq_mod]

variable {c}

theorem order_lt {row bankId : Nat} (inside : bankId < 2 ^ c.stage) :
    c.order row bankId < 2 ^ c.stage := by
  unfold order
  split
  · rw [c.and_bankMask]
    exact Nat.mod_lt _ (Nat.two_pow_pos _)
  · exact inside

theorem order_injective (defined : c.Defined) (row a b : Nat) (ha : a < 2 ^ c.stage)
    (hb : b < 2 ^ c.stage) (same : c.order row a = c.order row b) : a = b := by
  unfold order at same
  split at same
  · rw [c.and_bankMask, c.and_bankMask] at same
    exact xorLoop_injective (Nat.le_trans defined.2.1 (by decide)) ha hb same
  · exact same

/-- The place of an offset among those of all nodes. -/
def place (c : HbmConf) (x : Nat) : Nat × Nat :=
  if c.redScrambling ≠ 0 then interleave (c.nbSlaves - 1) (2 ^ c.interleavingBits) x
  else interleaveBy c.order (2 ^ c.stage) (2 ^ c.interleavingBits) x

theorem interleaveBy_order (x : Nat) :
    interleaveBy c.order (2 ^ c.stage) (2 ^ c.interleavingBits) x =
      (c.order (x >>> (c.stage + c.interleavingBits)) (c.bankId c.stage x),
        c.bankOffset c.stage x) := by
  obtain ⟨bank, offset⟩ := Prod.ext_iff.mp (c.bankId_bankOffset c.stage x)
  change c.bankId c.stage x = x / _ % _ at bank
  change c.bankOffset c.stage x = (interleave _ _ x).2 at offset
  unfold interleaveBy
  rw [bank, offset, Nat.shiftRight_eq_div_pow, Nat.add_comm, Nat.pow_add, Nat.div_div_eq_div_mul]

/-- A multiplexed port takes the place of the offset among those of all nodes. -/
theorem reqMuxed_eq (defined : c.Defined) (banks : c.redScrambling = 0 ∨ 2 ≤ c.nbSlaves)
    (muxId offset : Nat) :
    c.reqMuxed muxId offset = some (c.place (c.nodeOffset muxId offset)) := by
  unfold reqMuxed place
  rw [if_pos defined]
  dsimp only
  obtain ⟨x, hx⟩ : ∃ x, x = c.nodeOffset muxId offset := ⟨_, rfl⟩
  rw [← hx]
  split
  · rename_i red
    have several : ¬ c.nbSlaves - 1 = 0 := by
      have := banks.resolve_left red
      omega
    rw [if_neg several, Nat.shiftRight_eq_div_pow, Nat.shiftLeft_eq, Nat.shiftLeft_eq,
      Nat.one_mul, Nat.and_two_pow_sub_one_eq_mod]
    rfl
  · rw [interleaveBy_order]
    rfl

theorem place_injective (defined : c.Defined) : Function.Injective c.place := by
  have width : 0 < 2 ^ c.interleavingBits := Nat.two_pow_pos _
  intro x y same
  unfold place at same
  split at same
  · exact interleave_injective _ width same
  · exact interleaveBy_injective width (Nat.two_pow_pos _) (order_injective defined) same

theorem place_lt (banks : c.redScrambling = 0 ∨ 2 ≤ c.nbSlaves)
    (stage : 2 ^ c.stage ≤ c.nbSlaves) (x : Nat) : (c.place x).1 < c.nbSlaves := by
  unfold place
  split
  · rename_i red
    have several := banks.resolve_left red
    have bank : (interleave (c.nbSlaves - 1) (2 ^ c.interleavingBits) x).1 < c.nbSlaves - 1 :=
      interleave_fst_lt (by omega)
    omega
  · exact Nat.lt_of_lt_of_le (order_lt (Nat.mod_lt _ (Nat.two_pow_pos _))) stage

/-! ## The offsets of all nodes -/

section

variable {muxId muxId' offset offset' : Nat}

theorem node_eq (c : HbmConf) (muxId : Nat) : c.node muxId = muxId / max 1 c.hbmNodeAliase := by
  unfold HbmCtrl.node
  split
  · rename_i several
    rw [Nat.max_eq_right several.le]
  · rename_i single
    rw [Nat.max_eq_left (Nat.not_lt.mp single), Nat.div_one]

theorem node_le (master : muxId < c.nbMasters) : c.node muxId ≤ c.node (c.nbMasters - 1) := by
  rw [node_eq, node_eq]
  exact Nat.div_le_div_right (Nat.le_sub_one_of_lt master)

theorem nodeSize_lt (c : HbmConf) : c.nodeSize < 2 ^ 64 := Nat.mod_lt _ (by decide)

/-- The offsets of a node follow those of the nodes before it. -/
theorem nodeOffset_inside (fits : (c.node (c.nbMasters - 1) + 1) * c.nodeSize ≤ 2 ^ 64)
    (master : muxId < c.nbMasters) (inside : offset < c.nodeSize) :
    c.nodeOffset muxId offset = c.node muxId * c.nodeSize + offset := by
  have bound : c.node muxId * c.nodeSize + offset < 2 ^ 64 := by
    calc c.node muxId * c.nodeSize + offset
        < (c.node muxId + 1) * c.nodeSize := by
          rw [Nat.succ_mul]
          omega
      _ ≤ (c.node (c.nbMasters - 1) + 1) * c.nodeSize :=
          Nat.mul_le_mul_right _ (Nat.succ_le_succ (node_le master))
      _ ≤ 2 ^ 64 := fits
  unfold HbmCtrl.nodeOffset
  rw [u64_of_lt (n := c.node muxId * c.nodeSize) (by omega), u64_of_lt (by omega), Nat.add_comm]

theorem node_injective (inside : offset < c.nodeSize) (inside' : offset' < c.nodeSize)
    (same : c.node muxId * c.nodeSize + offset = c.node muxId' * c.nodeSize + offset') :
    c.node muxId = c.node muxId' ∧ offset = offset' := by
  have pos : 0 < c.nodeSize := Nat.zero_lt_of_lt inside
  have nodes := congrArg (· / c.nodeSize) same
  simp only [Nat.mul_comm _ c.nodeSize, Nat.mul_add_div pos, Nat.div_eq_of_lt inside,
    Nat.div_eq_of_lt inside', Nat.add_zero] at nodes
  rw [nodes] at same
  exact ⟨nodes, Nat.add_left_cancel same⟩

/-- The offsets of all nodes differ. -/
def Apart (c : HbmConf) : Prop :=
  ∀ muxId offset muxId' offset', muxId < c.nbMasters → offset < c.nodeSize →
    muxId' < c.nbMasters → offset' < c.nodeSize →
    (c.nodeOffset muxId offset = c.nodeOffset muxId' offset' ↔
      c.node muxId = c.node muxId' ∧ offset = offset')

/-- Nodes that do not fit in the word wrap around to the first one. -/
theorem nodeOffset_wraps (wide : 2 ^ 64 < (c.node (c.nbMasters - 1) + 1) * c.nodeSize) :
    ∃ muxId offset, muxId < c.nbMasters ∧ offset < c.nodeSize ∧
      c.nodeOffset muxId offset = c.nodeOffset 0 0 ∧ c.node muxId ≠ c.node 0 := by
  have size : 0 < c.nodeSize := Nat.pos_of_mul_pos_left (Nat.lt_trans (by decide) wide)
  have aliases : 0 < max 1 c.hbmNodeAliase := Nat.lt_of_lt_of_le Nat.one_pos (Nat.le_max_left _ _)
  -- the offset 2 ^ 64 among those of all nodes
  have division := Nat.div_add_mod (2 ^ 64) c.nodeSize
  have later : 0 < 2 ^ 64 / c.nodeSize := Nat.div_pos c.nodeSize_lt.le size
  have last : 2 ^ 64 / c.nodeSize ≤ c.node (c.nbMasters - 1) :=
    Nat.le_of_lt_succ (Nat.div_lt_of_lt_mul (by rwa [Nat.mul_comm]))
  have master : 2 ^ 64 / c.nodeSize * max 1 c.hbmNodeAliase < c.nbMasters := by
    have upTo : 2 ^ 64 / c.nodeSize * max 1 c.hbmNodeAliase ≤ c.nbMasters - 1 := by
      rw [node_eq] at last
      exact Nat.le_trans (Nat.mul_le_mul_right _ last) (Nat.div_mul_le_self _ _)
    have some := Nat.mul_pos later aliases
    omega
  have node : c.node (2 ^ 64 / c.nodeSize * max 1 c.hbmNodeAliase) = 2 ^ 64 / c.nodeSize := by
    rw [node_eq, Nat.mul_div_cancel _ aliases]
  have first : c.node 0 = 0 := by rw [node_eq, Nat.zero_div]
  refine ⟨_, 2 ^ 64 % c.nodeSize, master, Nat.mod_lt _ size, ?_, ?_⟩
  · unfold HbmCtrl.nodeOffset
    rw [node, first, Nat.zero_mul, u64, u64, Nat.add_mod_mod, Nat.mul_comm, Nat.add_comm,
      division]
    rfl
  · rw [node, first]
    exact Nat.ne_of_gt later

/-- The nodes keep apart exactly when the last of them ends in the word. -/
theorem apart_iff (c : HbmConf) :
    c.Apart ↔ (c.node (c.nbMasters - 1) + 1) * c.nodeSize ≤ 2 ^ 64 := by
  constructor
  · intro apart
    by_contra wide
    obtain ⟨muxId, offset, master, inside, same, differ⟩ := nodeOffset_wraps (Nat.not_le.mp wide)
    exact differ ((apart muxId offset 0 0 master inside (Nat.zero_lt_of_lt master)
      (Nat.zero_lt_of_lt inside)).mp same).1
  · intro fits muxId offset muxId' offset' master inside master' inside'
    rw [nodeOffset_inside fits master inside, nodeOffset_inside fits master' inside']
    constructor
    · exact node_injective inside inside'
    · rintro ⟨node, rfl⟩
      rw [node]

end

/-- With a power of two of channels that is an `int`, at least two of them under reduction
scrambling, and an interleaving up to 30 bits, a multiplexed port never divides by zero and takes
an existing bank.  Two nodes and offsets share a place exactly when the offsets are the same and
the nodes are aliases of one node, for all of them exactly when the spaces of the nodes fit in 64
bits. -/
theorem reqMuxed_places (c : HbmConf) {k : Nat} (slaves : c.nbSlaves = 2 ^ k)
    (word : k ≤ 30) (stages : c.stageBits ≤ k) (bits : c.interleavingBits ≤ 30)
    (banks : c.redScrambling = 0 ∨ 2 ≤ c.nbSlaves) :
    (∀ muxId offset, muxId < c.nbMasters → offset < c.nodeSize →
      ∃ place, c.reqMuxed muxId offset = some place ∧ place.1 < c.nbSlaves) ∧
    ((∀ muxId offset muxId' offset', muxId < c.nbMasters → offset < c.nodeSize →
      muxId' < c.nbMasters → offset' < c.nodeSize →
      (c.reqMuxed muxId offset = c.reqMuxed muxId' offset' ↔
        c.node muxId = c.node muxId' ∧ offset = offset')) ↔
      (c.node (c.nbMasters - 1) + 1) * c.nodeSize ≤ 2 ^ 64) := by
  have stage : c.stage ≤ k := by
    unfold stage
    split
    · rw [slaves, Nat.log2_two_pow]
    · exact stages
  have channels : 2 ^ c.stage ≤ c.nbSlaves := by
    rw [slaves]
    exact Nat.pow_le_pow_right Nat.two_pos stage
  have defined : c.Defined :=
    ⟨Nat.lt_of_lt_of_le (Nat.two_pow_pos _) channels, Nat.le_trans stage word, bits⟩
  have resolved : ∀ muxId offset muxId' offset',
      (c.reqMuxed muxId offset = c.reqMuxed muxId' offset' ↔
        c.nodeOffset muxId offset = c.nodeOffset muxId' offset') := by
    intro muxId offset muxId' offset'
    rw [reqMuxed_eq defined banks, reqMuxed_eq defined banks, Option.some_inj,
      (place_injective defined).eq_iff]
  constructor
  · intro muxId offset _ _
    exact ⟨_, reqMuxed_eq defined banks muxId offset, place_lt banks channels _⟩
  · simp only [resolved]
    exact c.apart_iff

/-- Eight channels behind four nodes, with a XOR scrambling. -/
def scrambled : HbmConf where
  nbSlaves := 8
  nbMasters := 4
  stageBits := 0
  interleavingBits := 6
  nodeAddrOffset := 0x20000000
  hbmNodeAliase := 1
  xorScrambling := 1
  redScrambling := 0

/-- Nodes of 3 GiB, with aliases in pairs. -/
def paired : HbmConf := { scrambled with nodeAddrOffset := 0xc0000000, hbmNodeAliase := 2 }

theorem reqMuxed_places_paired :
    (∃ place, paired.reqMuxed 3 0x17fffffff = some place ∧ place.1 < 8) ∧
      (paired.reqMuxed 1 0xc0000040 = paired.reqMuxed 2 0xc0000040 ↔
        paired.node 1 = paired.node 2 ∧ 0xc0000040 = 0xc0000040) := by
  obtain ⟨defined, apart⟩ := reqMuxed_places paired (k := 3) rfl (by decide) (by decide)
    (by decide) (by decide)
  exact ⟨defined 3 0x17fffffff (by decide) (by decide),
    apart.mpr (by decide) 1 0xc0000040 2 0xc0000040 (by decide) (by decide) (by decide)
      (by decide)⟩

/-- A single channel under reduction scrambling. -/
def singleChannel : HbmConf := { scrambled with nbSlaves := 1, redScrambling := 1 }

/-- An interleaving that an `int` constant cannot be shifted by. -/
def wide : HbmConf := { scrambled with interleavingBits := 31 }

/-- Nodes that do not fit in the word together. -/
def hugeNodes : HbmConf := { scrambled with nodeAddrOffset := 2 ^ 63 }

/-- Nodes that are aliases of each other share every place, and so do nodes that are a multiple of
2 ^ 64 apart; the reduction by a single channel divides by zero. -/
theorem reqMuxed_degenerate :
    (∀ offset, paired.reqMuxed 0 offset = paired.reqMuxed 1 offset) ∧
      (paired.reqMuxed 0 0).isSome ∧ singleChannel.reqMuxed 0 0 = none ∧
      wide.reqMuxed 0 0 = none ∧
      (hugeNodes.reqMuxed 0 0).isSome ∧ hugeNodes.reqMuxed 0 0 = hugeNodes.reqMuxed 2 0 ∧
      hugeNodes.node 0 ≠ hugeNodes.node 2 :=
  ⟨fun _ => rfl, by decide, by decide, by decide, by decide, by decide, by decide⟩

/-! ## Without scrambling -/

/-- No scrambling is configured. -/
def Plain (c : HbmConf) : Prop := c.xorScrambling = 0 ∧ c.redScrambling = 0

theorem place_plain (plain : c.Plain) (x : Nat) :
    c.place x = (c.bankId c.stage x, c.bankOffset c.stage x) := by
  obtain ⟨xor, red⟩ := plain
  unfold place
  rw [if_neg (fun h => h red), interleaveBy_order]
  unfold order
  rw [if_neg (fun h => h.1 xor)]

theorem reqMuxed_plain (defined : c.Defined) (plain : c.Plain) (muxId offset : Nat) :
    c.reqMuxed muxId offset = c.req (c.nodeOffset muxId offset) := by
  rw [reqMuxed_eq defined (Or.inl plain.2), place_plain plain, req, if_pos defined]

/-- The controller the address map goes through is the unscrambled one. -/
theorem toHbmCtrl_reqMuxed (defined : c.Defined) (plain : c.Plain) (stages : c.stageBits = 0)
    (muxId offset : Nat) : c.toHbmCtrl.reqMuxed muxId offset = c.reqMuxed muxId offset := by
  have stage : c.stage = c.toHbmCtrl.stageBits := if_pos stages
  rw [reqMuxed_plain defined plain, req, if_pos defined, HbmCtrl.reqMuxed,
    if_neg (Nat.ne_of_gt defined.1), stage]

/-! ## The test-and-set ports -/

/-- `offset & ~(1 << 20)` -/
def untagged (offset : Nat) : Nat := offset &&& (2 ^ 64 - 1 - (1 <<< 20))

theorem testBit_bankId (x i : Nat) :
    (c.bankId c.stage x).testBit i =
      (x.testBit (c.interleavingBits + i) && decide (i < c.stage)) := by
  unfold HbmCtrl.bankId
  rw [Nat.shiftLeft_eq, Nat.one_mul, Nat.testBit_and, Nat.testBit_shiftRight,
    Nat.testBit_two_pow_sub_one]

/-- The bank of the offset does not depend on its bit 20. -/
theorem bankId_untagged (bits : c.interleavingBits = 2) (stages : c.stage ≤ 18) (offset : Nat) :
    c.bankId c.stage (untagged offset) = c.bankId c.stage offset := by
  apply Nat.eq_of_testBit_eq
  intro i
  rw [testBit_bankId, testBit_bankId, untagged, testBit_clear (by decide), bits]
  rcases Nat.lt_or_ge i c.stage with below | above
  · have apart : 2 + i ≠ 20 ∧ 2 + i < 64 := by omega
    simp [below, apart]
  · simp [Nat.not_lt.mpr above]

/-- Bit 20 of the offset is bit `20 - stage` of the offset in the bank. -/
theorem bankOffset_untagged (bits : c.interleavingBits = 2) (stages : c.stage ≤ 18) {offset : Nat}
    (word : offset < 2 ^ 64) :
    (((offset >>> (c.stage + 2)) <<< 2) + (offset &&& 3)) &&&
      (2 ^ 64 - 1 - (1 <<< (20 - c.stage))) = c.bankOffset c.stage (untagged offset) := by
  apply Nat.eq_of_testBit_eq
  intro i
  have low : offset &&& 3 = offset &&& ((1 <<< 2) - 1) := rfl
  rw [testBit_clear (by omega), low, testBit_takeOut]
  unfold HbmCtrl.bankOffset
  rw [bits, testBit_takeOut, untagged, testBit_clear (by decide), testBit_clear (by decide)]
  split
  · rename_i below
    have apart : i ≠ 20 - c.stage ∧ i ≠ 20 ∧ i < 64 := by omega
    simp [apart]
  · rename_i above
    have same : i ≠ 20 - c.stage ↔ i + c.stage ≠ 20 := by omega
    rcases hbit : offset.testBit (i + c.stage) with _ | _
    · simp
    · have inside := lt_of_testBit word hbit
      simp only [same, Bool.true_and, decide_eq_true inside]
      rw [decide_eq_true (by omega : i < 64), Bool.true_and]

/-- With words of four bytes and up to 18 stage bits, a test-and-set port takes the place of the
offset without its bit 20. -/
theorem reqTs_eq (bits : c.interleavingBits = 2) (stages : c.stage ≤ 18) {offset : Nat}
    (word : offset < 2 ^ 64) : c.reqTs offset = c.req (untagged offset) := by
  unfold reqTs req
  dsimp only
  rw [c.bankId_untagged bits stages, c.bankOffset_untagged bits stages word]
  rcases Decidable.em c.Defined with defined | undefined
  · rw [if_pos ⟨defined, by omega⟩, if_pos defined]
  · rw [if_neg (fun h => undefined h.1), if_neg undefined]

/-! ## What the ports have in common -/

/-- The offset of the plain port a port reaches the place of. -/
def Port.target : Port → Nat → Nat
  | .ts, offset => untagged offset
  | _, offset => offset

/-- A port of the first node, for which the test-and-set constants fit. -/
def Port.Fits (c : HbmConf) : Port → Prop
  | .plain => True
  | .muxed muxId => muxId = 0
  | .ts => c.interleavingBits = 2 ∧ c.stage ≤ 18

theorem reqMuxed_zero (plain : c.Plain) {offset : Nat} (word : offset < 2 ^ 64) :
    c.reqMuxed 0 offset = c.req offset := by
  have node : c.node 0 = 0 := by rw [node_eq, Nat.zero_div]
  rcases Decidable.em c.Defined with defined | undefined
  · have first : c.nodeOffset 0 offset = offset := by
      rw [HbmCtrl.nodeOffset, node, Nat.zero_mul, u64, u64, Nat.zero_mod, Nat.add_zero,
        Nat.mod_eq_of_lt word]
    rw [reqMuxed_plain defined plain, first]
  · rw [reqMuxed, req, if_neg undefined, if_neg undefined]

theorem resolve_eq (plain : c.Plain) {p : Port} (fits : p.Fits c) {offset : Nat}
    (word : offset < 2 ^ 64) : c.resolve p offset = c.req (p.target offset) := by
  cases p with
  | plain => rfl
  | muxed muxId =>
      obtain rfl : muxId = 0 := fits
      exact reqMuxed_zero plain word
  | ts => exact reqTs_eq fits.1 fits.2 word

/-- A write on any port stores its data. -/
theorem forward_write {p : Port} {r : IoReq} (write : r.isWrite = true)
    (cells : List (Nat × Nat)) (banks : Nat × Nat → UInt8) :
    forward p r cells banks = some (r.data, stores banks cells r.data) := by
  cases p <;> simp [forward, respond, write]

/-- A read on any port returns what the cells hold. -/
theorem forward_read {p : Port} {r : IoReq} (read : r.isWrite = false)
    (short : p = .ts → r.data.length ≤ 8) (cells : List (Nat × Nat))
    (banks : Nat × Nat → UInt8) :
    (forward p r cells banks).map Prod.fst = some (loads banks cells) := by
  cases p with
  | plain => simp [forward, respond, read]
  | muxed muxId => simp [forward, respond, read]
  | ts => simp [forward, respond, read, short rfl]

theorem nodup_cells (bankId bankOffset n : Nat) :
    ((List.range n).map fun i => (bankId, bankOffset + i)).Nodup := by
  refine List.nodup_range.map fun i j same => ?_
  exact Nat.add_left_cancel (Prod.mk.inj same).2

/-- What is written on one port is read on another one that resolves its offset to the same
place. -/
theorem access_read_back {p q : Port} {w r : IoReq} {banks banks' : Nat × Nat → UInt8}
    {data : List UInt8} (same : c.resolve p w.addr = c.resolve q r.addr)
    (write : w.isWrite = true) (read : r.isWrite = false) (size : r.data.length = w.data.length)
    (short : q = .ts → r.data.length ≤ 8) (done : c.access p w banks = some (data, banks')) :
    (c.access q r banks').map Prod.fst = some w.data := by
  unfold access at done ⊢
  rw [same] at done
  rcases resolved : c.resolve q r.addr with _ | ⟨bankId, bankOffset⟩
  · rw [resolved] at done
    cases done
  · rw [resolved] at done
    dsimp only at done ⊢
    split at done
    · rename_i bank
      rw [forward_write write, Option.some_inj, Prod.mk.injEq] at done
      rw [if_pos bank, forward_read read short, ← done.2, size,
        loads_stores (nodup_cells _ _ _) (by simp)]
    · cases done

/-- Without scrambling the plain port and the port of the first node resolve every offset alike; the
test-and-set port takes the same bank, and with words of four bytes and up to 18 stage bits the
place of the offset without bit 20.  What is written on one of them is read on the others. -/
theorem ports_agree (c : HbmConf) (plain : c.Plain) :
    (∀ offset < 2 ^ 64, c.reqMuxed 0 offset = c.req offset) ∧
    (∀ offset p q, c.req offset = some p → c.reqTs offset = some q → p.1 = q.1) ∧
    (c.interleavingBits = 2 → c.stage ≤ 18 →
      ∀ offset < 2 ^ 64, c.reqTs offset = c.req (untagged offset)) ∧
    ∀ (p q : Port) (w r : IoReq) banks data banks', p.Fits c → q.Fits c →
      p.target w.addr = q.target r.addr → w.isWrite = true → r.isWrite = false →
      r.data.length = w.data.length → (q = .ts → r.data.length ≤ 8) →
      c.access p w banks = some (data, banks') →
      (c.access q r banks').map Prod.fst = some w.data := by
  refine ⟨fun offset word => reqMuxed_zero plain word, ?_,
    fun bits stages offset word => reqTs_eq bits stages word, ?_⟩
  · intro offset p q first second
    unfold req at first
    unfold reqTs at second
    split at first
    · split at second
      · rw [← Option.some.inj first, ← Option.some.inj second]
      · cases second
    · cases first
  · intro p q w r banks data banks' fits fits' target write read size short done
    refine access_read_back ?_ write read size short done
    rw [resolve_eq plain fits w.addr_lt, resolve_eq plain fits' r.addr_lt, target]

/-- Eight channels of four-byte words. -/
def fourByte : HbmConf where
  nbSlaves := 8
  nbMasters := 4
  stageBits := 0
  interleavingBits := 2
  nodeAddrOffset := 0x20000000
  hbmNodeAliase := 1
  xorScrambling := 0
  redScrambling := 0

theorem ports_agree_fourByte :
    fourByte.reqMuxed 0 0x12345678 = fourByte.req 0x12345678 ∧
      fourByte.reqTs 0x12345678 = fourByte.req (untagged 0x12345678) := by
  obtain ⟨muxed, -, ts, -⟩ := ports_agree fourByte ⟨rfl, rfl⟩
  exact ⟨muxed _ (by decide), ts rfl (by decide) _ (by decide)⟩

/-- The same with words of 64 bytes. -/
def longWords : HbmConf := { fourByte with interleavingBits := 6 }

/-- The same with half a million channels. -/
def manyChannels : HbmConf := { fourByte with nbSlaves := 2 ^ 19 }

/-- The test-and-set port takes off bit 20; its constants do not fit other words, nor more stage
bits; and only the multiplexed ports scramble. -/
theorem ports_differ :
    fourByte.reqTs (1 <<< 20) ≠ fourByte.req (1 <<< 20) ∧
      longWords.reqTs 4 ≠ longWords.req 4 ∧
      manyChannels.reqTs 2 ≠ manyChannels.req 2 ∧
      scrambled.reqMuxed 0 (1 <<< 9) ≠ scrambled.req (1 <<< 9) := by
  decide

end HbmConf

end SoftHier.Mem
