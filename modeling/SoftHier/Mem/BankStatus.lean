import SoftHier.Mem.Interleaver
import SoftHier.Redmule.Progress

/-!
# The status of the bank accesses

The interleaver forwards the pieces of a request to banks that answer each of them with a status
and a latency.  The latencies are merged, the statuses are not looked at.

* `BankReply`, `Banks`: what a bank answers, and banks of any behaviour.
* `HWPEInterleaver.forward`, `HWPEInterleaver.reply`: the loop, and the answer to the whole request.
* `forward_memory`: banks that are memories are those of `HWPEInterleaver.loop`.
* `propagates_iff`: a failure is answered with a failure only if there is none.
* `reply_tcdmStatus`: the accelerator takes every access for a successful one.
-/

namespace SoftHier.Mem

/-- `vp::IoReqStatus` -/
inductive IoReqStatus
  | ok | invalid | denied | pending
  deriving DecidableEq, Repr

/-- What a bank answers to a piece: `status`, the latency of `bank_req`, and its data. -/
structure BankReply where
  status : IoReqStatus
  latency : BitVec 64
  data : List UInt8
  deriving DecidableEq

/-- Banks with a state of any type: a piece is answered, and the state changes. -/
def Banks (σ : Type*) := σ → Piece → Bool → List UInt8 → BankReply × σ

/-- The answer to a request: the status, the latency that is added to its own, the data buffer, and
the pieces with what their banks answered. -/
structure Reply (σ : Type*) where
  status : IoReqStatus
  latency : Int
  data : List UInt8
  answers : List (Piece × BankReply)
  banks : σ

/-- `int latency = bank_req->get_latency()` -/
def BankReply.intLatency (b : BankReply) : Int := (b.latency.setWidth 32).toInt

namespace HWPEInterleaver

variable {σ : Type*}

/-- The loop of `HWPEInterleaver::req` with the answers of the banks, for at most `fuel` passes:
the pieces with their answers, the data buffer, `max_latency` and the state of the banks
afterwards. -/
def forward (h : HWPEInterleaver) (bank : Banks σ) (isWrite : Bool) :
    Nat → Nat → List UInt8 → Int → σ → Option (List (Piece × BankReply) × List UInt8 × Int × σ)
  | _, _, [], maxLatency, s => some ([], [], maxLatency, s)
  | 0, _, _ :: _, _, _ => none
  | fuel + 1, offset, byte :: data, maxLatency, s =>
      let data := byte :: data
      let p := h.piece offset data.length
      let (b, s) := bank s p isWrite (data.take p.bankSize)
      let maxLatency := if b.intLatency > maxLatency then b.intLatency else maxLatency
      match h.forward bank isWrite fuel ((offset + p.bankSize) % 2 ^ 64) (data.drop p.bankSize)
        maxLatency s with
      | none => none
      | some (answers, rest, maxLatency, s) =>
          some ((p, b) :: answers, b.data ++ rest, maxLatency, s)

/-- `HWPEInterleaver::req` -/
def reply (h : HWPEInterleaver) (bank : Banks σ) (fuel : Nat) (r : IoReq) (s : σ) :
    Option (Reply σ) :=
  (h.forward bank r.isWrite fuel r.addr r.data 0 s).map fun (answers, data, maxLatency, s) =>
    ⟨.ok, maxLatency, data, answers, s⟩

/-! ## The loop -/

/-- A piece takes at least one byte. -/
theorem piece_pos {h : HWPEInterleaver} (width : 0 < h.bankWidth) (offset : Nat) {size : Nat}
    (some : 0 < size) :
    0 < (h.piece offset size).bankSize := by
  have inside : offset &&& (h.bankWidth - 1) ≤ h.bankWidth - 1 := Nat.and_le_right
  have taken : (h.piece offset size).bankSize =
      min (h.bankWidth - (offset &&& (h.bankWidth - 1))) size := rfl
  omega

/-- A pass of the loop. -/
theorem forward_succ (h : HWPEInterleaver) (bank : Banks σ) (isWrite : Bool) (fuel offset : Nat)
    {data : List UInt8} (maxLatency : Int) (s : σ) (some : 0 < data.length) :
    h.forward bank isWrite (fuel + 1) offset data maxLatency s =
      let p := h.piece offset data.length
      let b := bank s p isWrite (data.take p.bankSize)
      (h.forward bank isWrite fuel ((offset + p.bankSize) % 2 ^ 64) (data.drop p.bankSize)
        (if b.1.intLatency > maxLatency then b.1.intLatency else maxLatency) b.2).map
          fun (answers, rest, maxLatency, s) =>
            ((p, b.1) :: answers, b.1.data ++ rest, maxLatency, s) := by
  cases data with
  | nil => cases some
  | cons byte data =>
    dsimp only [forward]
    split
    · rename_i stuck
      rw [stuck]
      rfl
    · rename_i served
      rw [served]
      rfl

/-- The loop ends, whatever the banks answer. -/
theorem forward_ends {h : HWPEInterleaver} (width : 0 < h.bankWidth) (bank : Banks σ)
    (isWrite : Bool) {fuel offset : Nat} {data : List UInt8} (maxLatency : Int) (s : σ)
    (enough : data.length ≤ fuel) :
    ∃ answers bytes latency s', h.forward bank isWrite fuel offset data maxLatency s =
      some (answers, bytes, latency, s') ∧ maxLatency ≤ latency := by
  induction fuel generalizing offset data maxLatency s with
  | zero =>
    obtain rfl : data = [] := List.length_eq_zero_iff.mp (Nat.le_zero.mp enough)
    exact ⟨[], [], maxLatency, s, rfl, Int.le_refl _⟩
  | succ fuel ih =>
    rcases Nat.eq_zero_or_pos data.length with none | some
    · obtain rfl : data = [] := List.length_eq_zero_iff.mp none
      exact ⟨[], [], maxLatency, s, rfl, Int.le_refl _⟩
    · have pos := piece_pos width offset some
      rw [forward_succ h bank isWrite fuel offset maxLatency s some]
      generalize h.piece offset data.length = p at pos
      have enough' : (data.drop p.bankSize).length ≤ fuel := by
        rw [List.length_drop]
        omega
      obtain ⟨answers, bytes, latency, s', served, le⟩ := ih
        (if (bank s p isWrite (data.take p.bankSize)).1.intLatency > maxLatency then
          (bank s p isWrite (data.take p.bankSize)).1.intLatency else maxLatency)
        (bank s p isWrite (data.take p.bankSize)).2 enough'
      dsimp only
      rw [served]
      refine ⟨_, _, _, _, rfl, Int.le_trans ?_ le⟩
      split
      · rename_i later
        exact Int.le_of_lt later
      · exact Int.le_refl _

/-- Banks that are memories and answer at once. -/
def memoryBanks : Banks (Nat × Nat → UInt8) := fun m p isWrite data =>
  (⟨.ok, 0, (respond isWrite m p.cells data).1⟩, (respond isWrite m p.cells data).2)

/-- With banks that are memories the loop is the splitting loop. -/
theorem forward_memory (h : HWPEInterleaver) (isWrite : Bool) (fuel offset : Nat)
    (data : List UInt8) (m : Nat × Nat → UInt8) :
    (h.forward memoryBanks isWrite fuel offset data 0 m).map
        (fun (answers, bytes, _, m) => (answers.map Prod.fst, bytes, m)) =
      h.loop isWrite fuel offset data m := by
  induction fuel generalizing offset data m with
  | zero => cases data <;> rfl
  | succ fuel ih =>
    rcases Nat.eq_zero_or_pos data.length with none | some
    · obtain rfl : data = [] := List.length_eq_zero_iff.mp none
      rfl
    · have answered : ∀ m p data, memoryBanks m p isWrite data =
          (⟨.ok, 0, (respond isWrite m p.cells data).1⟩, (respond isWrite m p.cells data).2) :=
        fun _ _ _ => rfl
      have once : ∀ data, ¬ BankReply.intLatency ⟨.ok, 0, data⟩ > 0 := fun _ => Int.lt_irrefl 0
      rw [forward_succ h memoryBanks isWrite fuel offset 0 m some,
        loop_succ h isWrite fuel offset m some, ← ih]
      dsimp only
      rw [answered, if_neg (once _)]
      cases h.forward memoryBanks isWrite fuel
        ((offset + (h.piece offset data.length).bankSize) % 2 ^ 64)
        (data.drop (h.piece offset data.length).bankSize) 0
        (respond isWrite m (h.piece offset data.length).cells
          (data.take (h.piece offset data.length).bankSize)).2 with
      | none => rfl
      | some served => rfl

/-- The pieces are those of the splitting loop, whatever the banks answer. -/
theorem forward_pieces (h : HWPEInterleaver) (bank : Banks σ) (isWrite : Bool) (fuel offset : Nat)
    (data : List UInt8) (maxLatency : Int) (s : σ) (m : Nat × Nat → UInt8) :
    (h.forward bank isWrite fuel offset data maxLatency s).map
      (fun served => served.1.map Prod.fst) = (h.loop isWrite fuel offset data m).map Prod.fst := by
  induction fuel generalizing offset data maxLatency s m with
  | zero => cases data <;> rfl
  | succ fuel ih =>
    rcases Nat.eq_zero_or_pos data.length with none | some
    · obtain rfl : data = [] := List.length_eq_zero_iff.mp none
      rfl
    · rw [forward_succ h bank isWrite fuel offset maxLatency s some,
        loop_succ h isWrite fuel offset m some]
      dsimp only
      generalize h.piece offset data.length = p
      have rest := ih ((offset + p.bankSize) % 2 ^ 64) (data.drop p.bankSize)
        (if (bank s p isWrite (data.take p.bankSize)).1.intLatency > maxLatency then
          (bank s p isWrite (data.take p.bankSize)).1.intLatency else maxLatency)
        (bank s p isWrite (data.take p.bankSize)).2
          (respond isWrite m p.cells (data.take p.bankSize)).2
      rw [Option.map_map]
      revert rest
      cases h.loop isWrite fuel ((offset + p.bankSize) % 2 ^ 64) (data.drop p.bankSize)
        (respond isWrite m p.cells (data.take p.bankSize)).2 with
      | none =>
        intro rest
        rw [Option.map_eq_none_iff.mp rest]
        rfl
      | some served =>
        intro rest
        obtain ⟨forwarded, same, pieces⟩ := Option.map_eq_some_iff.mp rest
        rw [same]
        exact congrArg (fun ps => Option.some (p :: ps)) pieces

end HWPEInterleaver

/-! ## Failures -/

namespace Reply

variable {σ : Type*} (reply : Reply σ)

/-- What the accelerator sees of an access: its check of the status, and the latency. -/
def tcdmStatus : Redmule.TcdmStatus :=
  if reply.status ≠ .ok then .error else .ok reply.latency.toNat

/-- If a bank does not answer `IO_REQ_OK` then the request is not answered so either, and the
accelerator's check is reached. -/
def Propagates : Prop :=
  (∃ x ∈ reply.answers, x.2.status ≠ .ok) → reply.status ≠ .ok ∧ reply.tcdmStatus = .error

end Reply

section

variable {σ : Type*} {h : HWPEInterleaver} {bank : Banks σ} {fuel : Nat} {r : IoReq} {s : σ}
    {reply : Reply σ}

theorem reply_status (replied : h.reply bank fuel r s = some reply) : reply.status = .ok := by
  obtain ⟨served, -, rfl⟩ := Option.map_eq_some_iff.mp replied
  rfl

theorem reply_tcdmStatus (replied : h.reply bank fuel r s = some reply) :
    reply.tcdmStatus = .ok reply.latency.toNat := if_neg fun failed => failed (reply_status replied)

/-- Whatever the banks answer, no event of the accelerator is fatal. -/
theorem access_not_fatal {Q : Type*} {A : Redmule.Arch} {m : Redmule.Machine Q} (sound : m.Sound)
    (replied : h.reply bank fuel r s = some reply) :
    (Redmule.fsmHandler A reply.tcdmStatus m).isSome := by
  rw [reply_tcdmStatus replied]
  exact Redmule.fsmHandler_isSome sound _

/-- Every request is answered, and its answer tells a failure of a bank exactly if there is none. -/
theorem propagates_iff (width : 0 < h.bankWidth) (bank : Banks σ) (r : IoReq) (s : σ)
    (enough : r.data.length ≤ fuel) : ∃ reply, h.reply bank fuel r s = some reply ∧
      (reply.Propagates ↔ ∀ x ∈ reply.answers, x.2.status = .ok) := by
  obtain ⟨answers, data, latency, s', served, -⟩ :=
    HWPEInterleaver.forward_ends width bank r.isWrite 0 s enough
  have replied : h.reply bank fuel r s = some ⟨.ok, latency, data, answers, s'⟩ := by
    unfold HWPEInterleaver.reply
    rw [served]
    rfl
  refine ⟨_, replied, ?_, ?_⟩
  · intro propagates x mem
    by_contra failed
    exact (propagates ⟨x, mem, failed⟩).1 rfl
  · intro succeeded failure
    obtain ⟨x, mem, failed⟩ := failure
    exact absurd (succeeded x mem) failed

end

/-- Banks of which the first one denies every access. -/
def denyingBanks : Banks Unit :=
  fun _ p _ data => (⟨if p.bankId = 0 then .denied else .ok, 3, data⟩, ())

/-- A read of eight bytes from the middle of the first word on. -/
def crossingRead : IoReq := ⟨4, false, List.replicate 8 0, by decide, by decide⟩

theorem propagates_iff_crossingRead : ∃ reply,
    (HWPEInterleaver.new 4 8).reply denyingBanks 8 crossingRead () = some reply ∧
      (reply.Propagates ↔ ∀ x ∈ reply.answers, x.2.status = .ok) :=
  propagates_iff (by decide) denyingBanks crossingRead () (Nat.le_refl 8)

/-- The first of two pieces is denied, and the request is answered with `IO_REQ_OK`. -/
theorem failure_lost : ∃ reply, (HWPEInterleaver.new 4 8).reply denyingBanks 8 crossingRead
    () = some reply ∧
    reply.answers.map (fun x => (x.1.bankId, x.2.status)) = [(0, .denied), (1, .ok)] ∧
      reply.status = .ok ∧ reply.latency = 3 ∧ ¬ reply.Propagates := by
  refine ⟨_, rfl, rfl, rfl, rfl, fun propagates => ?_⟩
  exact (propagates ⟨_, List.mem_cons_self, by decide⟩).1 rfl

end SoftHier.Mem
