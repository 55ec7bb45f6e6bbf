import SoftHier.Lib.Transition
import SoftHier.Lib.Word
import Mathlib.Algebra.BigOperators.Group.List.Basic

/-!
# The write addresses of `IDmaBeAxi`

A backend used for writing is given bursts with `enqueue_burst` and the data for them in chunks with
`write_data`.  The address of the next byte is carried in `current_burst_base`: it is advanced by a
chunk, set to the next burst when a burst is done, and set by `enqueue_burst` when the queue
was empty.

`Sending` is the state of the queue in terms of the bursts enqueued and the bytes delivered, and
`writes_in_order` what follows for every sequence of bursts, chunks and responses.
`WriteQueue.left` is what is left of the bursts, for a backend that looks at the queue from
outside.
-/

namespace SoftHier.Idma

/-- `IDmaBeAxiWriteBurstInfo` -/
structure WriteBurst where
  base : Nat
  size : Nat
  deriving DecidableEq, Repr

/-- The addresses of a range, in order. -/
def WriteBurst.addresses (b : WriteBurst) : List Nat := SoftHier.addresses b.base b.size

/-- A backend used for writing. -/
structure WriteQueue where
  /-- `write_axi_sending_bursts` -/
  sending : List WriteBurst
  currentBurstBase : Nat
  /-- `pending_bursts` -/
  pending : List WriteBurst
  /-- The requests sent to the AXI port, in order. -/
  sent : List WriteBurst

/-- `enqueue_burst(base, size, true)` -/
def WriteQueue.enqueueBurst (s : WriteQueue) (base size : Nat) : WriteQueue :=
  let s := { s with pending := s.pending ++ [⟨base, size⟩], sending := s.sending ++ [⟨base, size⟩] }
  if s.sending.length = 1 then
    { s with currentBurstBase := (s.sending.head?.map WriteBurst.base).getD s.currentBurstBase }
  else s

/-- `write_data(data, size)`; `none` is an access to the front of an empty queue. -/
def WriteQueue.writeData (s : WriteQueue) (size : Nat) : Option WriteQueue :=
  match s.sending with
  | [] => none
  | front :: rest =>
      let base := s.currentBurstBase
      let next := u64 (base + size)
      let left := sub64 front.size size
      let sent := s.sent ++ [⟨base, size⟩]
      if left = 0 then
        match rest with
        | [] => some { s with sending := [], currentBurstBase := next, sent }
        | burst :: _ => some { s with sending := rest, currentBurstBase := burst.base, sent }
      else
        some { s with
          sending := { front with size := left } :: rest
          currentBurstBase := next
          sent }

/-- What happens to a backend used for writing. -/
inductive WriteEvent where
  | enqueue (base size : Nat)
  | write (size : Nat)
  /-- `write_handle_req_end`, with what it leaves of `pending_bursts`, the only list it changes. -/
  | response (pending : List WriteBurst)

def WriteQueue.step (s : WriteQueue) : WriteEvent → Option WriteQueue
  | .enqueue base size => some (s.enqueueBurst base size)
  | .write size => s.writeData size
  | .response pending => some { s with pending }

/-- The bursts enqueued by a sequence of events. -/
def bursts (es : List WriteEvent) : List WriteBurst :=
  es.filterMap fun e => match e with
    | .enqueue base size => some ⟨base, size⟩
    | _ => none

/-- The bytes it delivers. -/
def deliveredBytes (es : List WriteEvent) : Nat :=
  (es.map fun e => match e with
    | .write size => size
    | _ => 0).sum

/-- The bytes of some bursts. -/
def total (bs : List WriteBurst) : Nat := (bs.map WriteBurst.size).sum

/-- The next `size` bytes belong to one of the bursts. -/
def ChunkFits (bs : List WriteBurst) (written size : Nat) : Prop :=
  ∃ j < bs.length, total (bs.take j) ≤ written ∧ written + size ≤ total (bs.take (j + 1))

/-- Bursts and chunks have positive sizes, and a chunk does not reach beyond the burst it belongs
to. -/
def WriteEvent.Allowed (es : List WriteEvent) : WriteEvent → Prop
  | .enqueue base size => base < 2 ^ 64 ∧ 0 < size ∧ size < 2 ^ 64
  | .write size => 0 < size ∧ ChunkFits (bursts es) (deliveredBytes es) size
  | .response _ => True

instance WriteEvent.decidableAllowed (es : List WriteEvent) (e : WriteEvent) :
    Decidable (e.Allowed es) :=
  match e with
  | .enqueue base size => inferInstanceAs (Decidable (base < 2 ^ 64 ∧ 0 < size ∧ size < 2 ^ 64))
  | .write size => inferInstanceAs (Decidable (0 < size ∧ ∃ j < (bursts es).length,
      total ((bursts es).take j) ≤ deliveredBytes es ∧
        deliveredBytes es + size ≤ total ((bursts es).take (j + 1))))
  | .response _ => isTrue trivial

/-! ## Bytes of bursts -/

@[simp] theorem total_append (bs cs : List WriteBurst) :
    total (bs ++ cs) = total bs + total cs := by
  simp [total]

theorem length_flatMap_addresses (bs : List WriteBurst) :
    (bs.flatMap WriteBurst.addresses).length = total bs := by
  simp [List.length_flatMap, total, WriteBurst.addresses]

theorem total_take_le (bs : List WriteBurst) {j k : Nat} (h : j ≤ k) :
    total (bs.take j) ≤ total (bs.take k) := by
  have parts := List.take_append_drop j (bs.take k)
  rw [List.take_take, Nat.min_eq_left h] at parts
  rw [← parts, total_append]
  exact Nat.le_add_right _ _

/-! ## What is left of the bursts -/

/-- What is left of the bursts in the queue; the first goes on at `current_burst_base`. -/
def WriteQueue.left (s : WriteQueue) : List WriteBurst :=
  match s.sending with
  | [] => []
  | front :: rest => ⟨s.currentBurstBase, front.size⟩ :: rest

theorem length_left (s : WriteQueue) : s.left.length = s.sending.length := by
  unfold WriteQueue.left
  split
  next empty => rw [empty]
  next queue => rw [queue, List.length_cons, List.length_cons]

theorem sending_enqueueBurst (s : WriteQueue) (base size : Nat) :
    (s.enqueueBurst base size).sending = s.sending ++ [⟨base, size⟩] := by
  unfold WriteQueue.enqueueBurst
  dsimp only
  split
  · rfl
  · rfl

theorem left_enqueueBurst (s : WriteQueue) (base size : Nat) :
    (s.enqueueBurst base size).left = s.left ++ [⟨base, size⟩] := by
  rcases s with ⟨sending, current, pending, sent⟩
  cases sending with
  | nil => rfl
  | cons front rest =>
      simp [WriteQueue.enqueueBurst, WriteQueue.left]

/-- A chunk inside the first burst ends it, or leaves the rest of it. -/
theorem WriteQueue.writeData_cases {s t : WriteQueue} {size : Nat}
    (fits : ∃ front ∈ s.sending.head?, size ≤ front.size ∧ front.size < 2 ^ 64)
    (next : s.writeData size = some t) :
    ∃ front rest, s.left = ⟨s.currentBurstBase, front.size⟩ :: rest ∧
      s.sending = front :: rest ∧
      (size = front.size ∧ t.sending = rest ∧ t.left = rest ∨
        size < front.size ∧ t.sending = ⟨front.base, front.size - size⟩ :: rest ∧
          t.left = ⟨u64 (s.currentBurstBase + size), front.size - size⟩ :: rest) := by
  rcases s with ⟨sending, current, pending, sent⟩
  obtain ⟨front, head, le, lt⟩ := fits
  cases sending with
  | nil => cases head
  | cons front' rest =>
      obtain rfl := Option.some.inj head
      refine ⟨front', rest, rfl, rfl, ?_⟩
      unfold WriteQueue.writeData at next
      dsimp only at next
      rw [sub64_of_le le lt] at next
      split at next
      case isTrue done =>
        left
        refine ⟨by omega, ?_⟩
        cases rest with
        | nil =>
            cases next
            exact ⟨rfl, rfl⟩
        | cons burst rest =>
            cases next
            exact ⟨rfl, rfl⟩
      case isFalse more =>
        cases next
        exact Or.inr ⟨by omega, rfl, rfl⟩

/-! ## The queue -/

/-- The queue when `k` bytes of the first of `rest` have been sent. -/
def Remaining (s : WriteQueue) (k : Nat) : List WriteBurst → Prop
  | [] => k = 0 ∧ s.sending = []
  | b :: rest => k < b.size ∧ s.sending = ⟨b.base, b.size - k⟩ :: rest ∧
      s.currentBurstBase = u64 (b.base + k)

/-- The addresses of the first `k` bytes of the first of `rest`. -/
def begun (k : Nat) : List WriteBurst → List Nat
  | [] => []
  | b :: _ => addresses b.base k

/-- The bursts `done` have been sent, and `k` bytes of the first of `rest`. -/
structure Sending (es : List WriteEvent) (s : WriteQueue) (done rest : List WriteBurst) (k : Nat) :
    Prop where
  split : bursts es = done ++ rest
  count : deliveredBytes es = total done + k
  queue : Remaining s k rest
  wellFormed : ∀ b ∈ bursts es, b.base < 2 ^ 64 ∧ 0 < b.size ∧ b.size < 2 ^ 64
  addresses : s.sent.flatMap WriteBurst.addresses =
    done.flatMap WriteBurst.addresses ++ begun k rest

@[simp] theorem bursts_snoc_enqueue {es : List WriteEvent} {base size : Nat} :
    bursts (es ++ [.enqueue base size]) = bursts es ++ [⟨base, size⟩] := by
  simp [bursts]

@[simp] theorem bursts_snoc_write {es : List WriteEvent} {size : Nat} :
    bursts (es ++ [.write size]) = bursts es := by
  simp [bursts]

@[simp] theorem bursts_snoc_response (es : List WriteEvent) (pending : List WriteBurst) :
    bursts (es ++ [.response pending]) = bursts es := by
  simp [bursts]

@[simp] theorem deliveredBytes_snoc_enqueue {es : List WriteEvent} {base size : Nat} :
    deliveredBytes (es ++ [.enqueue base size]) = deliveredBytes es := by
  simp [deliveredBytes]

@[simp] theorem deliveredBytes_snoc_write {es : List WriteEvent} {size : Nat} :
    deliveredBytes (es ++ [.write size]) = deliveredBytes es + size := by
  simp [deliveredBytes]

@[simp] theorem deliveredBytes_snoc_response {es : List WriteEvent} {pending : List WriteBurst} :
    deliveredBytes (es ++ [.response pending]) = deliveredBytes es := by
  simp [deliveredBytes]

namespace Sending

variable {es : List WriteEvent} {s : WriteQueue} {done rest : List WriteBurst} {k : Nat}

/-- A new burst goes to the end of the queue, and gives the address if the queue was empty. -/
theorem enqueue (inv : Sending es s done rest k) {base size : Nat} (base_lt : base < 2 ^ 64)
    (pos : 0 < size) (size_lt : size < 2 ^ 64) :
    Sending (es ++ [.enqueue base size]) (s.enqueueBurst base size) done
      (rest ++ [⟨base, size⟩]) k := by
  obtain ⟨split, count, queue, wellFormed, addresses⟩ := inv
  have kept : (s.enqueueBurst base size).sent = s.sent := by
    unfold WriteQueue.enqueueBurst
    dsimp only
    split
    · rfl
    · rfl
  refine ⟨?_, ?_, ?_, ?_, ?_⟩
  · rw [bursts_snoc_enqueue, split, List.append_assoc]
  · rw [deliveredBytes_snoc_enqueue, count]
  · cases rest with
    | nil =>
        obtain ⟨rfl, empty⟩ := queue
        refine ⟨pos, ?_, ?_⟩
        · simp [WriteQueue.enqueueBurst, empty]
        · simp [WriteQueue.enqueueBurst, empty, u64_of_lt base_lt]
    | cons b rest =>
        obtain ⟨begins, front, address⟩ := queue
        refine ⟨begins, ?_, ?_⟩
        · simp [WriteQueue.enqueueBurst, front]
        · simp [WriteQueue.enqueueBurst, front, address]
  · intro b hb
    rw [bursts_snoc_enqueue] at hb
    rcases List.mem_append.mp hb with old | new
    · exact wellFormed b old
    · rw [List.mem_singleton.mp new]
      exact ⟨base_lt, pos, size_lt⟩
  · rw [kept, addresses]
    cases rest with
    | nil =>
        obtain ⟨rfl, -⟩ := queue
        rfl
    | cons b rest => rfl

/-- The burst a chunk belongs to is the first that is not done. -/
theorem chunk (inv : Sending es s done rest k) {size : Nat} (pos : 0 < size)
    (fits : ChunkFits (bursts es) (deliveredBytes es) size) :
    ∃ b tail, rest = b :: tail ∧ k + size ≤ b.size := by
  obtain ⟨split, count, queue, -, -⟩ := inv
  obtain ⟨j, hj, low, high⟩ := fits
  rw [split] at hj low high
  have doneTotal : total ((done ++ rest).take done.length) = total done := by
    rw [List.take_left]
  rcases Nat.lt_or_ge j done.length with before | behind
  · have less := total_take_le (done ++ rest) (show j + 1 ≤ done.length from before)
    rw [doneTotal] at less
    omega
  · cases rest with
    | nil =>
        rw [List.append_nil] at hj
        omega
    | cons b tail =>
        have next : total ((done ++ b :: tail).take (done.length + 1)) = total done + b.size := by
          rw [List.take_length_add_append]
          simp [total]
        rcases Nat.lt_or_eq_of_le behind with beyond | rfl
        · have less := total_take_le (done ++ b :: tail) (show done.length + 1 ≤ j from beyond)
          obtain ⟨begins, -, -⟩ := queue
          rw [next] at less
          omega
        · exact ⟨b, tail, rfl, by omega⟩

/-- A chunk is written where the bytes before it end. -/
theorem write (inv : Sending es s done rest k) {size : Nat} (pos : 0 < size)
    (fits : ChunkFits (bursts es) (deliveredBytes es) size) :
    ∃ t, s.writeData size = some t ∧
      ∃ done' rest' k', Sending (es ++ [.write size]) t done' rest' k' := by
  obtain ⟨b, tail, rfl, room⟩ := inv.chunk pos fits
  obtain ⟨split, count, ⟨begins, front, address⟩, wellFormed, addresses⟩ := inv
  obtain ⟨base_lt, size_pos, size_lt⟩ := wellFormed b (by rw [split]; simp)
  have left : sub64 (b.size - k) size = b.size - k - size := sub64_of_le (by omega) (by omega)
  have sent : (s.sent ++ [WriteBurst.mk (u64 (b.base + k)) size]).flatMap WriteBurst.addresses =
      done.flatMap WriteBurst.addresses ++ SoftHier.addresses b.base (k + size) := by
    rw [List.flatMap_append, addresses, addresses_add, List.append_assoc]
    simp [begun, WriteBurst.addresses]
  have count' : deliveredBytes (es ++ [.write size]) = total done + (k + size) := by
    rw [deliveredBytes_snoc_write, count, Nat.add_assoc]
  have wellFormed' : ∀ b ∈ bursts (es ++ [.write size]), b.base < 2 ^ 64 ∧ 0 < b.size ∧
      b.size < 2 ^ 64 := by
    rw [bursts_snoc_write]
    exact wellFormed
  unfold WriteQueue.writeData
  rw [front]
  dsimp only
  rw [left, address]
  by_cases last : b.size - k - size = 0
  · have all : k + size = b.size := by omega
    rw [if_pos last]
    have split' : bursts (es ++ [.write size]) = (done ++ [b]) ++ tail := by
      rw [bursts_snoc_write, split, List.append_assoc, List.singleton_append]
    have count'' : deliveredBytes (es ++ [.write size]) = total (done ++ [b]) + 0 := by
      rw [count', all, total_append]
      simp [total]
    rw [all] at sent
    cases tail with
    | nil =>
        refine ⟨_, rfl, done ++ [b], [], 0, split', count'', ⟨rfl, rfl⟩, wellFormed', ?_⟩
        rw [sent]
        simp [begun, WriteBurst.addresses]
    | cons c tail =>
        obtain ⟨c_lt, c_pos, -⟩ := wellFormed c (by rw [split]; simp)
        have start : c.base = u64 (c.base + 0) := (u64_of_lt c_lt).symm
        refine ⟨_, rfl, done ++ [b], c :: tail, 0, split', count'', ⟨c_pos, rfl, start⟩,
          wellFormed', ?_⟩
        rw [sent]
        simp [begun, WriteBurst.addresses, SoftHier.addresses]
  · rw [if_neg last]
    have next : u64 (u64 (b.base + k) + size) = u64 (b.base + (k + size)) := by
      unfold u64
      omega
    refine ⟨_, rfl, done, b :: tail, k + size, ?_, count', ⟨by omega, ?_, next⟩, wellFormed', sent⟩
    · rw [bursts_snoc_write, split]
    · show ⟨b.base, b.size - k - size⟩ :: tail = _
      rw [Nat.sub_sub]

/-- The bytes sent are the first of those of the bursts. -/
theorem sent_eq_take (inv : Sending es s done rest k) :
    s.sent.flatMap WriteBurst.addresses =
      ((bursts es).flatMap WriteBurst.addresses).take (deliveredBytes es) := by
  obtain ⟨split, count, queue, -, addresses⟩ := inv
  rw [addresses, split, count, List.flatMap_append, ← length_flatMap_addresses,
    List.take_length_add_append]
  cases rest with
  | nil =>
      simp [begun]
  | cons b rest =>
      obtain ⟨begins, -, -⟩ := queue
      have parts := addresses_add b.base k (b.size - k)
      rw [Nat.add_sub_cancel' (Nat.le_of_lt begins)] at parts
      rw [List.flatMap_cons, WriteBurst.addresses, parts, List.append_assoc,
        List.take_left' (addresses_length _ _)]
      rfl

/-- A burst has left the queue when all its bytes are sent. -/
theorem left_iff (inv : Sending es s done rest k) {j : Nat} (hj : j < (bursts es).length) :
    j < (bursts es).length - s.sending.length ↔
      total ((bursts es).take (j + 1)) ≤ deliveredBytes es := by
  obtain ⟨split, count, queue, -, -⟩ := inv
  have doneTotal : total ((done ++ rest).take done.length) = total done := by
    rw [List.take_left]
  rw [split, List.length_append] at hj
  rw [split, List.length_append, count]
  have queued : s.sending.length = rest.length := by
    cases rest with
    | nil => rw [queue.2]
    | cons b rest => rw [queue.2.1, List.length_cons, List.length_cons]
  rw [queued, Nat.add_sub_cancel]
  constructor
  · intro before
    have less := total_take_le (done ++ rest) (show j + 1 ≤ done.length from before)
    omega
  · intro sent
    by_contra behind
    cases rest with
    | nil =>
        rw [List.length_nil] at hj
        omega
    | cons b tail =>
        have next : total ((done ++ b :: tail).take (done.length + 1)) = total done + b.size := by
          rw [List.take_length_add_append]
          simp [total]
        have less := total_take_le (done ++ b :: tail) (show done.length + 1 ≤ j + 1 by omega)
        obtain ⟨begins, -, -⟩ := queue
        omega

/-- No more is sent than was enqueued. -/
theorem delivered_le (inv : Sending es s done rest k) : deliveredBytes es ≤ total (bursts es) := by
  obtain ⟨split, count, queue, -, -⟩ := inv
  rw [split, total_append, count]
  cases rest with
  | nil =>
      obtain ⟨rfl, -⟩ := queue
      exact Nat.le_refl _
  | cons b tail =>
      obtain ⟨begins, -, -⟩ := queue
      simp only [total, List.map_cons, List.sum_cons]
      omega

end Sending

/-- A backend after reset. -/
def WriteQueue.empty : WriteQueue := ⟨[], 0, [], []⟩

/-- Writes are made in order: after any sequence of bursts, chunks and responses the addresses
written are the first of the concatenated ranges of the bursts, one for each byte delivered; a
burst has left the queue exactly when all its bytes are written; no byte goes outside the bursts;
and no chunk finds the queue empty. -/
theorem writes_in_order (es : List WriteEvent) (s : WriteQueue)
    (run : History WriteQueue.step (fun es _ e => e.Allowed es) .empty es s) :
    s.sent.flatMap WriteBurst.addresses =
        ((bursts es).flatMap WriteBurst.addresses).take (deliveredBytes es) ∧
      (s.sent.flatMap WriteBurst.addresses).length = deliveredBytes es ∧
      (∀ j < (bursts es).length, j < (bursts es).length - s.sending.length ↔
        total ((bursts es).take (j + 1)) ≤ deliveredBytes es) ∧
      (∀ a ∈ s.sent.flatMap WriteBurst.addresses, ∃ b ∈ bursts es, a ∈ b.addresses) ∧
      ∀ e : WriteEvent, e.Allowed es → ∃ t, s.step e = some t := by
  have first : ∃ done rest k, Sending [] .empty done rest k :=
    ⟨[], [], 0, rfl, rfl, ⟨rfl, rfl⟩, fun _ h => (nomatch h), rfl⟩
  obtain ⟨⟨done, rest, k, inv⟩, progress⟩ :=
    run.sound (fun es s => ∃ done rest k, Sending es s done rest k) first fun es s e inv ok => by
      obtain ⟨done, rest, k, inv⟩ := inv
      cases e with
      | enqueue base size =>
          obtain ⟨base_lt, pos, size_lt⟩ := ok
          exact ⟨_, rfl, done, rest ++ [⟨base, size⟩], k, inv.enqueue base_lt pos size_lt⟩
      | write size =>
          obtain ⟨pos, fits⟩ := ok
          exact inv.write pos fits
      | response pending =>
          obtain ⟨split, count, queue, wellFormed, addresses⟩ := inv
          have same := bursts_snoc_response es pending
          refine ⟨_, rfl, done, rest, k, same.trans split,
            deliveredBytes_snoc_response.trans count, ?_, same ▸ wellFormed, addresses⟩
          cases rest with
          | nil => exact queue
          | cons b rest => exact queue
  have taken := inv.sent_eq_take
  refine ⟨taken, ?_, fun j hj => inv.left_iff hj, fun a ha => ?_, progress⟩
  · rw [taken, List.length_take, length_flatMap_addresses]
    exact Nat.min_eq_left inv.delivered_le
  · rw [taken] at ha
    exact List.mem_flatMap.mp (List.mem_of_mem_take ha)

/-- A burst of eight bytes in two chunks; the second burst is enqueued between them. -/
theorem writes_in_order_twoBursts :
    ∃ s : WriteQueue, s.sent.flatMap WriteBurst.addresses =
        ((bursts [.enqueue 16 8, .write 4, .enqueue 64 4, .write 4, .write 2]).flatMap
          WriteBurst.addresses).take 10 ∧
      s.sending = [⟨64, 2⟩] ∧ s.currentBurstBase = 66 := by
  have run : History WriteQueue.step (fun es _ e => e.Allowed es) .empty
      [.enqueue 16 8, .write 4, .enqueue 64 4, .write 4, .write 2]
      ⟨[⟨64, 2⟩], 66, [⟨16, 8⟩, ⟨64, 4⟩], [⟨16, 4⟩, ⟨20, 4⟩, ⟨64, 2⟩]⟩ :=
    History.execute .nil rfl
  obtain ⟨taken, -, -, -, -⟩ := writes_in_order _ _ run
  exact ⟨_, taken, rfl, rfl⟩

end SoftHier.Idma
