import SoftHier.Lib.Transition
import SoftHier.Lib.Word

/-!
# Transfer regulation in `IDmaBe`

The middle end hands a transfer over with `enqueue_transfer` when `can_accept_transfer` says that
nothing is being issued.  The transfer goes to `regulation_queue`; it becomes the current transfer
only in a later call of `transfer_regulation_handler`, which holds it back while transfers of
another source are not acknowledged, and otherwise makes it the current transfer whatever is left
of the one before.  `fsm_handler`, which is not part of the repository, is taken as it is used: it
issues bursts from the current transfer and counts `current_transfer_size` down.

`accounted_iff` says when the bytes issued are those of the transfers in order, and
`throughout_ready_of_one_waiting` that handing over one transfer at a time is enough.

`getBeConsumer` picks the backend that serves a range for reading or for writing.
-/

namespace SoftHier.Idma

/-- `IdmaTransfer` -/
structure Transfer where
  src : Nat
  dst : Nat
  size : Nat
  deriving DecidableEq, Repr

/-- The state of an `IDmaBe`. -/
structure Backend (β : Type*) where
  regulationQueue : List Transfer
  /-- `transfer_queue`, with what is left to be written of each transfer. -/
  transferQueue : List Transfer
  /-- The `ack_size` of the transfers in `transfer_ack_queue`. -/
  transferAckQueue : List Nat
  currentTransferSize : Nat
  currentTransferSrc : Nat
  currentTransferDst : Nat
  currentTransferSrcBe : Option β
  currentTransferDstBe : Option β
  /-- `transfer_regulation_event` is enqueued. -/
  regulationEvent : Bool
  /-- The bytes issued so far, each with its source and its destination address. -/
  issued : List (Nat × Nat)
  deriving DecidableEq, Repr

variable {β : Type*}

/-- A backend after reset. -/
def Backend.idle : Backend β := ⟨[], [], [], 0, 0, 0, none, none, false, []⟩

namespace Backend

/-- `can_accept_transfer()` -/
def canAcceptTransfer (s : Backend β) : Bool := s.currentTransferSize = 0

/-- `enqueue_transfer(transfer)` -/
def enqueueTransfer (s : Backend β) (transfer : Transfer) : Backend β :=
  { s with regulationQueue := s.regulationQueue ++ [transfer], regulationEvent := true }

/-- `write_data(data, size)`; `none` is an access to the front of an empty queue. -/
def writeData (s : Backend β) (size : Nat) : Option (Backend β) :=
  match s.transferQueue with
  | [] => none
  | transfer :: rest =>
      let transfer := { transfer with
        dst := u64 (transfer.dst + size), size := sub64 transfer.size size }
      some { s with transferQueue := if transfer.size = 0 then rest else transfer :: rest }

/-- `ack_data(data, size)` -/
def ackData (s : Backend β) (size : Nat) : Option (Backend β) :=
  match s.transferAckQueue with
  | [] => none
  | ackSize :: rest =>
      let ackSize := sub64 ackSize size
      if ackSize = 0 then
        some { s with
          transferAckQueue := rest
          regulationEvent := rest.isEmpty || s.regulationEvent }
      else some { s with transferAckQueue := ackSize :: rest }

/-- `update()` -/
def update (s : Backend β) : Backend β := { s with regulationEvent := true }

/-- A burst of `size` bytes of the current transfer. -/
def issueBurst (s : Backend β) (size : Nat) : Backend β :=
  { s with
    issued := s.issued ++
      (addresses s.currentTransferSrc size).zip (addresses s.currentTransferDst size)
    currentTransferSize := s.currentTransferSize - size
    currentTransferSrc := u64 (s.currentTransferSrc + size)
    currentTransferDst := u64 (s.currentTransferDst + size) }

variable [DecidableEq β] (getBeConsumer : Nat → Nat → Bool → β)

/-- The test of `transfer_regulation_handler` that holds a transfer back. -/
def srcConflict (s : Backend β) (transfer : Transfer) : Bool :=
  !s.transferAckQueue.isEmpty &&
    s.currentTransferSrcBe ≠ some (getBeConsumer transfer.src transfer.size true)

/-- `transfer_regulation_handler` -/
def transferRegulationHandler (s : Backend β) : Backend β :=
  let s := { s with regulationEvent := false }
  match s.regulationQueue with
  | [] => s
  | transfer :: rest =>
      if srcConflict getBeConsumer s transfer then s
      else
        { s with
          regulationQueue := rest
          transferQueue := s.transferQueue ++ [transfer]
          transferAckQueue := s.transferAckQueue ++ [transfer.size]
          currentTransferSize := transfer.size
          currentTransferSrc := transfer.src
          currentTransferDst := transfer.dst
          currentTransferSrcBe := some (getBeConsumer transfer.src transfer.size true)
          currentTransferDstBe := some (getBeConsumer transfer.dst transfer.size false)
          regulationEvent := !rest.isEmpty }

end Backend

/-- What happens to a backend. -/
inductive BackendEvent where
  | enqueue (transfer : Transfer)
  | regulate
  | burst (size : Nat)
  | write (size : Nat)
  | ack (size : Nat)
  | update
  deriving DecidableEq, Repr

section

variable [DecidableEq β] (getBeConsumer : Nat → Nat → Bool → β)

def Backend.step (s : Backend β) : BackendEvent → Option (Backend β)
  | .enqueue transfer => some (s.enqueueTransfer transfer)
  | .regulate => some (s.transferRegulationHandler getBeConsumer)
  | .burst size => some (s.issueBurst size)
  | .write size => s.writeData size
  | .ack size => s.ackData size
  | .update => some s.update

/-- A transfer is handed over when it can be accepted, the handler runs when its event is enqueued,
a burst takes no more than is left, and no more is written or acknowledged than a transfer has. -/
def BackendEvent.Allowed (s : Backend β) : BackendEvent → Prop
  | .enqueue _ => s.canAcceptTransfer = true
  | .regulate => s.regulationEvent = true
  | .burst size => size ≤ s.currentTransferSize
  | .write size => ∃ transfer ∈ s.transferQueue.head?, size ≤ transfer.size
  | .ack size => ∃ ackSize ∈ s.transferAckQueue.head?, size ≤ ackSize
  | .update => True

instance BackendEvent.decidableAllowed (s : Backend β) (e : BackendEvent) :
    Decidable (e.Allowed s) :=
  match e with
  | .enqueue _ => inferInstanceAs (Decidable (s.canAcceptTransfer = true))
  | .regulate => inferInstanceAs (Decidable (s.regulationEvent = true))
  | .burst size => inferInstanceAs (Decidable (size ≤ s.currentTransferSize))
  | .write size =>
      inferInstanceAs (Decidable (∃ transfer ∈ s.transferQueue.head?, size ≤ transfer.size))
  | .ack size =>
      inferInstanceAs (Decidable (∃ ackSize ∈ s.transferAckQueue.head?, size ≤ ackSize))
  | .update => isTrue trivial

/-- A run of the backend. -/
abbrev BackendRun (es : List BackendEvent) (s : Backend β) : Prop :=
  History (Backend.step getBeConsumer) (fun _ s e => e.Allowed s) .idle es s

/-- The handler, when it forwards a transfer, does so while nothing is left of the current one. -/
def Ready (s : Backend β) : BackendEvent → Prop
  | .regulate => ∀ transfer ∈ s.regulationQueue.head?,
      s.srcConflict getBeConsumer transfer = true ∨ s.canAcceptTransfer = true
  | _ => True

instance decidableReady (s : Backend β) (e : BackendEvent) : Decidable (Ready getBeConsumer s e) :=
  match e with
  | .regulate => inferInstanceAs (Decidable (∀ transfer ∈ s.regulationQueue.head?,
      s.srcConflict getBeConsumer transfer = true ∨ s.canAcceptTransfer = true))
  | .enqueue _ | .burst _ | .write _ | .ack _ | .update => isTrue trivial

end

/-! ## The bytes of the transfers -/

/-- The bytes of a transfer. -/
def Transfer.bytes (t : Transfer) : List (Nat × Nat) :=
  (addresses t.src t.size).zip (addresses t.dst t.size)

/-- The bytes of the transfers handed over, in order. -/
def enqueuedBytes (es : List BackendEvent) : List (Nat × Nat) :=
  es.flatMap fun e => match e with
    | .enqueue transfer => transfer.bytes
    | _ => []

/-- What is left of the current transfer. -/
def Backend.currentBytes (s : Backend β) : List (Nat × Nat) :=
  (addresses s.currentTransferSrc s.currentTransferSize).zip
    (addresses s.currentTransferDst s.currentTransferSize)

/-- The bytes issued, those left of the current transfer and those waiting, in this order. -/
def Backend.allBytes (s : Backend β) : List (Nat × Nat) :=
  s.issued ++ s.currentBytes ++ s.regulationQueue.flatMap Transfer.bytes

theorem zip_addresses_length (src dst n : Nat) :
    ((addresses src n).zip (addresses dst n)).length = n := by
  rw [List.length_zip, addresses_length, addresses_length, Nat.min_self]

/-- Issuing a burst moves bytes from the current transfer to those issued. -/
theorem allBytes_issueBurst {s : Backend β} {size : Nat} (fits : size ≤ s.currentTransferSize) :
    (s.issueBurst size).allBytes = s.allBytes := by
  obtain ⟨left, total⟩ : ∃ left, s.currentTransferSize = size + left :=
    ⟨_, (Nat.add_sub_cancel' fits).symm⟩
  have rest : s.currentTransferSize - size = left := by omega
  unfold Backend.allBytes Backend.currentBytes Backend.issueBurst
  dsimp only
  rw [rest, total, addresses_add, addresses_add, List.zip_append, List.append_assoc s.issued]
  rw [addresses_length, addresses_length]

/-- Written data changes the queue of what is left to write only. -/
theorem writeData_frame {s t : Backend β} {size : Nat} (next : s.writeData size = some t) :
    ∃ queue, t = { s with transferQueue := queue } := by
  unfold Backend.writeData at next
  split at next
  · cases next
  · exact ⟨_, (Option.some.inj next).symm⟩

/-- Acknowledged data changes the queue of what is left to acknowledge, and may enqueue the event
of the handler. -/
theorem ackData_frame {s t : Backend β} {size : Nat} (next : s.ackData size = some t) :
    ∃ queue event, t = { s with transferAckQueue := queue, regulationEvent := event } := by
  unfold Backend.ackData at next
  split at next
  · cases next
  · dsimp only at next
    split at next
    · exact ⟨_, _, (Option.some.inj next).symm⟩
    · exact ⟨_, _, (Option.some.inj next).symm⟩

theorem allBytes_enqueueTransfer (s : Backend β) (transfer : Transfer) :
    (s.enqueueTransfer transfer).allBytes = s.allBytes ++ transfer.bytes := by
  simp [Backend.allBytes, Backend.enqueueTransfer, Backend.currentBytes]

section

variable [DecidableEq β] (getBeConsumer : Nat → Nat → Bool → β)

/-- The handler leaves everything but its event, or it replaces the current transfer by the one that
waits. -/
theorem transferRegulationHandler_cases (s : Backend β) :
    (s.transferRegulationHandler getBeConsumer).allBytes = s.allBytes ∧
        Ready getBeConsumer s .regulate ∨
      ∃ transfer rest, s.regulationQueue = transfer :: rest ∧
        s.srcConflict getBeConsumer transfer = false ∧
        (s.transferRegulationHandler getBeConsumer).regulationQueue = rest ∧
        (s.transferRegulationHandler getBeConsumer).allBytes =
          s.issued ++ transfer.bytes ++ rest.flatMap Transfer.bytes := by
  rcases s with ⟨queue, writing, acking, size, src, dst, srcBe, dstBe, event, issued⟩
  cases queue with
  | nil => exact Or.inl ⟨rfl, fun _ waiting => nomatch waiting⟩
  | cons transfer rest =>
      unfold Backend.transferRegulationHandler
      dsimp only
      cases conflict : Backend.srcConflict getBeConsumer
          ⟨transfer :: rest, writing, acking, size, src, dst, srcBe, dstBe, false, issued⟩
            transfer with
      | true =>
          left
          refine ⟨rfl, fun waiting front => ?_⟩
          obtain rfl := Option.some.inj front
          exact Or.inl conflict
      | false => exact Or.inr ⟨transfer, rest, rfl, conflict, rfl, rfl⟩

/-- While nothing is left of the current transfer the handler loses no byte. -/
theorem allBytes_regulate_of_ready {s : Backend β} (ready : Ready getBeConsumer s .regulate) :
    (s.transferRegulationHandler getBeConsumer).allBytes = s.allBytes := by
  rcases transferRegulationHandler_cases getBeConsumer s with
    ⟨same, -⟩ | ⟨transfer, rest, queue, conflict, -, bytes⟩
  · exact same
  · have front : transfer ∈ s.regulationQueue.head? := by rw [queue]; rfl
    rcases ready transfer front with held | idle
    · rw [conflict] at held
      cases held
    · have empty : s.currentTransferSize = 0 := of_decide_eq_true idle
      have nothing : s.currentBytes = [] := by
        unfold Backend.currentBytes
        rw [empty]
        rfl
      rw [bytes, Backend.allBytes, nothing, queue, List.append_nil, List.flatMap_cons,
        List.append_assoc]

/-- Otherwise it loses what was left. -/
theorem allBytes_regulate_of_not_ready {s : Backend β}
    (busy : ¬ Ready getBeConsumer s .regulate) :
    (s.transferRegulationHandler getBeConsumer).allBytes.length < s.allBytes.length := by
  rcases transferRegulationHandler_cases getBeConsumer s with
    ⟨-, ready⟩ | ⟨transfer, rest, queue, -, -, bytes⟩
  · exact absurd ready busy
  · have left : 0 < s.currentTransferSize := by
      by_contra empty
      refine busy fun _ _ => Or.inr (decide_eq_true ?_)
      omega
    have current : s.currentBytes.length = s.currentTransferSize := zip_addresses_length _ _ _
    rw [bytes, Backend.allBytes, queue, List.flatMap_cons]
    simp only [List.length_append, current]
    omega

/-- The bytes after an event that finds the backend ready. -/
theorem step_of_ready {s t : Backend β} {e : BackendEvent} (ok : e.Allowed s)
    (ready : Ready getBeConsumer s e) (next : s.step getBeConsumer e = some t)
    (es : List BackendEvent) :
    ∃ more, enqueuedBytes (es ++ [e]) = enqueuedBytes es ++ more ∧
      t.allBytes = s.allBytes ++ more := by
  cases e with
  | enqueue transfer =>
      cases next
      refine ⟨transfer.bytes, by simp [enqueuedBytes], allBytes_enqueueTransfer s transfer⟩
  | regulate =>
      cases next
      refine ⟨[], by simp [enqueuedBytes], ?_⟩
      rw [allBytes_regulate_of_ready getBeConsumer ready, List.append_nil]
  | burst size =>
      cases next
      refine ⟨[], by simp [enqueuedBytes], ?_⟩
      rw [allBytes_issueBurst ok, List.append_nil]
  | write size =>
      obtain ⟨queue, rfl⟩ := writeData_frame next
      exact ⟨[], by simp [enqueuedBytes], (List.append_nil _).symm⟩
  | ack size =>
      obtain ⟨queue, event, rfl⟩ := ackData_frame next
      exact ⟨[], by simp [enqueuedBytes], (List.append_nil _).symm⟩
  | update =>
      cases next
      exact ⟨[], by simp [enqueuedBytes], (List.append_nil _).symm⟩

/-- An event that does not find the backend ready is a call of the handler. -/
theorem step_of_not_ready {s t : Backend β} {e : BackendEvent}
    (busy : ¬ Ready getBeConsumer s e) (next : s.step getBeConsumer e = some t)
    (es : List BackendEvent) :
    enqueuedBytes (es ++ [e]) = enqueuedBytes es ∧ t.allBytes.length < s.allBytes.length := by
  cases e with
  | regulate =>
      cases next
      exact ⟨by simp [enqueuedBytes], allBytes_regulate_of_not_ready getBeConsumer busy⟩
  | enqueue | burst | write | ack | update => exact absurd trivial busy

/-- No byte is gained, and none is lost while every call of the handler finds the backend ready. -/
theorem accounted {es : List BackendEvent} {s : Backend β} (run : BackendRun getBeConsumer es s) :
    (Throughout (Backend.step getBeConsumer) (fun _ s e => e.Allowed s) .idle
        (Ready getBeConsumer) es → s.allBytes = enqueuedBytes es) ∧
      (¬ Throughout (Backend.step getBeConsumer) (fun _ s e => e.Allowed s) .idle
        (Ready getBeConsumer) es → s.allBytes.length < (enqueuedBytes es).length) := by
  induction run with
  | nil => exact ⟨fun _ => rfl, fun lost => absurd throughout_nil lost⟩
  | snoc run ok next ih =>
      obtain ⟨whole, less⟩ := ih
      rename_i es s t e
      rw [throughout_snoc run]
      by_cases ready : Ready getBeConsumer s e
      · obtain ⟨more, enqueued, bytes⟩ := step_of_ready getBeConsumer ok ready next es
        rw [enqueued, bytes]
        constructor
        · rintro ⟨before, -⟩
          rw [whole before]
        · intro lost
          have short := less fun before => lost ⟨before, ready⟩
          simp only [List.length_append]
          omega
      · obtain ⟨enqueued, bytes⟩ := step_of_not_ready getBeConsumer ready next es
        rw [enqueued]
        refine ⟨fun both => absurd both.2 ready, fun _ => Nat.lt_of_lt_of_le bytes ?_⟩
        by_cases before : Throughout (Backend.step getBeConsumer) (fun _ s e => e.Allowed s) .idle
            (Ready getBeConsumer) es
        · rw [whole before]
        · exact Nat.le_of_lt (less before)

/-- The bytes issued, those left of the current transfer and those waiting are the bytes of the
transfers handed over, in order and each once, exactly when every call of
`transfer_regulation_handler` that forwarded a transfer was made while `can_accept_transfer`
held. -/
theorem accounted_iff (es : List BackendEvent) (s : Backend β)
    (run : BackendRun getBeConsumer es s) :
    s.issued ++ s.currentBytes ++ s.regulationQueue.flatMap Transfer.bytes = enqueuedBytes es ↔
      Throughout (Backend.step getBeConsumer) (fun _ s e => e.Allowed s) .idle
        (Ready getBeConsumer) es := by
  obtain ⟨whole, less⟩ := accounted getBeConsumer run
  constructor
  · intro all
    by_contra lost
    have short := less lost
    rw [← all] at short
    exact Nat.lt_irrefl _ short
  · exact whole

/-- At most one transfer waits, and only while nothing is left of the current one. -/
def OneWaiting (s : Backend β) : Prop :=
  s.regulationQueue.length ≤ 1 ∧ (s.regulationQueue = [] ∨ s.currentTransferSize = 0)

theorem OneWaiting.ready {s : Backend β} (one : OneWaiting s) (e : BackendEvent) :
    Ready getBeConsumer s e := by
  cases e with
  | regulate =>
      intro transfer front
      rcases one.2 with empty | idle
      · rw [empty] at front
        cases front
      · exact Or.inr (decide_eq_true idle)
  | enqueue | burst | write | ack | update => trivial

theorem OneWaiting.step {s t : Backend β} {e : BackendEvent} (one : OneWaiting s)
    (ok : e.Allowed s) (alone : ∀ transfer, e = .enqueue transfer → s.regulationQueue = [])
    (next : s.step getBeConsumer e = some t) : OneWaiting t := by
  obtain ⟨short, free⟩ := one
  cases e with
  | enqueue transfer =>
      cases next
      have idle : s.currentTransferSize = 0 := of_decide_eq_true ok
      refine ⟨?_, Or.inr idle⟩
      show (s.regulationQueue ++ [transfer]).length ≤ 1
      rw [alone transfer rfl]
      exact Nat.le_refl 1
  | regulate =>
      cases next
      rcases s with ⟨queue, writing, acking, size, src, dst, srcBe, dstBe, event, issued⟩
      unfold Backend.transferRegulationHandler
      cases queue with
      | nil => exact ⟨short, free⟩
      | cons transfer rest =>
          have last : rest = [] := by
            cases rest with
            | nil => rfl
            | cons => exact absurd short (by simp)
          dsimp only
          split
          · exact ⟨short, free⟩
          · exact ⟨by rw [last]; exact Nat.zero_le 1, Or.inl last⟩
  | burst size =>
      cases next
      refine ⟨short, free.imp_right fun idle => ?_⟩
      show s.currentTransferSize - size = 0
      rw [idle, Nat.zero_sub]
  | write size =>
      obtain ⟨queue, rfl⟩ := writeData_frame next
      exact ⟨short, free⟩
  | ack size =>
      obtain ⟨queue, event, rfl⟩ := ackData_frame next
      exact ⟨short, free⟩
  | update =>
      cases next
      exact ⟨short, free⟩

/-- Handing over a transfer only when none is waiting is enough. -/
theorem throughout_ready_of_one_waiting {es : List BackendEvent} {s : Backend β}
    (run : History (Backend.step getBeConsumer)
      (fun _ s e => e.Allowed s ∧ ∀ transfer, e = .enqueue transfer → s.regulationQueue = [])
      .idle es s) :
    Throughout (Backend.step getBeConsumer) (fun _ s e => e.Allowed s) .idle
      (Ready getBeConsumer) es := by
  have all : OneWaiting s ∧ Throughout (Backend.step getBeConsumer) (fun _ s e => e.Allowed s)
      .idle (Ready getBeConsumer) es := by
    induction run with
    | nil => exact ⟨⟨Nat.zero_le 1, Or.inl rfl⟩, throughout_nil⟩
    | snoc run ok next ih =>
        obtain ⟨one, before⟩ := ih
        have plain := run.mono fun _ _ _ both => both.1
        exact ⟨one.step getBeConsumer ok.1 ok.2 next,
          (throughout_snoc plain).mpr ⟨before, one.ready getBeConsumer _⟩⟩
  exact all.2

end

/-- Ranges below `0x1000` are in the local memory. -/
def localBelow (base _size : Nat) (_isRead : Bool) : Bool := base < 0x1000

theorem accounted_iff_halfIssued :
    ∃ s : Backend Bool, BackendRun localBelow [.enqueue ⟨0, 0x2000, 8⟩, .regulate, .burst 4] s ∧
      (s.issued ++ s.currentBytes ++ s.regulationQueue.flatMap Transfer.bytes =
          enqueuedBytes [.enqueue ⟨0, 0x2000, 8⟩, .regulate, .burst 4] ↔
        Throughout (Backend.step localBelow) (fun _ s e => e.Allowed s) .idle (Ready localBelow)
          [.enqueue ⟨0, 0x2000, 8⟩, .regulate, .burst 4]) := by
  have run : BackendRun localBelow [.enqueue ⟨0, 0x2000, 8⟩, .regulate, .burst 4] _ :=
    History.execute .nil rfl
  exact ⟨_, run, accounted_iff localBelow _ _ run⟩

/-- Two transfers of eight bytes are accepted before the first becomes current; with half of the
first issued the second replaces it, and bytes 4 to 7 of the first are never issued. -/
theorem second_transfer_replaces_first :
    ∃ s : Backend Bool, BackendRun localBelow [.enqueue ⟨0, 0x2000, 8⟩, .enqueue ⟨16, 0x2010, 8⟩,
        .regulate, .burst 4, .regulate, .burst 8] s ∧
      s.currentTransferSize = 0 ∧ s.regulationQueue = [] ∧
      s.issued = (addresses 0 4).zip (addresses 0x2000 4) ++
        (addresses 16 8).zip (addresses 0x2010 8) ∧
      s.issued ++ s.currentBytes ++ s.regulationQueue.flatMap Transfer.bytes ≠
        enqueuedBytes [.enqueue ⟨0, 0x2000, 8⟩, .enqueue ⟨16, 0x2010, 8⟩, .regulate, .burst 4,
          .regulate, .burst 8] := by
  have run : BackendRun localBelow [.enqueue ⟨0, 0x2000, 8⟩, .enqueue ⟨16, 0x2010, 8⟩,
      .regulate, .burst 4, .regulate, .burst 8] _ := History.execute .nil rfl
  refine ⟨_, run, rfl, rfl, rfl, fun all => ?_⟩
  have fewer := congrArg List.length all
  revert fewer
  decide +kernel

end SoftHier.Idma
