import SoftHier.Idma.Regulation
import SoftHier.Idma.WriteAddress

/-!
# Collective operations of the transfers

A transfer carries the type and the masks of its collective operation.  `IDmaBeAxi` sends them in
the payload of every chunk it writes.  The chunk goes to the burst that is first in
`write_axi_sending_bursts`, but the operation is asked for with `get_collective_type`, which
answers for the current transfer: `transfer_regulation_handler` may have made a later transfer the
current one since the burst was enqueued.

* `CollectiveBackend`: the backend with the collective operations and the queue of the AXI backend.
* `CollectiveRun`: its runs.
* `step_erase`: a step is one of the backend of `Regulation`.
-/

namespace SoftHier.Idma

/-- The first three bytes of a payload. -/
abbrev Payload := Nat × Nat × Nat

/-- `collective_type`, `collective_row_mask` and `collective_col_mask` of an `IdmaTransfer`. -/
structure Collective where
  collectiveType : Nat
  rowMask : Nat
  colMask : Nat
  deriving DecidableEq, Repr

/-- The operation as it is sent. -/
def Collective.payload (c : Collective) : Payload :=
  (u8 c.collectiveType, u8 c.rowMask, u8 c.colMask)

/-- Addresses, each with the payload of the operation. -/
def Collective.tag (c : Collective) (as : List Nat) : List (Nat × Payload) :=
  as.map fun a => (a, c.payload)

/-- A transfer with the collective operation of its parent; `size` is a `uint64_t`. -/
structure CollectiveTransfer extends Transfer where
  collective : Collective
  size_lt : size < 2 ^ 64
  deriving DecidableEq, Repr

/-- The state of an `IDmaBe` and of the `IDmaBeAxi` that writes. -/
structure CollectiveBackend (β : Type*) where
  regulationQueue : List CollectiveTransfer
  transferQueue : List CollectiveTransfer
  transferAckQueue : List Nat
  /-- The operation of `current_transfer`. -/
  currentTransfer : Option Collective
  currentTransferSize : Nat
  currentTransferSrc : Nat
  currentTransferDst : Nat
  currentTransferSrcBe : Option β
  currentTransferDstBe : Option β
  regulationEvent : Bool
  issued : List (Nat × Nat)
  axi : WriteQueue
  /-- The bursts given to the AXI backend so far, each with the operation of its transfer. -/
  writes : List (WriteBurst × Collective)
  /-- The addresses it has written so far, each with the payload of its chunk. -/
  sent : List (Nat × Payload)

variable {β : Type*}

/-- What is left of a transfer once `size` bytes of it are written. -/
def CollectiveTransfer.advance (t : CollectiveTransfer) (size : Nat) : CollectiveTransfer where
  src := t.src
  dst := u64 (t.dst + size)
  size := sub64 t.size size
  collective := t.collective
  size_lt := sub64_lt t.size size

namespace CollectiveBackend

/-- The backends after reset. -/
def idle : CollectiveBackend β :=
  ⟨[], [], [], none, 0, 0, 0, none, none, false, [], .empty, [], []⟩

/-- The backend without the collective operations and the AXI backend. -/
def erase (s : CollectiveBackend β) : Backend β where
  regulationQueue := s.regulationQueue.map CollectiveTransfer.toTransfer
  transferQueue := s.transferQueue.map CollectiveTransfer.toTransfer
  transferAckQueue := s.transferAckQueue
  currentTransferSize := s.currentTransferSize
  currentTransferSrc := s.currentTransferSrc
  currentTransferDst := s.currentTransferDst
  currentTransferSrcBe := s.currentTransferSrcBe
  currentTransferDstBe := s.currentTransferDstBe
  regulationEvent := s.regulationEvent
  issued := s.issued

/-- `enqueue_transfer(transfer)` -/
def enqueueTransfer (s : CollectiveBackend β) (transfer : CollectiveTransfer) :
    CollectiveBackend β :=
  { s with regulationQueue := s.regulationQueue ++ [transfer], regulationEvent := true }

/-- `get_collective_type()` and those of the masks; `none` before the first transfer. -/
def getCollective (s : CollectiveBackend β) : Option Collective := s.currentTransfer

/-- `IDmaBeAxi::write_data(data, size)`: a chunk at `current_burst_base`, with its payload. -/
def axiWriteData (s : CollectiveBackend β) (size : Nat) : Option (CollectiveBackend β) :=
  match s.axi.writeData size, s.getCollective with
  | some axi, some collective =>
      some { s with
        axi
        sent := s.sent ++ collective.tag (addresses s.axi.currentBurstBase size) }
  | _, _ => none

/-- `ack_data(data, size)` -/
def ackData (s : CollectiveBackend β) (size : Nat) : Option (CollectiveBackend β) :=
  match s.transferAckQueue with
  | [] => none
  | ackSize :: rest =>
      let ackSize := sub64 ackSize size
      if ackSize = 0 then
        some { s with
          transferAckQueue := rest
          regulationEvent := rest.isEmpty || s.regulationEvent }
      else some { s with transferAckQueue := ackSize :: rest }

/-- `update()` -/
def update (s : CollectiveBackend β) : CollectiveBackend β := { s with regulationEvent := true }

variable [DecidableEq β] (axi : β) (getBeConsumer : Nat → Nat → Bool → β)

/-- A burst of `size` bytes of the current transfer, enqueued in the AXI backend if that serves the
destination; `none` before the first transfer. -/
def issueBurst (s : CollectiveBackend β) (size : Nat) : Option (CollectiveBackend β) :=
  s.currentTransfer.map fun collective =>
    let dst := s.currentTransferDst
    let t := { s with
      issued := s.issued ++ (addresses s.currentTransferSrc size).zip (addresses dst size)
      currentTransferSize := s.currentTransferSize - size
      currentTransferSrc := u64 (s.currentTransferSrc + size)
      currentTransferDst := u64 (dst + size) }
    if s.currentTransferDstBe = some axi then
      { t with
        axi := s.axi.enqueueBurst dst size
        writes := s.writes ++ [(⟨dst, size⟩, collective)] }
    else t

/-- `write_data(data, size)`: the backend that serves what is left of the first transfer gets the
chunk. -/
def writeData (s : CollectiveBackend β) (size : Nat) : Option (CollectiveBackend β) :=
  match s.transferQueue with
  | [] => none
  | transfer :: rest =>
      let left := transfer.advance size
      let t := { s with transferQueue := if left.size = 0 then rest else left :: rest }
      if getBeConsumer transfer.dst transfer.size false = axi then t.axiWriteData size else some t

/-- `transfer_regulation_handler` -/
def transferRegulationHandler (s : CollectiveBackend β) : CollectiveBackend β :=
  let s := { s with regulationEvent := false }
  match s.regulationQueue with
  | [] => s
  | transfer :: rest =>
      if s.erase.srcConflict getBeConsumer transfer.toTransfer then s
      else
        { s with
          regulationQueue := rest
          transferQueue := s.transferQueue ++ [transfer]
          transferAckQueue := s.transferAckQueue ++ [transfer.size]
          currentTransfer := some transfer.collective
          currentTransferSize := transfer.size
          currentTransferSrc := transfer.src
          currentTransferDst := transfer.dst
          currentTransferSrcBe := some (getBeConsumer transfer.src transfer.size true)
          currentTransferDstBe := some (getBeConsumer transfer.dst transfer.size false)
          regulationEvent := !rest.isEmpty }

/-- The next chunk goes to the AXI backend. -/
def WritesAxi (s : CollectiveBackend β) : Prop :=
  ∃ transfer ∈ s.transferQueue.head?, getBeConsumer transfer.dst transfer.size false = axi

instance decidableWritesAxi (s : CollectiveBackend β) : Decidable (s.WritesAxi axi getBeConsumer) :=
  inferInstanceAs (Decidable (∃ transfer ∈ s.transferQueue.head?,
    getBeConsumer transfer.dst transfer.size false = axi))

end CollectiveBackend

/-- What happens to the backend: a transfer is handed over, or anything else. -/
inductive CollectiveEvent where
  | enqueue (transfer : CollectiveTransfer)
  | regulate
  | burst (size : Nat)
  | write (size : Nat)
  | ack (size : Nat)
  | update
  deriving DecidableEq, Repr

/-- The event without the operation. -/
def CollectiveEvent.erase : CollectiveEvent → BackendEvent
  | .enqueue transfer => .enqueue transfer.toTransfer
  | .regulate => .regulate
  | .burst size => .burst size
  | .write size => .write size
  | .ack size => .ack size
  | .update => .update

section

variable [DecidableEq β] (axi : β) (getBeConsumer : Nat → Nat → Bool → β)

def CollectiveBackend.step (s : CollectiveBackend β) :
    CollectiveEvent → Option (CollectiveBackend β)
  | .enqueue transfer => some (s.enqueueTransfer transfer)
  | .regulate => some (s.transferRegulationHandler getBeConsumer)
  | .burst size => s.issueBurst axi size
  | .write size => s.writeData axi getBeConsumer size
  | .ack size => s.ackData size
  | .update => some s.update

/-- A transfer is handed over when it can be accepted, the handler runs when its event is enqueued,
a burst takes no more than is left, and a chunk for the AXI backend does not reach beyond the burst
it belongs to. -/
def CollectiveEvent.Allowed (s : CollectiveBackend β) : CollectiveEvent → Prop
  | .enqueue _ => s.erase.canAcceptTransfer = true
  | .regulate => s.regulationEvent = true
  | .burst size => 0 < size ∧ size ≤ s.currentTransferSize
  | .write size => 0 < size ∧ (s.WritesAxi axi getBeConsumer →
      ∃ front ∈ s.axi.sending.head?, size ≤ front.size)
  | .ack _ | .update => True

instance CollectiveEvent.decidableAllowed (s : CollectiveBackend β) (e : CollectiveEvent) :
    Decidable (e.Allowed axi getBeConsumer s) :=
  match e with
  | .enqueue _ => inferInstanceAs (Decidable (s.erase.canAcceptTransfer = true))
  | .regulate => inferInstanceAs (Decidable (s.regulationEvent = true))
  | .burst size => inferInstanceAs (Decidable (0 < size ∧ size ≤ s.currentTransferSize))
  | .write size => inferInstanceAs (Decidable (0 < size ∧ (s.WritesAxi axi getBeConsumer →
      ∃ front ∈ s.axi.sending.head?, size ≤ front.size)))
  | .ack _ | .update => isTrue trivial

/-- A run of the backends. -/
abbrev CollectiveRun (es : List CollectiveEvent) (s : CollectiveBackend β) : Prop :=
  History (CollectiveBackend.step axi getBeConsumer) (fun _ s e => e.Allowed axi getBeConsumer s)
    .idle es s

/-- Every event of a run finds the backends in a state with the property `P`. -/
abbrev CollectiveThroughout (P : CollectiveBackend β → CollectiveEvent → Prop)
    (es : List CollectiveEvent) : Prop :=
  Throughout (CollectiveBackend.step axi getBeConsumer)
    (fun _ s e => e.Allowed axi getBeConsumer s) .idle P es

end

/-! ## What a step does -/

theorem axiWriteData_cases {s t : CollectiveBackend β} {size : Nat}
    (next : s.axiWriteData size = some t) :
    ∃ axi collective, s.axi.writeData size = some axi ∧ s.currentTransfer = some collective ∧
      t = { s with
        axi
        sent := s.sent ++ collective.tag (addresses s.axi.currentBurstBase size) } := by
  unfold CollectiveBackend.axiWriteData CollectiveBackend.getCollective at next
  split at next
  next axi collective written current =>
    exact ⟨axi, collective, written, current, (Option.some.inj next).symm⟩
  next => cases next

theorem ackData_keep {s t : CollectiveBackend β} {size : Nat} (next : s.ackData size = some t) :
    ∃ queue event, t = { s with transferAckQueue := queue, regulationEvent := event } := by
  unfold CollectiveBackend.ackData at next
  split at next
  · cases next
  · dsimp only at next
    split at next
    · exact ⟨_, _, (Option.some.inj next).symm⟩
    · exact ⟨_, _, (Option.some.inj next).symm⟩

section

variable [DecidableEq β] (axi : β) (getBeConsumer : Nat → Nat → Bool → β)

/-- A burst is counted down, and enqueued if the AXI backend serves the destination. -/
theorem issueBurst_cases {s t : CollectiveBackend β} {size : Nat}
    (next : s.issueBurst axi size = some t) :
    ∃ collective, s.currentTransfer = some collective ∧ t.erase = s.erase.issueBurst size ∧
      t.currentTransfer = some collective ∧ t.regulationQueue = s.regulationQueue ∧
      t.sent = s.sent ∧
      (s.currentTransferDstBe = some axi ∧
          t.axi = s.axi.enqueueBurst s.currentTransferDst size ∧
          t.writes = s.writes ++ [(⟨s.currentTransferDst, size⟩, collective)] ∨
        s.currentTransferDstBe ≠ some axi ∧ t.axi = s.axi ∧ t.writes = s.writes) := by
  obtain ⟨collective, current, rfl⟩ := Option.map_eq_some_iff.mp next
  refine ⟨collective, current, ?_⟩
  dsimp only
  split
  next dst => exact ⟨rfl, current, rfl, rfl, Or.inl ⟨dst, rfl, rfl⟩⟩
  next dst => exact ⟨rfl, current, rfl, rfl, Or.inr ⟨dst, rfl, rfl⟩⟩

/-- A chunk goes to the AXI backend or to the local one. -/
theorem CollectiveBackend.writeData_cases {s t : CollectiveBackend β} {size : Nat}
    (next : s.writeData axi getBeConsumer size = some t) :
    ∃ queue, s.erase.writeData size =
        some { s.erase with transferQueue := queue.map CollectiveTransfer.toTransfer } ∧
      (s.WritesAxi axi getBeConsumer ∧
          ({ s with transferQueue := queue } : CollectiveBackend β).axiWriteData size = some t ∨
        ¬ s.WritesAxi axi getBeConsumer ∧ t = { s with transferQueue := queue }) := by
  unfold CollectiveBackend.writeData at next
  split at next
  next => cases next
  next transfer rest queue =>
    have head : s.WritesAxi axi getBeConsumer ↔
        getBeConsumer transfer.dst transfer.size false = axi := by
      unfold CollectiveBackend.WritesAxi
      rw [queue]
      simp
    refine ⟨if (transfer.advance size).size = 0 then rest
      else transfer.advance size :: rest, ?_, ?_⟩
    · unfold Backend.writeData CollectiveBackend.erase
      rw [queue]
      simp only [List.map_cons, apply_ite (List.map CollectiveTransfer.toTransfer)]
      rfl
    · rw [head]
      split at next
      next toAxi => exact Or.inl ⟨toAxi, next⟩
      next toLocal => exact Or.inr ⟨toLocal, (Option.some.inj next).symm⟩

/-- The handler leaves everything but its event, or it makes the transfer that waits the current
one. -/
theorem CollectiveBackend.regulate_cases (s : CollectiveBackend β) :
    s.transferRegulationHandler getBeConsumer = { s with regulationEvent := false } ∧
        Ready getBeConsumer s.erase .regulate ∨
      ∃ transfer rest queue acks src srcBe event, s.regulationQueue = transfer :: rest ∧
        s.erase.srcConflict getBeConsumer transfer.toTransfer = false ∧
        s.transferRegulationHandler getBeConsumer =
          { s with
            regulationQueue := rest
            transferQueue := queue
            transferAckQueue := acks
            currentTransfer := some transfer.collective
            currentTransferSize := transfer.size
            currentTransferSrc := src
            currentTransferDst := transfer.dst
            currentTransferSrcBe := srcBe
            currentTransferDstBe := some (getBeConsumer transfer.dst transfer.size false)
            regulationEvent := event } := by
  unfold transferRegulationHandler
  dsimp only
  split
  next empty =>
    refine Or.inl ⟨rfl, fun transfer front => ?_⟩
    rw [erase, empty] at front
    cases front
  next transfer rest waiting =>
    split
    next held =>
      refine Or.inl ⟨rfl, fun front mem => Or.inl ?_⟩
      rw [erase, waiting] at mem
      obtain rfl := Option.some.inj mem
      exact held
    next forward =>
      exact Or.inr ⟨transfer, rest, _, _, _, _, _, waiting, eq_false_of_ne_true forward, rfl⟩

/-! ## The backend without the operations -/

omit [DecidableEq β] in
theorem ackData_erase {s t : CollectiveBackend β} {size : Nat} (next : s.ackData size = some t) :
    s.erase.ackData size = some t.erase := by
  unfold CollectiveBackend.ackData at next
  unfold Backend.ackData CollectiveBackend.erase
  dsimp only
  cases queue : s.transferAckQueue with
  | nil =>
      rw [queue] at next
      cases next
  | cons ackSize rest =>
      rw [queue] at next
      dsimp only at next ⊢
      split at next
      case isTrue done =>
        obtain rfl := Option.some.inj next
        rw [if_pos done]
      case isFalse more =>
        obtain rfl := Option.some.inj next
        rw [if_neg more]

theorem writeData_erase {s t : CollectiveBackend β} {size : Nat}
    (next : s.writeData axi getBeConsumer size = some t) :
    s.erase.writeData size = some t.erase := by
  obtain ⟨queue, written, ⟨-, toAxi⟩ | ⟨-, rfl⟩⟩ :=
    CollectiveBackend.writeData_cases axi getBeConsumer next
  · obtain ⟨axi, collective, -, -, rfl⟩ := axiWriteData_cases toAxi
    exact written
  · exact written

theorem transferRegulationHandler_erase (s : CollectiveBackend β) :
    s.erase.transferRegulationHandler getBeConsumer =
      (s.transferRegulationHandler getBeConsumer).erase := by
  unfold CollectiveBackend.transferRegulationHandler Backend.transferRegulationHandler
  rcases s with ⟨waiting⟩
  cases waiting with
  | nil => rfl
  | cons transfer rest =>
      simp only [CollectiveBackend.erase, List.map_cons]
      split
      · rfl
      · simp

/-- The operations change nothing else. -/
theorem step_erase {s t : CollectiveBackend β} {e : CollectiveEvent}
    (next : s.step axi getBeConsumer e = some t) :
    s.erase.step getBeConsumer e.erase = some t.erase := by
  cases e with
  | enqueue transfer =>
      cases next
      simp [CollectiveEvent.erase, Backend.step, Backend.enqueueTransfer, CollectiveBackend.erase,
        CollectiveBackend.enqueueTransfer]
  | regulate =>
      cases next
      exact congrArg some (transferRegulationHandler_erase getBeConsumer s)
  | burst size =>
      obtain ⟨-, -, erased, -⟩ := issueBurst_cases axi next
      exact congrArg some erased.symm
  | write size => exact writeData_erase axi getBeConsumer next
  | ack size => exact ackData_erase next
  | update =>
      cases next
      rfl

end

end SoftHier.Idma
