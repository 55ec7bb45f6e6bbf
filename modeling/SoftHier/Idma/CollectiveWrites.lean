import SoftHier.Idma.Collective

/-!
# The payloads of the chunks

What `IDmaBeAxi` writes for the bursts it was given, and with which operations.

* `Writing`: what has been written, with the payload it should have had.
* `allWrites_of_run`: the bursts are those of the transfers handed over.
* `throughout_ownPayload_of_waiting`: it is enough to wait before the operation is changed.
* `collective_iff`: when all bytes go out with the operation of their own transfer.
-/

namespace SoftHier.Idma

variable {β : Type*}

/-! ## The bytes and their payloads -/

/-- The bytes of a burst, with the payload of its transfer. -/
def tagged (w : WriteBurst × Collective) : List (Nat × Payload) := w.2.tag w.1.addresses

namespace CollectiveBackend

/-- The bytes of the bursts given to the AXI backend. -/
def writeBytes (s : CollectiveBackend β) : List (Nat × Payload) := s.writes.flatMap tagged

/-- The bursts that are still in `write_axi_sending_bursts`, with their operations. -/
def unwritten (s : CollectiveBackend β) : List (WriteBurst × Collective) :=
  s.writes.drop (s.writes.length - s.axi.sending.length)

/-- What is left to write of the bursts. -/
def left (s : CollectiveBackend β) : List (Nat × Payload) :=
  (List.zipWith (fun b w => w.2.tag b.addresses) s.axi.left s.unwritten).flatten

end CollectiveBackend

section

variable [DecidableEq β] (axi : β) (getBeConsumer : Nat → Nat → Bool → β)

/-- A chunk is written for a burst of a transfer with the payload of the current one. -/
def OwnPayload (s : CollectiveBackend β) : CollectiveEvent → Prop
  | .write _ => s.WritesAxi axi getBeConsumer →
      ∀ w ∈ s.unwritten.head?, ∀ current ∈ s.currentTransfer, w.2.payload = current.payload
  | _ => True

end

theorem tag_append (c : Collective) (as bs : List Nat) : c.tag (as ++ bs) = c.tag as ++ c.tag bs :=
  List.map_append

theorem map_fst_tag (c : Collective) (as : List Nat) : (c.tag as).map Prod.fst = as := by
  unfold Collective.tag
  rw [List.map_map]
  exact List.map_id as

theorem tag_eq_iff {as : List Nat} (some : as ≠ []) (c d : Collective) :
    c.tag as = d.tag as ↔ c.payload = d.payload := by
  obtain ⟨a, as, rfl⟩ := List.exists_cons_of_ne_nil some
  constructor
  · intro same
    obtain ⟨first, -⟩ := List.cons.inj same
    exact (Prod.mk.inj first).2
  · intro same
    unfold Collective.tag
    rw [same]

/-- The run so far: `right` are the bytes written, with the payload they should have. -/
structure Writing (s : CollectiveBackend β) (own : Prop) (right : List (Nat × Payload)) : Prop where
  size_lt : s.currentTransferSize < 2 ^ 64
  burst_lt : ∀ b ∈ s.axi.sending, b.size < 2 ^ 64
  length_le : s.axi.sending.length ≤ s.writes.length
  total : s.writeBytes = right ++ s.left
  places : s.sent.map Prod.fst = right.map Prod.fst
  same : s.sent = right ↔ own

namespace Writing

variable {s t : CollectiveBackend β} {own : Prop} {right : List (Nat × Payload)}

theorem length_unwritten (inv : Writing s own right) :
    s.unwritten.length = s.axi.sending.length := by
  unfold CollectiveBackend.unwritten
  rw [List.length_drop]
  exact Nat.sub_sub_self inv.length_le

/-- The AXI backend takes no part. -/
theorem carry (inv : Writing s own right) (size_lt : t.currentTransferSize < 2 ^ 64)
    (axi : t.axi = s.axi) (writes : t.writes = s.writes) (sent : t.sent = s.sent) :
    Writing t (own ∧ True) right where
  size_lt := size_lt
  burst_lt := axi ▸ inv.burst_lt
  length_le := by rw [axi, writes]; exact inv.length_le
  total := by
    have total := inv.total
    unfold CollectiveBackend.writeBytes CollectiveBackend.left CollectiveBackend.unwritten
      at total ⊢
    rw [axi, writes, total]
  places := by rw [sent, inv.places]
  same := by rw [sent, and_true, inv.same]

theorem unwritten_burst (inv : Writing s own right) {base size : Nat} {collective : Collective}
    (axi : t.axi = s.axi.enqueueBurst base size)
    (writes : t.writes = s.writes ++ [(⟨base, size⟩, collective)]) :
    t.unwritten = s.unwritten ++ [(⟨base, size⟩, collective)] := by
  have le := inv.length_le
  unfold CollectiveBackend.unwritten
  rw [axi, writes, sending_enqueueBurst, List.length_append, List.length_append,
    List.length_singleton, List.length_singleton, Nat.add_sub_add_right,
    List.drop_append_of_le_length (Nat.sub_le _ _)]

/-- A burst is enqueued. -/
theorem burst (inv : Writing s own right) {base size : Nat} {collective : Collective}
    (size_lt : t.currentTransferSize < 2 ^ 64) (burst_lt : size < 2 ^ 64)
    (axi : t.axi = s.axi.enqueueBurst base size)
    (writes : t.writes = s.writes ++ [(⟨base, size⟩, collective)]) (sent : t.sent = s.sent) :
    Writing t (own ∧ True) right := by
  have sending : t.axi.sending = s.axi.sending ++ [⟨base, size⟩] := by
    rw [axi, sending_enqueueBurst]
  have left : t.left = s.left ++ tagged (⟨base, size⟩, collective) := by
    have lengths : s.axi.left.length = s.unwritten.length := by
      rw [length_left, inv.length_unwritten]
    unfold CollectiveBackend.left
    rw [axi, left_enqueueBurst, inv.unwritten_burst axi writes, List.zipWith_append lengths,
      List.flatten_append]
    simp [tagged]
  refine ⟨size_lt, ?_, ?_, ?_, ?_, ?_⟩
  · intro b mem
    rw [sending, List.mem_append, List.mem_singleton] at mem
    rcases mem with before | rfl
    · exact inv.burst_lt b before
    · exact burst_lt
  · rw [sending, writes, List.length_append, List.length_append]
    exact Nat.add_le_add_right inv.length_le _
  · rw [left, ← List.append_assoc, ← inv.total]
    unfold CollectiveBackend.writeBytes
    rw [writes, List.flatMap_append, List.flatMap_singleton]
  · rw [sent, inv.places]
  · rw [sent, and_true, inv.same]

/-- A chunk is taken from what is left of the first burst. -/
theorem left_axiWriteData (inv : Writing s own right) {queue : WriteQueue} {size : Nat}
    (fits : ∃ front ∈ s.axi.sending.head?, size ≤ front.size)
    (written : s.axi.writeData size = some queue) (axi : t.axi = queue)
    (writes : t.writes = s.writes) :
    ∃ w ∈ s.unwritten.head?, (∀ v ∈ t.unwritten, v ∈ s.unwritten) ∧
      (∀ b ∈ t.axi.sending, b.size < 2 ^ 64) ∧ t.axi.sending.length ≤ s.axi.sending.length ∧
      s.left = w.2.tag (addresses s.axi.currentBurstBase size) ++ t.left := by
  obtain ⟨front, head, le⟩ := fits
  have lt := inv.burst_lt front (List.mem_of_mem_head? head)
  obtain ⟨front', rest, before, sending, ends⟩ :=
    WriteQueue.writeData_cases ⟨front, head, le, lt⟩ written
  rw [sending] at head
  obtain rfl := Option.some.inj head
  have count := inv.length_unwritten
  rw [sending, List.length_cons] at count
  obtain ⟨w, ws, waiting⟩ := List.exists_cons_of_length_eq_add_one count
  have first : s.left = w.2.tag (addresses s.axi.currentBurstBase front'.size) ++
      (List.zipWith (fun b w => w.2.tag b.addresses) rest ws).flatten := by
    unfold CollectiveBackend.left
    rw [before, waiting, List.zipWith_cons_cons, List.flatten_cons]
    rfl
  refine ⟨w, by rw [waiting]; rfl, ?_⟩
  rcases ends with ⟨all, sending', left'⟩ | ⟨more, sending', left'⟩
  · have unwritten : t.unwritten = ws := by
      have le' := inv.length_le
      have tail := congrArg List.tail waiting
      unfold CollectiveBackend.unwritten at tail ⊢
      rw [sending, List.length_cons] at le' tail
      rw [List.tail_drop, List.tail_cons] at tail
      rw [← tail, axi, writes, sending']
      congr 1
      omega
    refine ⟨fun v mem => ?_, ?_, ?_, ?_⟩
    · rw [waiting]
      exact List.mem_cons_of_mem _ (unwritten ▸ mem)
    · intro b mem
      rw [axi, sending'] at mem
      exact inv.burst_lt b (by rw [sending]; exact List.mem_cons_of_mem _ mem)
    · rw [axi, sending', sending, List.length_cons]
      exact Nat.le_succ _
    · rw [first, all]
      refine congrArg _ ?_
      unfold CollectiveBackend.left
      rw [axi, left', unwritten]
  · have unwritten : t.unwritten = s.unwritten := by
      unfold CollectiveBackend.unwritten
      rw [axi, writes, sending', sending, List.length_cons, List.length_cons]
    refine ⟨fun v mem => unwritten ▸ mem, ?_, ?_, ?_⟩
    · intro b mem
      rw [axi, sending'] at mem
      rcases List.mem_cons.mp mem with rfl | behind
      · exact Nat.lt_of_le_of_lt (Nat.sub_le _ _) lt
      · exact inv.burst_lt b (by rw [sending]; exact List.mem_cons_of_mem _ behind)
    · rw [axi, sending', sending, List.length_cons, List.length_cons]
    · have parts : front'.size = size + (front'.size - size) := by omega
      rw [first, parts, addresses_add, tag_append, List.append_assoc]
      refine congrArg _ ?_
      unfold CollectiveBackend.left
      rw [axi, left', unwritten, waiting, List.zipWith_cons_cons, List.flatten_cons]
      rfl

/-- A chunk is written; it has the payload it should have if the current transfer has. -/
theorem chunk (inv : Writing s own right) {queue : WriteQueue} {collective : Collective}
    {size : Nat} (pos : 0 < size) (fits : ∃ front ∈ s.axi.sending.head?, size ≤ front.size)
    (written : s.axi.writeData size = some queue) (size_lt : t.currentTransferSize < 2 ^ 64)
    (axi : t.axi = queue) (writes : t.writes = s.writes)
    (sent : t.sent = s.sent ++ collective.tag (addresses s.axi.currentBurstBase size)) :
    ∃ w ∈ s.unwritten.head?, ∃ right',
      Writing t (own ∧ w.2.payload = collective.payload) right' := by
  obtain ⟨w, first, -, burst_lt, shorter, left⟩ := inv.left_axiWriteData fits written axi writes
  have some : addresses s.axi.currentBurstBase size ≠ [] := by
    refine List.ne_nil_of_length_pos ?_
    rwa [addresses_length]
  have long : s.sent.length = right.length := by
    have places := congrArg List.length inv.places
    rwa [List.length_map, List.length_map] at places
  refine ⟨w, first, right ++ w.2.tag (addresses s.axi.currentBurstBase size),
    size_lt, burst_lt, ?_, ?_, ?_, ?_⟩
  · rw [writes]
    exact Nat.le_trans shorter inv.length_le
  · rw [List.append_assoc, ← left, ← inv.total]
    unfold CollectiveBackend.writeBytes
    rw [writes]
  · rw [sent, List.map_append, List.map_append, inv.places, map_fst_tag, map_fst_tag]
  · rw [sent, ← inv.same, ← tag_eq_iff some]
    constructor
    · intro all
      obtain ⟨before, now⟩ := List.append_inj all long
      exact ⟨before, now.symm⟩
    · rintro ⟨before, now⟩
      rw [before, now]

end Writing

section

variable [DecidableEq β] (axi : β) (getBeConsumer : Nat → Nat → Bool → β)

/-- An event keeps what has been written and what it should have been. -/
theorem Writing.step {s t : CollectiveBackend β} {e : CollectiveEvent} {own : Prop}
    {right : List (Nat × Payload)} (inv : Writing s own right)
    (ok : e.Allowed axi getBeConsumer s) (next : s.step axi getBeConsumer e = some t) :
    ∃ right', Writing t (own ∧ OwnPayload axi getBeConsumer s e) right' := by
  cases e with
  | enqueue transfer =>
      cases next
      exact ⟨right, inv.carry inv.size_lt rfl rfl rfl⟩
  | regulate =>
      cases next
      obtain ⟨same, -⟩ | ⟨transfer, rest, _, _, _, _, _, -, -, same⟩ :=
        s.regulate_cases getBeConsumer
      · rw [same]
        exact ⟨right, inv.carry inv.size_lt rfl rfl rfl⟩
      · rw [same]
        exact ⟨right, inv.carry transfer.size_lt rfl rfl rfl⟩
  | burst size =>
      obtain ⟨-, le⟩ := ok
      obtain ⟨collective, -, erased, -, -, sent, queue⟩ := issueBurst_cases axi next
      have count : t.currentTransferSize = s.currentTransferSize - size :=
        congrArg Backend.currentTransferSize erased
      have size_lt : t.currentTransferSize < 2 ^ 64 :=
        count ▸ Nat.lt_of_le_of_lt (Nat.sub_le _ _) inv.size_lt
      obtain ⟨-, enqueued, writes⟩ | ⟨-, enqueued, writes⟩ := queue
      · exact ⟨right, inv.burst size_lt (Nat.lt_of_le_of_lt le inv.size_lt) enqueued writes sent⟩
      · exact ⟨right, inv.carry size_lt enqueued writes sent⟩
  | write size =>
      obtain ⟨pos, fits⟩ := ok
      obtain ⟨queue, -, ⟨toAxi, chunk⟩ | ⟨toLocal, rfl⟩⟩ :=
        CollectiveBackend.writeData_cases axi getBeConsumer next
      · obtain ⟨axi', collective, written, current, rfl⟩ := axiWriteData_cases chunk
        obtain ⟨w, first, right', inv'⟩ := inv.chunk (t := { s with
          transferQueue := queue
          axi := axi'
          sent := s.sent ++ collective.tag (addresses s.axi.currentBurstBase size) })
          pos (fits toAxi) written inv.size_lt rfl rfl rfl
        have own' : OwnPayload axi getBeConsumer s (.write size) ↔
            w.2.payload = collective.payload := by
          unfold OwnPayload
          rw [show s.currentTransfer = some collective from current, first]
          simp [toAxi]
        rw [own']
        exact ⟨right', inv'⟩
      · have own' : OwnPayload axi getBeConsumer s (.write size) ↔ True :=
          iff_true_intro fun toAxi => absurd toAxi toLocal
        rw [own']
        exact ⟨right, inv.carry inv.size_lt rfl rfl rfl⟩
  | ack size =>
      obtain ⟨queue, event, rfl⟩ := ackData_keep next
      exact ⟨right, inv.carry inv.size_lt rfl rfl rfl⟩
  | update =>
      cases next
      exact ⟨right, inv.carry inv.size_lt rfl rfl rfl⟩

theorem writing_of_run {es : List CollectiveEvent} {s : CollectiveBackend β}
    (run : CollectiveRun axi getBeConsumer es s) :
    ∃ right, Writing s (CollectiveThroughout axi getBeConsumer
      (OwnPayload axi getBeConsumer) es) right := by
  induction run with
  | nil =>
      refine ⟨[], Nat.two_pow_pos 64, ?_, Nat.le_refl 0, rfl, rfl, iff_of_true rfl throughout_nil⟩
      intro b mem
      cases mem
  | snoc run ok next ih =>
      obtain ⟨right, inv⟩ := ih
      obtain ⟨right', inv'⟩ := inv.step axi getBeConsumer ok next
      rw [← throughout_snoc run] at inv'
      exact ⟨right', inv'⟩

end

/-! ## The transfers handed over -/

section

variable [DecidableEq β] (axi : β) (getBeConsumer : Nat → Nat → Bool → β)

/-- The bytes a transfer writes through the AXI backend. -/
def CollectiveTransfer.writes (t : CollectiveTransfer) : List (Nat × Payload) :=
  if getBeConsumer t.dst t.size false = axi then t.collective.tag (addresses t.dst t.size) else []

/-- Those of the transfers handed over, in order. -/
def handedOver (es : List CollectiveEvent) : List (Nat × Payload) :=
  es.flatMap fun e => match e with
    | .enqueue transfer => transfer.writes axi getBeConsumer
    | _ => []

namespace CollectiveBackend

/-- What the current transfer has still to write through the AXI backend. -/
def currentWrites (s : CollectiveBackend β) : List (Nat × Payload) :=
  match s.currentTransfer with
  | none => []
  | some collective =>
      if s.currentTransferDstBe = some axi then
        collective.tag (addresses s.currentTransferDst s.currentTransferSize)
      else []

/-- What the transfers that wait have to write through it. -/
def waitingWrites (s : CollectiveBackend β) : List (Nat × Payload) :=
  s.regulationQueue.flatMap (CollectiveTransfer.writes axi getBeConsumer)

/-- The bytes of the bursts, those of the current transfer and those waiting, in this order. -/
def allWrites (s : CollectiveBackend β) : List (Nat × Payload) :=
  s.writeBytes ++ s.currentWrites axi ++ s.waitingWrites axi getBeConsumer

end CollectiveBackend

/-- Nothing is left of a current transfer of size 0. -/
theorem currentWrites_of_empty {s : CollectiveBackend β} (empty : s.currentTransferSize = 0) :
    s.currentWrites axi = [] := by
  unfold CollectiveBackend.currentWrites
  rw [empty]
  split
  · rfl
  · exact ite_self _

/-- Issuing a burst moves its bytes from the current transfer to the bursts. -/
theorem allWrites_issueBurst {s t : CollectiveBackend β} {size : Nat}
    (le : size ≤ s.currentTransferSize) (next : s.issueBurst axi size = some t) :
    t.allWrites axi getBeConsumer = s.allWrites axi getBeConsumer := by
  obtain ⟨collective, current, erased, current', waiting, -, queue⟩ := issueBurst_cases axi next
  have count : t.currentTransferSize = s.currentTransferSize - size :=
    congrArg Backend.currentTransferSize erased
  have dst : t.currentTransferDst = u64 (s.currentTransferDst + size) :=
    congrArg Backend.currentTransferDst erased
  have dstBe : t.currentTransferDstBe = s.currentTransferDstBe :=
    congrArg Backend.currentTransferDstBe erased
  have moved : t.writeBytes ++ t.currentWrites axi = s.writeBytes ++ s.currentWrites axi := by
    unfold CollectiveBackend.currentWrites
    rw [current, current', dstBe, dst, count]
    dsimp only
    obtain ⟨toAxi, -, writes⟩ | ⟨toLocal, -, writes⟩ := queue
    · have parts : s.currentTransferSize = size + (s.currentTransferSize - size) := by omega
      rw [if_pos toAxi, if_pos toAxi]
      conv_rhs => rw [parts, addresses_add, tag_append]
      unfold CollectiveBackend.writeBytes
      rw [writes, List.flatMap_append, List.flatMap_singleton, List.append_assoc]
      rfl
    · rw [if_neg toLocal, if_neg toLocal]
      unfold CollectiveBackend.writeBytes
      rw [writes]
  unfold CollectiveBackend.allWrites CollectiveBackend.waitingWrites
  rw [moved, waiting]

/-- The bytes after an event that finds the backend ready. -/
theorem allWrites_step {s t : CollectiveBackend β} {e : CollectiveEvent}
    (ok : e.Allowed axi getBeConsumer s) (ready : Ready getBeConsumer s.erase e.erase)
    (next : s.step axi getBeConsumer e = some t) (es : List CollectiveEvent) :
    ∃ more, handedOver axi getBeConsumer (es ++ [e]) = handedOver axi getBeConsumer es ++ more ∧
      t.allWrites axi getBeConsumer = s.allWrites axi getBeConsumer ++ more := by
  cases e with
  | enqueue transfer =>
      cases next
      refine ⟨transfer.writes axi getBeConsumer, by simp [handedOver], ?_⟩
      have waiting : (s.enqueueTransfer transfer).waitingWrites axi getBeConsumer =
          s.waitingWrites axi getBeConsumer ++ transfer.writes axi getBeConsumer := by
        show (s.regulationQueue ++ [transfer]).flatMap _ = _
        rw [List.flatMap_append, List.flatMap_singleton]
        rfl
      unfold CollectiveBackend.allWrites
      rw [waiting, ← List.append_assoc]
      rfl
  | regulate =>
      cases next
      refine ⟨[], by simp [handedOver], ?_⟩
      rw [List.append_nil]
      obtain ⟨same, -⟩ | ⟨transfer, rest, _, _, _, _, _, waiting, conflict, same⟩ :=
        s.regulate_cases getBeConsumer
      · rw [same]
        rfl
      · have front : transfer.toTransfer ∈ s.erase.regulationQueue.head? := by
          unfold CollectiveBackend.erase
          rw [waiting]
          rfl
        have idle : s.currentTransferSize = 0 := by
          rcases ready _ front with held | idle
          · rw [conflict] at held
            cases held
          · exact of_decide_eq_true idle
        rw [same]
        unfold CollectiveBackend.allWrites
        rw [currentWrites_of_empty axi idle]
        unfold CollectiveBackend.waitingWrites CollectiveBackend.currentWrites
        rw [waiting, List.flatMap_cons, List.append_nil, ← List.append_assoc]
        refine congrArg (· ++ _) (congrArg _ ?_)
        exact ite_congr (propext Option.some_inj) (fun _ => rfl) fun _ => rfl
  | burst size =>
      refine ⟨[], by simp [handedOver], ?_⟩
      rw [allWrites_issueBurst axi getBeConsumer ok.2 next, List.append_nil]
  | write size =>
      refine ⟨[], by simp [handedOver], ?_⟩
      rw [List.append_nil]
      obtain ⟨queue, -, ⟨-, chunk⟩ | ⟨-, rfl⟩⟩ :=
        CollectiveBackend.writeData_cases axi getBeConsumer next
      · obtain ⟨axi', collective, -, -, rfl⟩ := axiWriteData_cases chunk
        rfl
      · rfl
  | ack size =>
      obtain ⟨queue, event, rfl⟩ := ackData_keep next
      exact ⟨[], by simp [handedOver], (List.append_nil _).symm⟩
  | update =>
      cases next
      exact ⟨[], by simp [handedOver], (List.append_nil _).symm⟩

/-- No byte is lost while every call of the handler finds the backend ready. -/
theorem allWrites_of_run {es : List CollectiveEvent} {s : CollectiveBackend β}
    (run : CollectiveRun axi getBeConsumer es s)
    (ready : CollectiveThroughout axi getBeConsumer
      (fun s e => Ready getBeConsumer s.erase e.erase) es) :
    s.allWrites axi getBeConsumer = handedOver axi getBeConsumer es := by
  induction run with
  | nil => rfl
  | @snoc es s t e run ok next ih =>
      obtain ⟨before, now⟩ := (throughout_snoc run).mp ready
      obtain ⟨more, enqueued, bytes⟩ := allWrites_step axi getBeConsumer ok now next es
      rw [enqueued, bytes, ih before]

end

/-! ## Waiting before the operation is changed -/

/-- A transfer is handed over when the bursts not yet written and the transfers that wait have its
payload. -/
def SamePayload (s : CollectiveBackend β) : CollectiveEvent → Prop
  | .enqueue transfer =>
      (∀ w ∈ s.unwritten, w.2.payload = transfer.collective.payload) ∧
        ∀ t ∈ s.regulationQueue, t.collective.payload = transfer.collective.payload
  | _ => True

/-- What is not yet written has the payload `p`. -/
structure OnePayload (s : CollectiveBackend β) (p : Payload) : Prop where
  unwritten : ∀ w ∈ s.unwritten, w.2.payload = p
  waiting : ∀ t ∈ s.regulationQueue, t.collective.payload = p
  current : s.unwritten ≠ [] ∨ 0 < s.currentTransferSize →
    ∀ c ∈ s.currentTransfer, c.payload = p

section

variable [DecidableEq β] (axi : β) (getBeConsumer : Nat → Nat → Bool → β)

omit [DecidableEq β] in
theorem OnePayload.own {s : CollectiveBackend β} {p : Payload} (one : OnePayload s p)
    (e : CollectiveEvent) : OwnPayload axi getBeConsumer s e := by
  cases e with
  | write size =>
      intro _ w first c current
      have mem : w ∈ s.unwritten := List.mem_of_mem_head? first
      rw [one.unwritten w mem, one.current (Or.inl (List.ne_nil_of_mem mem)) c current]
  | enqueue | regulate | burst | ack | update => trivial

theorem OnePayload.step {s t : CollectiveBackend β} {e : CollectiveEvent} {p : Payload} {own : Prop}
    {right : List (Nat × Payload)} (one : OnePayload s p) (inv : Writing s own right)
    (ok : e.Allowed axi getBeConsumer s) (waits : SamePayload s e)
    (next : s.step axi getBeConsumer e = some t) : ∃ q, OnePayload t q := by
  cases e with
  | enqueue transfer =>
      cases next
      have idle : s.currentTransferSize = 0 := of_decide_eq_true ok
      refine ⟨transfer.collective.payload, waits.1, ?_, ?_⟩
      · intro u mem
        rcases List.mem_append.mp mem with before | new
        · exact waits.2 u before
        · rw [List.mem_singleton.mp new]
      · rintro (some | busy) c current
        · obtain ⟨w, mem⟩ := List.exists_mem_of_ne_nil _ some
          rw [one.current (Or.inl some) c current, ← one.unwritten w mem]
          exact waits.1 w mem
        · exact absurd idle (Nat.ne_of_gt busy)
  | regulate =>
      cases next
      refine ⟨p, ?_⟩
      obtain ⟨same, -⟩ | ⟨transfer, rest, _, _, _, _, _, waiting, -, same⟩ :=
        s.regulate_cases getBeConsumer
      · rw [same]
        exact ⟨one.unwritten, one.waiting, one.current⟩
      · rw [same]
        refine ⟨one.unwritten, fun u mem => one.waiting u ?_, fun _ c current => ?_⟩
        · rw [waiting]
          exact List.mem_cons_of_mem _ mem
        · obtain rfl := Option.some.inj current
          refine one.waiting transfer ?_
          rw [waiting]
          exact List.mem_cons_self
  | burst size =>
      refine ⟨p, ?_⟩
      obtain ⟨pos, le⟩ := ok
      obtain ⟨collective, current, -, current', waiting, -, queue⟩ := issueBurst_cases axi next
      have now : collective.payload = p :=
        one.current (Or.inr (Nat.lt_of_lt_of_le pos le)) _ current
      refine ⟨?_, waiting ▸ one.waiting, fun _ c mem => ?_⟩
      · obtain ⟨-, enqueued, writes⟩ | ⟨-, enqueued, writes⟩ := queue
        · intro w mem
          rw [inv.unwritten_burst enqueued writes, List.mem_append, List.mem_singleton] at mem
          rcases mem with before | rfl
          · exact one.unwritten w before
          · exact now
        · unfold CollectiveBackend.unwritten
          rw [enqueued, writes]
          exact one.unwritten
      · rw [current'] at mem
        obtain rfl := Option.some.inj mem
        exact now
  | write size =>
      refine ⟨p, ?_⟩
      obtain ⟨pos, fits⟩ := ok
      obtain ⟨queue, -, ⟨toAxi, chunk⟩ | ⟨toLocal, rfl⟩⟩ :=
        CollectiveBackend.writeData_cases axi getBeConsumer next
      · obtain ⟨axi', collective, written, current, rfl⟩ := axiWriteData_cases chunk
        obtain ⟨w, first, fewer, -⟩ := inv.left_axiWriteData (t := { s with
          transferQueue := queue
          axi := axi'
          sent := s.sent ++ collective.tag (addresses s.axi.currentBurstBase size) })
          (fits toAxi) written rfl rfl
        refine ⟨fun v mem => one.unwritten v (fewer v mem), one.waiting, fun _ => ?_⟩
        exact one.current (Or.inl (List.ne_nil_of_mem (List.mem_of_mem_head? first)))
      · exact ⟨one.unwritten, one.waiting, one.current⟩
  | ack size =>
      obtain ⟨queue, event, rfl⟩ := ackData_keep next
      exact ⟨p, one.unwritten, one.waiting, one.current⟩
  | update =>
      cases next
      exact ⟨p, one.unwritten, one.waiting, one.current⟩

/-- Waiting before the operation is changed is enough. -/
theorem throughout_ownPayload_of_waiting {es : List CollectiveEvent} {s : CollectiveBackend β}
    (run : CollectiveRun axi getBeConsumer es s)
    (waits : CollectiveThroughout axi getBeConsumer SamePayload es) :
    CollectiveThroughout axi getBeConsumer (OwnPayload axi getBeConsumer) es := by
  have all : (∃ p, OnePayload s p) ∧
      CollectiveThroughout axi getBeConsumer (OwnPayload axi getBeConsumer) es := by
    induction run with
    | nil =>
        refine ⟨⟨(0, 0, 0), ?_, ?_, ?_⟩, throughout_nil⟩
        · intro w mem
          cases mem
        · intro t mem
          cases mem
        · intro _ c current
          cases current
    | snoc run ok next ih =>
        obtain ⟨before, now⟩ := (throughout_snoc run).mp waits
        obtain ⟨⟨p, one⟩, own⟩ := ih before
        obtain ⟨_, inv⟩ := writing_of_run axi getBeConsumer run
        exact ⟨one.step axi getBeConsumer inv ok now next,
          (throughout_snoc run).mpr ⟨own, one.own axi getBeConsumer _⟩⟩
  exact all.2

end

/-- The addresses written and those left to write are the addresses of the bursts given to the AXI
backend, in order and each once.  They are written with the payloads of their own transfers exactly
when every chunk was written while the current transfer had the payload of the transfer the chunk
belongs to.  While no call of `transfer_regulation_handler` replaces a transfer of which something
is left, the bursts are those of the transfers handed over for the AXI backend, and no chunk gets
another payload when a transfer is handed over only after the bursts and the transfers with another
payload. -/
theorem collective_iff [DecidableEq β] (axi : β) (getBeConsumer : Nat → Nat → Bool → β)
    (es : List CollectiveEvent) (s : CollectiveBackend β)
    (run : CollectiveRun axi getBeConsumer es s) :
    (s.sent ++ s.left).map Prod.fst = s.writeBytes.map Prod.fst ∧
      (s.sent ++ s.left = s.writeBytes ↔
        CollectiveThroughout axi getBeConsumer (OwnPayload axi getBeConsumer) es) ∧
      (CollectiveThroughout axi getBeConsumer (fun s e => Ready getBeConsumer s.erase e.erase) es →
        s.writeBytes ++ s.currentWrites axi ++ s.waitingWrites axi getBeConsumer =
          handedOver axi getBeConsumer es) ∧
      (CollectiveThroughout axi getBeConsumer SamePayload es →
        s.sent ++ s.left = s.writeBytes) := by
  obtain ⟨right, inv⟩ := writing_of_run axi getBeConsumer run
  have own : s.sent ++ s.left = s.writeBytes ↔
      CollectiveThroughout axi getBeConsumer (OwnPayload axi getBeConsumer) es := by
    rw [inv.total, ← inv.same]
    exact List.append_left_inj s.left
  refine ⟨?_, own, allWrites_of_run axi getBeConsumer run, fun waits => ?_⟩
  · rw [inv.total, List.map_append, List.map_append, inv.places]
  · exact own.mpr (throughout_ownPayload_of_waiting axi getBeConsumer run waits)

/-- A broadcast, operation 1. -/
def rowBroadcast : Collective := ⟨1, 3, 0⟩

/-- A plain transfer, operation 0. -/
def unicast : Collective := ⟨0, 0, 0⟩

/-- A broadcast of eight bytes in two bursts, and the plain transfer behind it, handed over when the
first burst is written. -/
def broadcastThenPlain : List CollectiveEvent :=
  [.enqueue ⟨⟨0, 0x2000, 8⟩, rowBroadcast, by decide⟩, .regulate, .burst 4, .burst 4, .write 4,
    .enqueue ⟨⟨8, 0x3000, 8⟩, unicast, by decide⟩, .regulate, .burst 8, .write 4, .write 2]

/-- The second burst of the broadcast goes out as a plain write. -/
theorem collective_iff_broadcastThenPlain :
    ∃ s : CollectiveBackend Bool, CollectiveRun false localBelow broadcastThenPlain s ∧
      s.sent = rowBroadcast.tag (addresses 0x2000 4) ++
        unicast.tag (addresses 0x2004 4 ++ addresses 0x3000 2) ∧
      (s.sent ++ s.left).map Prod.fst = s.writeBytes.map Prod.fst ∧
      ¬ CollectiveThroughout false localBelow (OwnPayload false localBelow) broadcastThenPlain ∧
      s.writeBytes ++ s.currentWrites false ++ s.waitingWrites false localBelow =
        handedOver false localBelow broadcastThenPlain := by
  have run : CollectiveRun false localBelow broadcastThenPlain _ := History.execute .nil rfl
  have ready : CollectiveThroughout false localBelow
      (fun s e => Ready localBelow s.erase e.erase) broadcastThenPlain :=
    throughout_of_history (History.execute .nil rfl)
  obtain ⟨places, own, all, -⟩ := collective_iff false localBelow _ _ run
  refine ⟨_, run, rfl, places, fun each => ?_, all ready⟩
  have same := own.mpr each
  revert same
  decide +kernel

end SoftHier.Idma
