import TradingPipeline.Foundation.BoundedFifo
import TradingPipeline.Shmbus.RingMemory

/-! The ring implements a bounded FIFO queue.

The invariant relates the memory and the program counters of both sides to an abstract
queue. It survives any crash and restart of the consumer, and those of the producer that
leave its two last stores together.
-/

set_option autoImplicit false

namespace TradingPipeline.Shmbus

open Foundation Foundation.BoundedFifo

/-- How a ring event is seen by the queue object. -/
def RingEvent.asQueue : RingEvent → List (Foundation.BoundedFifo.Event Payload)
  | .publishCall payload => [.putCall payload]
  | .fullTest full => [.fullTest full]
  | .published _ payload => [.put payload]
  | .publishReturn accepted => [.putReturn accepted]
  | .producerCrashed => [.writerGone]
  | .consumeCall => [.takeCall]
  | .emptyTest empty => [.emptyTest empty]
  | .copied _ => []
  | .consumed _ payload => [.take payload]
  | .consumeReturn result => [.takeReturn result]
  | .consumerCrashed => [.readerGone]

/-- What the producer's program counter says about the memory and the queue. -/
def PublishAt (ring : SpscRing) (queue : Queue Payload) (head : UInt64) : PublishPc → Prop
  | .idle => queue.writer = .idle ∧ ring.head = head
  | .loadTail bytes => queue.writer = .called (zeroPad bytes) ∧ ring.head = head
  | .copy bytes offset => queue.writer = .admitted (zeroPad bytes) ∧ ring.head = head ∧
      queue.items.length < ringCapacity ∧
      ∀ written : Fin slotPayload, written < offset →
        (ring.slots (slotAt queue.entered)).payload.get written = (zeroPad bytes).get written
  | .storeSeq bytes => queue.writer = .admitted (zeroPad bytes) ∧ ring.head = head ∧
      queue.items.length < ringCapacity ∧
      (ring.slots (slotAt queue.entered)).payload = zeroPad bytes
  | .storeHead => queue.writer = .stored ∧ ring.head + 1 = head

/-- An attached producer knows how many messages were published; with no producer
attached, the stored head does. -/
def ProducerLinked (ring : SpscRing) (queue : Queue Payload) : Option RingProducer → Prop
  | none => queue.writer = .idle ∧ ring.head = .ofNat queue.entered
  | some producer => producer.nextSeq = .ofNat queue.entered ∧
      PublishAt ring queue (.ofNat queue.entered) producer.pc

def ConsumeAt (queue : Queue Payload) : ConsumePc → Prop
  | .idle => queue.reader = .idle
  | .loadSeq _ => queue.reader = .called
  | .copy offset out => queue.reader = .admitted ∧ ∃ first, queue.items.head? = some first ∧
      ∀ copied : Fin slotPayload, copied < offset → out.get copied = first.get copied
  | .storeTail out => queue.reader = .admitted ∧ queue.items.head? = some out

def ConsumerLinked (queue : Queue Payload) : Option RingConsumer → Prop
  | none => queue.reader = .idle
  | some consumer => consumer.nextSeq = .ofNat queue.taken ∧ ConsumeAt queue consumer.pc

structure Linked (state : RingState) (queue : Queue Payload) : Prop where
  stored : Stored state.ring queue.taken queue.items
  producer : ProducerLinked state.ring queue state.producer
  consumer : ConsumerLinked queue state.consumer

/-- Sequence numbers of the messages in the queue. -/
def unreadSeqs (queue : Queue Payload) : List UInt64 :=
  (List.range queue.items.length).map fun position => .ofNat (queue.taken + position)

/-- The queue object answers the events: it answers their view and ends in `next`, and the
sequence numbers shown are those of the queue. -/
structure Answers (queue : Queue Payload) (events : List RingEvent) (next : Queue Payload) :
    Prop where
  accepted : Accepted ringCapacity queue (events.flatMap RingEvent.asQueue) next
  unread : ∀ history, RingEvent.unread history = unreadSeqs queue →
    RingEvent.unread (history ++ events) = unreadSeqs next
  returned : RingEvent.returnedPayloads events = RingEvent.consumedPayloads events

/-- The event concerns no particular message. -/
def RingEvent.quiet : RingEvent → Bool
  | .published _ _ | .consumed _ _ | .consumeReturn (some _) => false
  | _ => true

theorem RingEvent.unread_quiet (history : List RingEvent) {events : List RingEvent}
    (quiet : events.all RingEvent.quiet = true) :
    RingEvent.unread (history ++ events) = RingEvent.unread history := by
  induction events generalizing history with
  | nil => rw [List.append_nil]
  | cons event rest ih =>
    rw [List.all_cons, Bool.and_eq_true] at quiet
    obtain ⟨alone, others⟩ := quiet
    rw [List.append_cons, ih _ others, RingEvent.unread, List.foldl_append]
    cases event <;> first | rfl | contradiction

theorem RingEvent.returned_quiet {events : List RingEvent}
    (quiet : events.all RingEvent.quiet = true) :
    RingEvent.returnedPayloads events = RingEvent.consumedPayloads events := by
  have each := List.all_eq_true.mp quiet
  have returned : RingEvent.returnedPayloads events = [] := by
    refine List.filterMap_eq_nil_iff.mpr fun event member => ?_
    have alone := each event member
    cases event with
    | consumeReturn result => cases result <;> first | rfl | contradiction
    | _ => rfl
  have consumed : RingEvent.consumedPayloads events = [] := by
    refine List.filterMap_eq_nil_iff.mpr fun event member => ?_
    have alone := each event member
    cases event <;> first | rfl | contradiction
  rw [returned, consumed]

theorem Answers.quiet {queue next : Queue Payload} {events : List RingEvent}
    (accepted : Accepted ringCapacity queue (events.flatMap RingEvent.asQueue) next)
    (quiet : events.all RingEvent.quiet = true) (taken : next.taken = queue.taken)
    (items : next.items = queue.items) : Answers queue events next where
  accepted := accepted
  unread history same := by
    rw [RingEvent.unread_quiet history quiet, same, unreadSeqs, unreadSeqs, taken, items]
  returned := RingEvent.returned_quiet quiet

theorem RingEvent.unread_published (queue : Queue Payload) (history : List RingEvent)
    (item : Payload) (same : RingEvent.unread history = unreadSeqs queue) :
    RingEvent.unread (history ++ [.published (.ofNat queue.entered) item]) =
      (List.range (queue.items ++ [item]).length).map
        fun position => .ofNat (queue.taken + position) := by
  rw [List.length_append, List.length_singleton, List.range_succ, List.map_append]
  simp only [RingEvent.unread, List.foldl_append, List.foldl_cons, List.foldl_nil] at same ⊢
  rw [same]
  rfl

theorem RingEvent.unread_consumed (queue : Queue Payload) (history : List RingEvent)
    {first : Payload} {rest : List Payload} (items : queue.items = first :: rest)
    (room : queue.items.length ≤ ringCapacity)
    (same : RingEvent.unread history = unreadSeqs queue) :
    RingEvent.unread (history ++ [.consumed (.ofNat queue.taken) first,
        .consumeReturn (some first)]) =
      (List.range rest.length).map fun position => .ofNat (queue.taken + 1 + position) := by
  simp only [RingEvent.unread, List.foldl_append, List.foldl_cons, List.foldl_nil] at same ⊢
  rw [same, unreadSeqs, items, List.length_cons, List.range_succ_eq_map]
  simp only [items, List.length_cons, ringCapacity] at room
  -- within one lap no later message has the same seq
  have kept : ∀ seq ∈ (List.range rest.length).map
      (fun position => UInt64.ofNat (queue.taken + 1 + position)),
      decide (seq ≠ .ofNat queue.taken) = true := by
    intro seq member
    obtain ⟨position, within, rfl⟩ := List.mem_map.mp member
    have bound := List.mem_range.mp within
    simp only [ne_eq, decide_eq_true_eq]
    intro equal
    have := Cursor.ofNat_inj _ _ (by omega) (by omega) equal
    omega
  simp only [List.map_cons, Nat.add_zero, List.map_map, List.filter_cons, ne_eq,
    not_true_eq_false, decide_false, Bool.false_eq_true, if_false]
  rw [← List.filter_eq_self.mpr kept]
  congr 1
  apply List.map_congr_left
  intro position _
  exact congrArg UInt64.ofNat (by simp; omega)

theorem zeroPad_get (bytes : List UInt8) (offset : Fin slotPayload) :
    (zeroPad bytes).get offset = bytes.getD offset 0 := by
  have get : (zeroPad bytes).get offset = (zeroPad bytes)[offset.val] := rfl
  rw [get, zeroPad, Vector.getElem_ofFn]

theorem bytes_extend {current next target : Payload} {offset : Fin slotPayload}
    (before : ∀ position : Fin slotPayload, position < offset →
      current.get position = target.get position)
    (written : ∀ position, next.get position =
      if position = offset then target.get offset else current.get position)
    (position : Fin slotPayload) (le : position.val ≤ offset) :
    next.get position = target.get position := by
  rw [written]
  split
  · next last => rw [last]
  · next inner =>
    have different : position.val ≠ offset.val := fun same => inner (Fin.ext same)
    exact before position (by omega)

theorem payload_ext {current target : Payload}
    (same : ∀ position : Fin slotPayload, current.get position = target.get position) :
    current = target := by
  apply Vector.ext
  intro position bound
  exact same ⟨position, bound⟩

section Producer

variable {ring after : SpscRing} {queue : Queue Payload} {producer moved : RingProducer}
  {events : List RingEvent}

/-- What a step of the producer leaves alone, as far as the consumer can tell. -/
structure ProducerFrame (queue next : Queue Payload) : Prop where
  reader : next.reader = queue.reader
  taken : next.taken = queue.taken
  items : queue.items <+: next.items

theorem ConsumerLinked.frame {next : Queue Payload} {consumer : Option RingConsumer}
    (linked : ConsumerLinked queue consumer) (frame : ProducerFrame queue next) :
    ConsumerLinked next consumer := by
  -- a message added behind leaves the first one in place
  have head {first : Payload} (is : queue.items.head? = some first) :
      next.items.head? = some first := by
    obtain ⟨more, extended⟩ := frame.items
    rw [← extended, List.head?_append, is]
    rfl
  cases consumer with
  | none => exact frame.reader.trans linked
  | some consumer =>
    obtain ⟨nextSeq, pc⟩ := linked
    refine ⟨frame.taken ▸ nextSeq, ?_⟩
    cases phase : consumer.pc with
    | idle | loadSeq => simp only [phase, ConsumeAt] at pc ⊢; exact frame.reader.trans pc
    | copy offset out =>
      simp only [phase, ConsumeAt] at pc ⊢
      obtain ⟨reader, first, is, copied⟩ := pc
      exact ⟨frame.reader.trans reader, first, head is, copied⟩
    | storeTail out =>
      simp only [phase, ConsumeAt] at pc ⊢
      exact ⟨frame.reader.trans pc.1, head pc.2⟩

theorem tryPublish_answer {bytes : List UInt8} (linked : ProducerLinked ring queue (some producer))
    (called : producer.tryPublish bytes = some moved) :
    ∃ next, Answers queue [.publishCall (zeroPad bytes)] next ∧
      next.items = queue.items ∧ ProducerLinked ring next (some moved) ∧
      ProducerFrame queue next := by
  simp only [RingProducer.tryPublish, Option.ite_none_right_eq_some, Option.some.injEq] at called
  obtain ⟨⟨idle, _⟩, rfl⟩ := called
  obtain ⟨nextSeq, pc⟩ := linked
  simp only [idle, PublishAt] at pc
  exact ⟨{ queue with writer := .called (zeroPad bytes) },
    .quiet (.one (accept_putCall pc.1)) rfl rfl rfl, rfl, ⟨nextSeq, rfl, pc.2⟩,
    rfl, rfl, List.prefix_refl _⟩

theorem producer_answer (stored : Stored ring queue.taken queue.items)
    (linked : ProducerLinked ring queue (some producer))
    (step : producer.step ring = some (after, moved, events)) :
    ∃ next, Answers queue events next ∧ Stored after next.taken next.items ∧
      ProducerLinked after next (some moved) ∧ ProducerFrame queue next := by
  have slot := slotIndex_ofNat queue.entered
  have stepped := RingProducer.step_inv step
  obtain ⟨nextSeq, pc⟩ := producer
  obtain ⟨rfl, pcAt⟩ := linked
  cases stepped with
  | full refused =>
    obtain ⟨writer, head⟩ := pcAt
    have refused : queue.items.length = ringCapacity := stored.full_iff.mp refused
    exact ⟨{ queue with writer := .idle },
      .quiet (.cons (accept_full writer refused) (.one (accept_putReturn_false rfl))) rfl rfl rfl,
      stored, ⟨rfl, rfl, head⟩, rfl, rfl, List.prefix_refl _⟩
  | @room _ bytes admitted =>
    obtain ⟨writer, head⟩ := pcAt
    have refused : queue.items.length ≠ ringCapacity := mt stored.full_iff.mpr admitted
    have free : queue.items.length < ringCapacity := Nat.lt_of_le_of_ne stored.room refused
    exact ⟨{ queue with writer := .admitted (zeroPad bytes) },
      .quiet (.one (accept_room writer refused)) rfl rfl rfl, stored,
      ⟨rfl, rfl, head, free, fun written lt => absurd lt (Nat.not_lt_zero _)⟩,
      rfl, rfl, List.prefix_refl _⟩
  | @copy _ bytes offset more =>
    obtain ⟨writer, head, free, written⟩ := pcAt
    rw [slot, ← zeroPad_get]
    have extended := bytes_extend written (ring.writeByte_get _ offset _)
    exact ⟨queue, .quiet .nil rfl rfl rfl, stored.writeByte free offset _,
      ⟨rfl, writer, head, free, fun position lt => extended position (Nat.le_of_lt_succ lt)⟩,
      rfl, rfl, List.prefix_refl _⟩
  | @copied _ bytes offset last =>
    obtain ⟨writer, head, free, written⟩ := pcAt
    rw [slot, ← zeroPad_get]
    have extended := bytes_extend written (ring.writeByte_get _ offset _)
    exact ⟨queue, .quiet .nil rfl rfl rfl, stored.writeByte free offset _,
      ⟨rfl, writer, head, free, payload_ext fun position => extended position (by omega)⟩,
      rfl, rfl, List.prefix_refl _⟩
  | @storeSeq _ bytes =>
    -- the seq store is where the message enters the queue
    obtain ⟨writer, head, free, written⟩ := pcAt
    rw [slot, Cursor.ofNat_succ]
    have entered : queue.entered + 1 = queue.taken + (queue.items ++ [zeroPad bytes]).length := by
      simp [Queue.entered, Nat.add_assoc]
    have storedHead : ring.head + 1 = .ofNat (queue.entered + 1) := by
      rw [head, Cursor.ofNat_succ]
    exact ⟨{ queue with items := queue.items ++ [zeroPad bytes], writer := .stored },
      ⟨.one (accept_put writer free), fun history same =>
        RingEvent.unread_published queue history _ same, rfl⟩,
      stored.publish free written,
      ⟨congrArg UInt64.ofNat entered, rfl, storedHead.trans (congrArg UInt64.ofNat entered)⟩,
      rfl, rfl, List.prefix_append _ _⟩
  | storeHead =>
    obtain ⟨writer, _⟩ := pcAt
    exact ⟨{ queue with writer := .idle },
      .quiet (.one (accept_putReturn_true writer)) rfl rfl rfl,
      ⟨stored.tail, stored.room, stored.lap, stored.fresh, stored.payloads⟩,
      ⟨rfl, rfl, rfl⟩, rfl, rfl, List.prefix_refl _⟩

end Producer

section Consumer

variable {ring after : SpscRing} {queue : Queue Payload} {consumer moved : RingConsumer}
  {events : List RingEvent}

/-- What a step of the consumer leaves alone, as far as the producer can tell. -/
structure ConsumerFrame (ring after : SpscRing) (queue next : Queue Payload) : Prop where
  writer : next.writer = queue.writer
  entered : next.entered = queue.entered
  items : next.items.length ≤ queue.items.length
  head : after.head = ring.head
  slots : after.slots = ring.slots

theorem ProducerLinked.frame {next : Queue Payload} {producer : Option RingProducer}
    (linked : ProducerLinked ring queue producer) (frame : ConsumerFrame ring after queue next) :
    ProducerLinked after next producer := by
  obtain ⟨writer, entered, items, head, slots⟩ := frame
  cases producer with
  | none => exact ⟨writer.trans linked.1, by rw [head, entered]; exact linked.2⟩
  | some producer =>
    obtain ⟨nextSeq, pc⟩ := producer
    obtain ⟨same, pcAt⟩ := linked
    refine ⟨by rw [entered]; exact same, ?_⟩
    cases pc <;> simp only [PublishAt, writer, entered, head, slots] at pcAt ⊢
    case copy =>
      exact ⟨pcAt.1, pcAt.2.1, Nat.lt_of_le_of_lt items pcAt.2.2.1, pcAt.2.2.2⟩
    case storeSeq =>
      exact ⟨pcAt.1, pcAt.2.1, Nat.lt_of_le_of_lt items pcAt.2.2.1, pcAt.2.2.2⟩
    all_goals exact pcAt

theorem tryConsume_answer (ring : SpscRing) {out : Payload}
    (linked : ConsumerLinked queue (some consumer))
    (called : consumer.tryConsume out = some moved) :
    ∃ next, Answers queue [.consumeCall] next ∧ next.taken = queue.taken ∧
      next.items = queue.items ∧ ConsumerLinked next (some moved) ∧
      ConsumerFrame ring ring queue next := by
  simp only [RingConsumer.tryConsume, Option.ite_none_right_eq_some, Option.some.injEq] at called
  obtain ⟨idle, rfl⟩ := called
  obtain ⟨nextSeq, pc⟩ := linked
  simp only [idle, ConsumeAt] at pc
  exact ⟨{ queue with reader := .called }, .quiet (.one (accept_takeCall pc)) rfl rfl rfl, rfl, rfl,
    ⟨nextSeq, rfl⟩, rfl, rfl, Nat.le_refl _, rfl, rfl⟩

theorem set_get (out : Payload) (value : UInt8) (offset position : Fin slotPayload) :
    (out.set offset.val value offset.isLt).get position =
      if position = offset then value else out.get position := by
  have get (payload : Payload) : payload.get position = payload[position.val] := rfl
  simp only [get, Vector.getElem_set, Fin.val_inj, eq_comm]

theorem Stored.first_payload {taken : Nat} {items : List Payload} {first : Payload}
    (stored : Stored ring taken items) (is : items.head? = some first) :
    (ring.slots (slotAt taken)).payload = first := by
  obtain ⟨rest, rfl⟩ := List.head?_eq_some_iff.mp is
  exact stored.payloads 0 (Nat.succ_pos _)

theorem consumer_answer (stored : Stored ring queue.taken queue.items)
    (linked : ConsumerLinked queue (some consumer))
    (step : consumer.step ring = some (after, moved, events)) :
    ∃ next, Answers queue events next ∧ Stored after next.taken next.items ∧
      ConsumerLinked next (some moved) ∧ ConsumerFrame ring after queue next := by
  have slot := slotIndex_ofNat queue.taken
  have stepped := RingConsumer.step_inv step
  obtain ⟨nextSeq, pc⟩ := consumer
  obtain ⟨rfl, pcAt⟩ := linked
  cases stepped with
  | empty behind =>
    have reader : queue.reader = .called := pcAt
    rw [slot, ne_eq, stored.seq_eq_iff, Decidable.not_not] at behind
    exact ⟨{ queue with reader := .idle },
      .quiet (.cons (accept_empty reader behind) (.one (accept_takeReturn_none rfl))) rfl rfl rfl,
      stored, ⟨rfl, rfl⟩, rfl, rfl, Nat.le_refl _, rfl, rfl⟩
  | ready waiting =>
    have reader : queue.reader = .called := pcAt
    rw [slot, ne_eq, Decidable.not_not, stored.seq_eq_iff] at waiting
    obtain ⟨first, rest, items⟩ := List.exists_cons_of_ne_nil waiting
    exact ⟨{ queue with reader := .admitted },
      .quiet (.one (accept_nonempty reader waiting)) rfl rfl rfl, stored,
      ⟨rfl, rfl, first, by simp [items], fun copied lt => absurd lt (Nat.not_lt_zero _)⟩,
      rfl, rfl, Nat.le_refl _, rfl, rfl⟩
  | @copy _ offset out more =>
    obtain ⟨reader, first, is, written⟩ := pcAt
    have extended := bytes_extend written (set_get out (first.get offset) offset)
    rw [slot, stored.first_payload is]
    exact ⟨queue, .quiet .nil rfl rfl rfl, stored,
      ⟨rfl, reader, first, is, fun position lt => extended position (Nat.le_of_lt_succ lt)⟩,
      rfl, rfl, Nat.le_refl _, rfl, rfl⟩
  | @copied _ offset out last =>
    obtain ⟨reader, first, is, written⟩ := pcAt
    have extended := bytes_extend written (set_get out (first.get offset) offset)
    have whole : out.set offset first[offset] = first :=
      payload_ext fun position => extended position (by omega)
    rw [slot, stored.first_payload is]
    exact ⟨queue, .quiet .nil rfl rfl rfl, stored, ⟨rfl, reader, whole.symm ▸ is⟩,
      rfl, rfl, Nat.le_refl _, rfl, rfl⟩
  | storeTail =>
    -- the tail store is where it leaves the queue
    obtain ⟨reader, is⟩ := pcAt
    rw [Cursor.ofNat_succ]
    obtain ⟨rest, items⟩ := List.head?_eq_some_iff.mp is
    have room := stored.room
    rw [items] at stored
    refine ⟨{ queue with items := rest, taken := queue.taken + 1, reader := .idle }, ⟨?_,
      fun history same => RingEvent.unread_consumed queue history items room same, rfl⟩,
      stored.take, ⟨rfl, rfl⟩, rfl, ?_, by simp [items], rfl, rfl⟩
    · have taken : accept ringCapacity queue (.take _) = some _ := accept_take reader is
      rw [items, List.tail_cons] at taken
      exact .cons taken (.one (accept_takeReturn_some rfl))
    · simp only [Queue.entered, items, List.length_cons]
      omega

end Consumer

/-- A producer may go away anywhere but between its seq store and its head store. -/
def SafeCrash (state : RingState) (action : RingAction) : Prop :=
  action = .producerCrash → ∀ producer ∈ state.producer, producer.pc ≠ .storeHead

instance (state : RingState) (action : RingAction) : Decidable (SafeCrash state action) :=
  inferInstanceAs (Decidable (action = .producerCrash →
    ∀ producer, producer ∈ state.producer → producer.pc ≠ .storeHead))

theorem linked_start (memory : SpscRing) : Linked (spsc memory).start .empty where
  stored := .init memory
  producer := ⟨rfl, rfl, rfl⟩
  consumer := ⟨rfl, rfl⟩

section Ring

variable {memory : SpscRing} {state after : RingState} {queue : Queue Payload}
  {action : RingAction} {events history : List RingEvent}

theorem ring_answer (safe : SafeCrash state action)
    (step : ringStep state action = some (after, events)) (linked : Linked state queue) :
    ∃ next, Answers queue events next ∧ Linked after next := by
  obtain ⟨stored, producerLinked, consumerLinked⟩ := linked
  cases ringStep_inv step with
  | tryPublish called =>
    obtain ⟨next, answers, items, linked, frame⟩ := tryPublish_answer producerLinked called
    exact ⟨next, answers, by rw [frame.taken, items]; exact stored, linked,
      consumerLinked.frame frame⟩
  | producerStep taken =>
    obtain ⟨next, answers, stored, linked, frame⟩ := producer_answer stored producerLinked taken
    exact ⟨next, answers, stored, linked, consumerLinked.frame frame⟩
  | @producerCrash ring producer reader =>
    -- nothing is lost, for outside the window the stored head counts every seq store
    have head : ring.head = .ofNat queue.entered := by
      obtain ⟨nextSeq, pc⟩ := producer
      have elsewhere := safe rfl _ rfl
      obtain ⟨rfl, pcAt⟩ := producerLinked
      cases pc with
      | idle | loadTail => exact pcAt.2
      | copy | storeSeq => exact pcAt.2.1
      | storeHead => exact absurd rfl elsewhere
    exact ⟨{ queue with writer := .idle }, .quiet (.one rfl) rfl rfl rfl, stored, ⟨rfl, head⟩,
      consumerLinked.frame ⟨rfl, rfl, List.prefix_refl _⟩⟩
  | producerNew =>
    exact ⟨queue, .quiet .nil rfl rfl rfl, stored, ⟨producerLinked.2, producerLinked⟩,
      consumerLinked⟩
  | tryConsume called =>
    obtain ⟨next, answers, taken, items, linked, frame⟩ :=
      tryConsume_answer _ consumerLinked called
    exact ⟨next, answers, by rw [taken, items]; exact stored, producerLinked.frame frame, linked⟩
  | consumerStep taken =>
    obtain ⟨next, answers, stored, linked, frame⟩ := consumer_answer stored consumerLinked taken
    exact ⟨next, answers, stored, producerLinked.frame frame, linked⟩
  | consumerCrash =>
    exact ⟨{ queue with reader := .idle }, .quiet (.one rfl) rfl rfl rfl, stored,
      producerLinked.frame ⟨rfl, rfl, Nat.le_refl _, rfl, rfl⟩, rfl⟩
  | consumerNew =>
    exact ⟨queue, .quiet .nil rfl rfl rfl, stored, producerLinked, stored.tail, consumerLinked⟩

/-- The ring refines the queue object: every history is accepted, whatever crashes and
restarts happen outside the producer's two last stores. -/
theorem ring_refines (reach : (spsc memory).Reach SafeCrash state history) :
    ∃ queue, (object Payload ringCapacity).Reachable queue
        (history.flatMap RingEvent.asQueue) ∧ Linked state queue ∧
      RingEvent.unread history = unreadSeqs queue ∧
      RingEvent.returnedPayloads history = RingEvent.consumedPayloads history := by
  induction reach with
  | start => exact ⟨.empty, .start, linked_start memory, rfl, rfl⟩
  | next _ safe step ih =>
    obtain ⟨queue, seen, linked, unread, returned⟩ := ih
    obtain ⟨next, answers, linked⟩ := ring_answer safe step linked
    have more := answers.returned
    rw [List.flatMap_append]
    refine ⟨next, seen.extend (System.allowedAlong_true _ _ _) answers.accepted, linked,
      answers.unread _ unread, ?_⟩
    simp only [RingEvent.returnedPayloads, RingEvent.consumedPayloads,
      List.filterMap_append] at returned more ⊢
    rw [returned, more]

end Ring

section View

variable (history : List RingEvent)

theorem puts_asQueue :
    puts (history.flatMap RingEvent.asQueue) = RingEvent.publishedPayloads history := by
  induction history with
  | nil => rfl
  | cons event rest ih =>
    simp only [puts, RingEvent.publishedPayloads] at ih ⊢
    cases event <;> simp [RingEvent.asQueue, ih]

theorem takes_asQueue :
    takes (history.flatMap RingEvent.asQueue) = RingEvent.consumedPayloads history := by
  induction history with
  | nil => rfl
  | cons event rest ih =>
    simp only [takes, RingEvent.consumedPayloads] at ih ⊢
    cases event <;> simp [RingEvent.asQueue, ih]

end View

theorem returned_begins {memory : SpscRing} {state : RingState} {history : List RingEvent}
    (reach : (spsc memory).Reach SafeCrash state history) :
    RingEvent.returnedPayloads history <+: RingEvent.publishedPayloads history := by
  obtain ⟨queue, accepted, _, _, returned⟩ := ring_refines reach
  have published := (puts_eq accepted).1
  rw [puts_asQueue, takes_asQueue, ← returned] at published
  exact ⟨queue.items, published.symm⟩

end TradingPipeline.Shmbus
