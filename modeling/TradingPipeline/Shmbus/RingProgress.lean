import TradingPipeline.Shmbus.RingInvariant

/-! Every call on the ring ends by itself, and a call that runs alone does what a queue does. -/

set_option autoImplicit false

namespace TradingPipeline.Shmbus

open Foundation

/-- Steps that `try_publish` takes at most until it returns. -/
def PublishPc.stepsLeft : PublishPc → Nat
  | .idle => 0
  | .loadTail _ => slotPayload + 3
  | .copy _ offset => slotPayload - offset + 2
  | .storeSeq _ => 2
  | .storeHead => 1

/-- Steps that `try_consume` takes at most until it returns. -/
def ConsumePc.stepsLeft : ConsumePc → Nat
  | .idle => 0
  | .loadSeq _ => slotPayload + 2
  | .copy offset _ => slotPayload - offset + 1
  | .storeTail _ => 1

/-- A call of `try_publish` is under way. -/
def RingState.Publishing (state : RingState) : Prop :=
  ∃ producer, state.producer = some producer ∧ producer.pc ≠ .idle

/-- A call of `try_consume` is under way. -/
def RingState.Consuming (state : RingState) : Prop :=
  ∃ consumer, state.consumer = some consumer ∧ consumer.pc ≠ .idle

def RingState.publishLeft (state : RingState) : Nat :=
  (state.producer.map fun producer => producer.pc.stepsLeft).getD 0

def RingState.consumeLeft (state : RingState) : Nat :=
  (state.consumer.map fun consumer => consumer.pc.stepsLeft).getD 0

section Sides

variable {ring memory : SpscRing} {producer moved : RingProducer} {consumer next : RingConsumer}
  {events : List RingEvent}

theorem ProducerStepped.progress (stepped : ProducerStepped ring producer memory moved events) :
    (∃ accepted, .publishReturn accepted ∈ events) ∨
      moved.pc ≠ .idle ∧ moved.pc.stepsLeft + 1 ≤ producer.pc.stepsLeft := by
  cases stepped with
  | full => exact .inl ⟨false, by simp⟩
  | storeHead => exact .inl ⟨true, by simp⟩
  | room | storeSeq => exact .inr ⟨nofun, by simp [PublishPc.stepsLeft]⟩
  | @copy _ _ offset more => exact .inr ⟨nofun, by simp only [PublishPc.stepsLeft]; omega⟩
  | @copied _ _ offset last => exact .inr ⟨nofun, by simp only [PublishPc.stepsLeft]; omega⟩

theorem ConsumerStepped.progress (stepped : ConsumerStepped ring consumer memory next events) :
    (∃ result, .consumeReturn result ∈ events) ∨
      next.pc ≠ .idle ∧ next.pc.stepsLeft + 1 ≤ consumer.pc.stepsLeft := by
  cases stepped with
  | empty => exact .inl ⟨none, by simp⟩
  | storeTail => exact .inl ⟨_, List.mem_cons_of_mem _ List.mem_cons_self⟩
  | ready => exact .inr ⟨nofun, by simp [ConsumePc.stepsLeft]⟩
  | @copy _ offset _ more => exact .inr ⟨nofun, by simp only [ConsumePc.stepsLeft]; omega⟩
  | @copied _ offset _ last => exact .inr ⟨nofun, by simp only [ConsumePc.stepsLeft]; omega⟩

theorem RingProducer.step_isSome (called : producer.pc ≠ .idle) :
    (producer.step ring).isSome = true := by
  obtain ⟨nextSeq, pc⟩ := producer
  cases pc with
  | idle => exact absurd rfl called
  | loadTail => simp only [RingProducer.step]; split <;> rfl
  | copy | storeSeq | storeHead => rfl

theorem RingConsumer.step_isSome (called : consumer.pc ≠ .idle) :
    (consumer.step ring).isSome = true := by
  obtain ⟨nextSeq, pc⟩ := consumer
  cases pc with
  | idle => exact absurd rfl called
  | loadSeq => simp only [RingConsumer.step]; split <;> rfl
  | copy => simp only [RingConsumer.step]; split <;> rfl
  | storeTail => rfl

theorem PublishPc.stepsLeft_le (pc : PublishPc) : pc.stepsLeft ≤ slotPayload + 3 := by
  cases pc <;> simp only [PublishPc.stepsLeft] <;> omega

theorem ConsumePc.stepsLeft_le (pc : ConsumePc) : pc.stepsLeft ≤ slotPayload + 2 := by
  cases pc <;> simp only [ConsumePc.stepsLeft] <;> omega

theorem PublishPc.stepsLeft_pos {pc : PublishPc} (called : pc ≠ .idle) : 0 < pc.stepsLeft := by
  cases pc with
  | idle => exact absurd rfl called
  | loadTail | copy | storeSeq | storeHead => simp [PublishPc.stepsLeft]

theorem ConsumePc.stepsLeft_pos {pc : ConsumePc} (called : pc ≠ .idle) : 0 < pc.stepsLeft := by
  cases pc with
  | idle => exact absurd rfl called
  | loadSeq | copy | storeTail => simp [ConsumePc.stepsLeft]

end Sides

section Progress

variable {state after final : RingState} {action : RingAction} {events history : List RingEvent}

/-- Only the producer's own steps take its call further. -/
theorem publishing_progress (publishing : state.Publishing) (lives : action ≠ .producerCrash)
    (step : ringStep state action = some (after, events)) :
    (∃ event ∈ events, ∃ accepted, event = .publishReturn accepted) ∨ after.Publishing ∧
      after.publishLeft + (if action = .producerStep then 1 else 0) ≤ state.publishLeft := by
  obtain ⟨producer, attached, called⟩ := publishing
  cases ringStep_inv step with
  | tryPublish call =>
    cases attached
    simp [RingProducer.tryPublish, called] at call
  | producerStep taken =>
    cases attached
    rcases (RingProducer.step_inv taken).progress with ⟨accepted, returns⟩ | ⟨goes, lower⟩
    · exact .inl ⟨_, returns, accepted, rfl⟩
    · exact .inr ⟨⟨_, rfl, goes⟩, lower⟩
  | producerCrash => exact absurd rfl lives
  | producerNew => cases attached
  | tryConsume | consumerStep | consumerCrash | consumerNew =>
    exact .inr ⟨⟨producer, attached, called⟩, by simp [RingState.publishLeft]⟩

theorem consuming_progress (consuming : state.Consuming) (lives : action ≠ .consumerCrash)
    (step : ringStep state action = some (after, events)) :
    (∃ event ∈ events, ∃ result, event = .consumeReturn result) ∨ after.Consuming ∧
      after.consumeLeft + (if action = .consumerStep then 1 else 0) ≤ state.consumeLeft := by
  obtain ⟨consumer, attached, called⟩ := consuming
  cases ringStep_inv step with
  | tryConsume call =>
    cases attached
    simp [RingConsumer.tryConsume, called] at call
  | consumerStep taken =>
    cases attached
    rcases (RingConsumer.step_inv taken).progress with ⟨result, returns⟩ | ⟨goes, lower⟩
    · exact .inl ⟨_, returns, result, rfl⟩
    · exact .inr ⟨⟨_, rfl, goes⟩, lower⟩
  | consumerCrash => exact absurd rfl lives
  | consumerNew => cases attached
  | tryPublish | producerStep | producerCrash | producerNew =>
    exact .inr ⟨⟨consumer, attached, called⟩, by simp [RingState.consumeLeft]⟩

theorem publishing_step (publishing : state.Publishing) :
    0 < state.publishLeft ∧ (ringStep state .producerStep).isSome = true := by
  obtain ⟨producer, attached, called⟩ := publishing
  constructor
  · rw [RingState.publishLeft, attached]
    exact PublishPc.stepsLeft_pos called
  · simp only [ringStep, attached, Option.isSome_map]
    exact RingProducer.step_isSome called

theorem consuming_step (consuming : state.Consuming) :
    0 < state.consumeLeft ∧ (ringStep state .consumerStep).isSome = true := by
  obtain ⟨consumer, attached, called⟩ := consuming
  constructor
  · rw [RingState.consumeLeft, attached]
    exact ConsumePc.stepsLeft_pos called
  · simp only [ringStep, attached, Option.isSome_map]
    exact RingConsumer.step_isSome called

theorem publishLeft_le (state : RingState) : state.publishLeft ≤ slotPayload + 3 := by
  rw [RingState.publishLeft]
  cases state.producer with
  | none => exact Nat.zero_le _
  | some producer => exact producer.pc.stepsLeft_le

theorem consumeLeft_le (state : RingState) : state.consumeLeft ≤ slotPayload + 2 := by
  rw [RingState.consumeLeft]
  cases state.consumer with
  | none => exact Nat.zero_le _
  | some consumer => exact consumer.pc.stepsLeft_le

variable {memory : SpscRing} {schedule : List RingAction}

/-- Wait-freedom. On any memory and whatever the other side does meanwhile, its crashes and
restarts included: a call of `try_publish` has returned after 83 steps of its own and one of
`try_consume` after 82, and until then its next step can be taken. -/
theorem calls_wait_free (run : (spsc memory).runFrom state schedule = some (final, history)) :
    (state.Publishing → .producerCrash ∉ schedule →
      (∃ accepted, .publishReturn accepted ∈ history) ∨
        schedule.count .producerStep < slotPayload + 3 ∧
          (ringStep final .producerStep).isSome = true) ∧
    (state.Consuming → .consumerCrash ∉ schedule →
      (∃ result, .consumeReturn result ∈ history) ∨
        schedule.count .consumerStep < slotPayload + 2 ∧
          (ringStep final .consumerStep).isSome = true) := by
  constructor
  · intro publishing lives
    have stays : ∀ action ∈ schedule, action ≠ .producerCrash :=
      fun action member same => lives (same ▸ member)
    rcases System.ends_of_run RingState.Publishing RingState.publishLeft
        (fun event => ∃ accepted, event = .publishReturn accepted) (· == .producerStep)
        (· ≠ .producerCrash) (fun going stays step => by
          simpa using publishing_progress going stays step) publishing stays run with
      ⟨_, returns, accepted, rfl⟩ | ⟨goes, bound⟩
    · exact .inl ⟨accepted, returns⟩
    · obtain ⟨left, next⟩ := publishing_step goes
      have most := publishLeft_le state
      exact .inr ⟨by rw [List.count]; omega, next⟩
  · intro consuming lives
    have stays : ∀ action ∈ schedule, action ≠ .consumerCrash :=
      fun action member same => lives (same ▸ member)
    rcases System.ends_of_run RingState.Consuming RingState.consumeLeft
        (fun event => ∃ result, event = .consumeReturn result) (· == .consumerStep)
        (· ≠ .consumerCrash) (fun going stays step => by
          simpa using consuming_progress going stays step) consuming stays run with
      ⟨_, returns, result, rfl⟩ | ⟨goes, bound⟩
    · exact .inl ⟨result, returns⟩
    · obtain ⟨left, next⟩ := consuming_step goes
      have most := consumeLeft_le state
      exact .inr ⟨by rw [List.count]; omega, next⟩

/-- The consumer goes away while the call is under way. -/
theorem calls_wait_free_publish : ∃ final history,
    (spsc .zeroed).runFrom ⟨.zeroed, some ⟨0, .loadTail [7]⟩, some ⟨0, .idle⟩⟩
      (.consumerCrash :: List.replicate (slotPayload + 3) .producerStep) = some (final, history) ∧
    ∃ accepted, .publishReturn accepted ∈ history := by
  obtain ⟨⟨final, history⟩, run⟩ := Option.isSome_iff_exists.mp (show
    ((spsc .zeroed).runFrom ⟨.zeroed, some ⟨0, .loadTail [7]⟩, some ⟨0, .idle⟩⟩
      (.consumerCrash :: List.replicate (slotPayload + 3) .producerStep)).isSome = true
    by decide +kernel)
  refine ⟨final, history, run, ?_⟩
  rcases (calls_wait_free run).1 ⟨_, rfl, nofun⟩ (by decide) with returns | ⟨few, -⟩
  · exact returns
  · exact absurd few (by decide)

end Progress

section Alone

variable {memory ring : SpscRing} {writer : Option RingProducer} {reader : Option RingConsumer}
  {head next : UInt64} {bytes : List UInt8} {out : Payload}

variable (memory ring reader head bytes) in
theorem copyIn_run (offset : Fin slotPayload) : ∃ written : SpscRing,
    (spsc memory).runFrom ⟨ring, some ⟨head, .copy bytes offset⟩, reader⟩
      (List.replicate (slotPayload - offset) .producerStep) =
        some (⟨written, some ⟨head, .storeSeq bytes⟩, reader⟩, []) := by
  induction left : slotPayload - offset.val generalizing ring offset with
  | zero => omega
  | succ remaining ih =>
    rw [List.replicate_succ]
    by_cases more : offset.val + 1 < slotPayload
    · have first : (spsc memory).step ⟨ring, some ⟨head, .copy bytes offset⟩, reader⟩ .producerStep =
          some (⟨ring.writeByte (slotIndex head) offset (bytes.getD offset 0),
            some ⟨head, .copy bytes ⟨offset + 1, more⟩⟩, reader⟩, []) := by
        simp only [spsc, ringStep, RingProducer.step, dif_pos more, Option.map_some]
      obtain ⟨written, tail⟩ := ih _ ⟨offset + 1, more⟩ (by simp only; omega)
      have run := System.runFrom_cons first tail
      exact ⟨written, run⟩
    · have last : (spsc memory).step ⟨ring, some ⟨head, .copy bytes offset⟩, reader⟩ .producerStep =
          some (⟨ring.writeByte (slotIndex head) offset (bytes.getD offset 0),
            some ⟨head, .storeSeq bytes⟩, reader⟩, []) := by
        simp only [spsc, ringStep, RingProducer.step, dif_neg more, Option.map_some]
      obtain rfl : remaining = 0 := by omega
      exact ⟨_, System.runFrom_one last⟩

variable (memory ring writer next out) in
theorem copyOut_run (offset : Fin slotPayload) : ∃ whole,
    (spsc memory).runFrom ⟨ring, writer, some ⟨next, .copy offset out⟩⟩
      (List.replicate (slotPayload - offset) .consumerStep) =
        some (⟨ring, writer, some ⟨next, .storeTail whole⟩⟩, [.copied whole]) := by
  induction left : slotPayload - offset.val generalizing offset out with
  | zero => omega
  | succ remaining ih =>
    rw [List.replicate_succ]
    by_cases more : offset.val + 1 < slotPayload
    · have first : (spsc memory).step ⟨ring, writer, some ⟨next, .copy offset out⟩⟩ .consumerStep =
          some (⟨ring, writer, some ⟨next, .copy ⟨offset + 1, more⟩
            (out.set offset (ring.slots (slotIndex next)).payload[offset])⟩⟩, []) := by
        simp only [spsc, ringStep, RingConsumer.step, dif_pos more, Option.map_some]
      obtain ⟨whole, tail⟩ := ih _ ⟨offset + 1, more⟩ (by simp only; omega)
      have run := System.runFrom_cons first tail
      exact ⟨whole, run⟩
    · have last : (spsc memory).step ⟨ring, writer, some ⟨next, .copy offset out⟩⟩ .consumerStep =
          some (⟨ring, writer, some ⟨next, .storeTail
            (out.set offset (ring.slots (slotIndex next)).payload[offset])⟩⟩,
            [.copied (out.set offset (ring.slots (slotIndex next)).payload[offset])]) := by
        simp only [spsc, ringStep, RingConsumer.step, dif_neg more, Option.map_some]
      obtain rfl : remaining = 0 := by omega
      exact ⟨_, System.runFrom_one last⟩

/-- Payloads that were published and that no call has returned yet. -/
def RingEvent.unreadPayloads (history : List RingEvent) : List Payload :=
  (RingEvent.publishedPayloads history).drop (RingEvent.returnedPayloads history).length

open RingEvent

variable (memory writer out) in
theorem consume_run (ready : (ring.slots (slotIndex next)).seq = next + 1) : ∃ whole,
    (spsc memory).runFrom ⟨ring, writer, some ⟨next, .idle⟩⟩ (consumeCall out) =
      some (⟨{ ring with tail := next + 1 }, writer, some ⟨next + 1, .idle⟩⟩,
        [.consumeCall, .emptyTest false, .copied whole, .consumed next whole,
          .consumeReturn (some whole)]) := by
  have call : (spsc memory).step ⟨ring, writer, some ⟨next, .idle⟩⟩ (.tryConsume out) =
      some (⟨ring, writer, some ⟨next, .loadSeq out⟩⟩, [.consumeCall]) := rfl
  have test : (spsc memory).step ⟨ring, writer, some ⟨next, .loadSeq out⟩⟩ .consumerStep =
      some (⟨ring, writer, some ⟨next, .copy 0 out⟩⟩, [.emptyTest false]) := by
    simp only [spsc, ringStep, RingConsumer.step, ready, ne_eq, not_true, if_false, Option.map_some]
  obtain ⟨whole, copy⟩ := copyOut_run memory ring writer next out 0
  have store : (spsc memory).step ⟨ring, writer, some ⟨next, .storeTail whole⟩⟩ .consumerStep =
      some (⟨{ ring with tail := next + 1 }, writer, some ⟨next + 1, .idle⟩⟩,
        [.consumed next whole, .consumeReturn (some whole)]) := rfl
  have run := System.runFrom_append copy (System.runFrom_one store)
  exact ⟨whole, System.runFrom_cons call (System.runFrom_cons test run)⟩

theorem consume_empty (behind : (ring.slots (slotIndex next)).seq ≠ next + 1) :
    (spsc memory).runFrom ⟨ring, writer, some ⟨next, .idle⟩⟩ [.tryConsume out, .consumerStep] =
      some (⟨ring, writer, some ⟨next, .idle⟩⟩,
        [.consumeCall, .emptyTest true, .consumeReturn none]) := by
  have call : (spsc memory).step ⟨ring, writer, some ⟨next, .idle⟩⟩ (.tryConsume out) =
      some (⟨ring, writer, some ⟨next, .loadSeq out⟩⟩, [.consumeCall]) := rfl
  have test : (spsc memory).step ⟨ring, writer, some ⟨next, .loadSeq out⟩⟩ .consumerStep =
      some (⟨ring, writer, some ⟨next, .idle⟩⟩, [.emptyTest true, .consumeReturn none]) := by
    simp only [spsc, ringStep, RingConsumer.step, behind, ne_eq, not_false_eq_true, if_true,
      Option.map_some]
  exact System.runFrom_cons call (System.runFrom_one test)

variable (memory reader) in
theorem publish_run (fits : bytes.length ≤ slotPayload)
    (room : ¬ head - ring.tail ≥ UInt64.ofNat ringCapacity) : ∃ written : SpscRing,
    (spsc memory).runFrom ⟨ring, some ⟨head, .idle⟩, reader⟩ (publishCall bytes) =
      some (⟨written, some ⟨head + 1, .idle⟩, reader⟩,
        [.publishCall (zeroPad bytes), .fullTest false, .published head (zeroPad bytes),
          .publishReturn true]) := by
  have call : (spsc memory).step ⟨ring, some ⟨head, .idle⟩, reader⟩ (.tryPublish bytes) =
      some (⟨ring, some ⟨head, .loadTail bytes⟩, reader⟩, [.publishCall (zeroPad bytes)]) := by
    simp only [spsc, ringStep, RingProducer.tryPublish, fits, and_self, if_true, Option.map_some]
  have test : (spsc memory).step ⟨ring, some ⟨head, .loadTail bytes⟩, reader⟩ .producerStep =
      some (⟨ring, some ⟨head, .copy bytes 0⟩, reader⟩, [.fullTest false]) := by
    simp only [spsc, ringStep, RingProducer.step, if_neg room, Option.map_some]
  obtain ⟨written, copy⟩ := copyIn_run memory ring reader head bytes 0
  have storeSeq : (spsc memory).step ⟨written, some ⟨head, .storeSeq bytes⟩, reader⟩ .producerStep =
      some (⟨written.storeSeq (slotIndex head) (head + 1), some ⟨head + 1, .storeHead⟩, reader⟩,
        [.published head (zeroPad bytes)]) := rfl
  have storeHead : (spsc memory).step ⟨written.storeSeq (slotIndex head) (head + 1),
      some ⟨head + 1, .storeHead⟩, reader⟩ .producerStep =
      some (⟨{ written.storeSeq (slotIndex head) (head + 1) with head := head + 1 },
        some ⟨head + 1, .idle⟩, reader⟩, [.publishReturn true]) := rfl
  have run := System.runFrom_append copy
    (System.runFrom_cons storeSeq (System.runFrom_one storeHead))
  exact ⟨_, System.runFrom_cons call (System.runFrom_cons test run)⟩

theorem publish_full (fits : bytes.length ≤ slotPayload)
    (full : head - ring.tail ≥ UInt64.ofNat ringCapacity) :
    (spsc memory).runFrom ⟨ring, some ⟨head, .idle⟩, reader⟩ [.tryPublish bytes, .producerStep] =
      some (⟨ring, some ⟨head, .idle⟩, reader⟩,
        [.publishCall (zeroPad bytes), .fullTest true, .publishReturn false]) := by
  have call : (spsc memory).step ⟨ring, some ⟨head, .idle⟩, reader⟩ (.tryPublish bytes) =
      some (⟨ring, some ⟨head, .loadTail bytes⟩, reader⟩, [.publishCall (zeroPad bytes)]) := by
    simp only [spsc, ringStep, RingProducer.tryPublish, fits, and_self, if_true, Option.map_some]
  have test : (spsc memory).step ⟨ring, some ⟨head, .loadTail bytes⟩, reader⟩ .producerStep =
      some (⟨ring, some ⟨head, .idle⟩, reader⟩, [.fullTest true, .publishReturn false]) := by
    simp only [spsc, ringStep, RingProducer.step, if_pos full, Option.map_some]
  exact System.runFrom_cons call (System.runFrom_one test)

end Alone

section Sequential

open RingEvent

variable {memory : SpscRing} {state final : RingState} {history events : List RingEvent}

theorem linked_of_reach (reach : (spsc memory).Reach SafeCrash state history) :
    ∃ queue : BoundedFifo.Queue Payload, Linked state queue ∧
      queue.items = unreadPayloads history := by
  obtain ⟨queue, accepted, linked, -, returned⟩ := ring_refines reach
  have published := (BoundedFifo.puts_eq accepted).1
  rw [puts_asQueue, takes_asQueue, ← returned] at published
  refine ⟨queue, linked, ?_⟩
  rw [unreadPayloads, published, List.drop_left]

theorem alone_safe {schedule : List RingAction} (lives : .producerCrash ∉ schedule)
    (state : RingState) : (spsc memory).AllowedAlong SafeCrash state schedule := by
  refine System.allowedAlong_of_forall (fun action member state crash => ?_) state
  rw [crash] at member
  exact absurd member lives

theorem consume_next (reach : (spsc memory).Reach SafeCrash state history) {next : UInt64}
    (attached : state.consumer = some ⟨next, .idle⟩) {first : Payload} {rest : List Payload}
    (waits : unreadPayloads history = first :: rest) (out : Payload) :
    ∃ final events, (spsc memory).runFrom state (consumeCall out) = some (final, events) ∧
      returnedPayloads events = [first] ∧ publishedPayloads events = [] ∧
      final.consumer = some ⟨next + 1, .idle⟩ ∧
      (spsc memory).Reach SafeCrash final (history ++ events) ∧
      unreadPayloads (history ++ events) = rest := by
  obtain ⟨ring, writer, reader⟩ := state
  obtain rfl : reader = some ⟨next, .idle⟩ := attached
  obtain ⟨queue, linked, items⟩ := linked_of_reach reach
  obtain ⟨same, -⟩ := linked.consumer
  have ready : (ring.slots (slotIndex next)).seq = next + 1 := by
    rw [show next = .ofNat queue.taken from same, slotIndex_ofNat]
    exact linked.stored.seq_eq_iff.mpr (by rw [items, waits]; nofun)
  obtain ⟨whole, run⟩ := consume_run memory writer out ready
  have after := reach.extend (alone_safe (by simp [consumeCall]) _) run
  have returned : returnedPayloads [.consumeCall, .emptyTest false, .copied whole,
    .consumed next whole, .consumeReturn (some whole)] = [whole] := rfl
  have published : publishedPayloads [.consumeCall, .emptyTest false, .copied whole,
    .consumed next whole, .consumeReturn (some whole)] = [] := rfl
  have before := List.prefix_iff_eq_append.mp (returned_begins reach)
  rw [show (publishedPayloads history).drop (returnedPayloads history).length = first :: rest
    from waits] at before
  -- what was returned is what was published first
  have begins := returned_begins after
  rw [returnedPayloads_append, publishedPayloads_append, returned, published, List.append_nil,
    ← before, List.prefix_append_right_inj, List.cons_prefix_cons] at begins
  obtain ⟨rfl, -⟩ := begins
  refine ⟨_, _, run, returned, published, rfl, after, ?_⟩
  rw [unreadPayloads, returnedPayloads_append, publishedPayloads_append, returned, published,
    List.append_nil, ← before, List.length_append, List.drop_append]
  simp

/-- The ring as the caller of either side sees it while the other side does not move. -/
structure SequentialQueue (memory : SpscRing) (state : RingState) (history : List RingEvent) :
    Prop where
  /-- The consumer gets every unread payload, in order, and then nothing. -/
  drains : ∀ next out, state.consumer = some ⟨next, .idle⟩ → ∃ final events,
    (spsc memory).runFrom state ((unreadPayloads history).flatMap (fun _ => consumeCall out) ++
      [.tryConsume out, .consumerStep]) = some (final, events) ∧
      returnedPayloads events = unreadPayloads history ∧ .consumeReturn none ∈ events
  /-- The producer is refused when 16384 payloads are unread, and leaves everything as it was. -/
  refuses : ∀ head bytes, state.producer = some ⟨head, .idle⟩ → bytes.length ≤ slotPayload →
    (unreadPayloads history).length = ringCapacity →
    (spsc memory).runFrom state [.tryPublish bytes, .producerStep] =
      some (state, [.publishCall (zeroPad bytes), .fullTest true, .publishReturn false])
  /-- Otherwise its payload is the last of the unread ones. -/
  accepts : ∀ head bytes, state.producer = some ⟨head, .idle⟩ → bytes.length ≤ slotPayload →
    (unreadPayloads history).length ≠ ringCapacity → ∃ final events,
    (spsc memory).runFrom state (publishCall bytes) = some (final, events) ∧
      .publishReturn true ∈ events ∧
      unreadPayloads (history ++ events) = unreadPayloads history ++ [zeroPad bytes]

theorem drains_of_reach (reach : (spsc memory).Reach SafeCrash state history) {next : UInt64}
    (attached : state.consumer = some ⟨next, .idle⟩) (out : Payload) : ∃ final events,
    (spsc memory).runFrom state ((unreadPayloads history).flatMap (fun _ => consumeCall out) ++
      [.tryConsume out, .consumerStep]) = some (final, events) ∧
      returnedPayloads events = unreadPayloads history ∧ .consumeReturn none ∈ events := by
  induction waits : unreadPayloads history generalizing state history next with
  | nil =>
    obtain ⟨ring, writer, reader⟩ := state
    obtain rfl : reader = some ⟨next, .idle⟩ := attached
    obtain ⟨queue, linked, items⟩ := linked_of_reach reach
    obtain ⟨same, -⟩ := linked.consumer
    have behind : (ring.slots (slotIndex next)).seq ≠ next + 1 := by
      rw [show next = .ofNat queue.taken from same, slotIndex_ofNat, ne_eq, linked.stored.seq_eq_iff,
        items, waits]
      exact fun nonempty => nonempty rfl
    exact ⟨_, _, consume_empty behind, rfl, by simp⟩
  | cons first rest ih =>
    obtain ⟨middle, taken, run, returned, -, idle, after, left⟩ :=
      consume_next reach attached waits out
    obtain ⟨final, later, tail, others, nothing⟩ := ih after idle left
    refine ⟨final, taken ++ later, ?_, ?_, List.mem_append_right _ nothing⟩
    · rw [List.flatMap_cons, List.append_assoc]
      exact System.runFrom_append run tail
    · rw [returnedPayloads_append, returned, others]
      rfl

/-- Whatever the two sides, crashes and restarts have done to the ring before: no payload is stuck
in it, and no room is lost. -/
theorem ring_sequential (reach : (spsc memory).Reach SafeCrash state history) :
    SequentialQueue memory state history := by
  obtain ⟨queue, linked, items⟩ := linked_of_reach reach
  constructor
  case drains => exact fun next out attached => drains_of_reach reach attached out
  case refuses =>
    intro head bytes attached fits full
    obtain ⟨ring, writer, reader⟩ := state
    obtain rfl : writer = some ⟨head, .idle⟩ := attached
    obtain ⟨same, -⟩ := linked.producer
    refine publish_full fits ?_
    rw [show head = .ofNat queue.entered from same]
    exact linked.stored.full_iff.mpr (items ▸ full)
  case accepts =>
    intro head bytes attached fits room
    obtain ⟨ring, writer, reader⟩ := state
    obtain rfl : writer = some ⟨head, .idle⟩ := attached
    obtain ⟨same, -⟩ := linked.producer
    have admitted : ¬ head - ring.tail ≥ UInt64.ofNat ringCapacity := by
      rw [show head = .ofNat queue.entered from same]
      exact fun full => room (items ▸ linked.stored.full_iff.mp full)
    obtain ⟨written, run⟩ := publish_run memory reader fits admitted
    refine ⟨_, _, run, by simp, ?_⟩
    have within := (returned_begins reach).length_le
    have returned : returnedPayloads [.publishCall (zeroPad bytes), .fullTest false,
      .published head (zeroPad bytes), .publishReturn true] = [] := rfl
    have published : publishedPayloads [.publishCall (zeroPad bytes), .fullTest false,
      .published head (zeroPad bytes), .publishReturn true] = [zeroPad bytes] := rfl
    rw [unreadPayloads, returnedPayloads_append, publishedPayloads_append, returned, published,
      List.append_nil, List.drop_append_of_le_length within, unreadPayloads]

/-- The consumer has gone away in a call, and a new one is there. -/
theorem ring_sequential_restart : ∃ state history, unreadPayloads history = [zeroPad [7]] ∧
    SequentialQueue .zeroed state history := by
  obtain ⟨state, history, reach, unread⟩ := System.exists_reach_of_run (spsc .zeroed) SafeCrash
    (publishCall [7] ++ [.tryConsume (zeroPad []), .consumerStep, .consumerStep, .consumerCrash,
      .consumerNew])
    (fun final => unreadPayloads final.2 = [zeroPad [7]]) (by decide +kernel) (by decide +kernel)
  exact ⟨state, history, of_decide_eq_true unread, ring_sequential reach⟩

end Sequential

end TradingPipeline.Shmbus
