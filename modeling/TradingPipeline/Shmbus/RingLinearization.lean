import TradingPipeline.Shmbus.RingInvariant

/-! One producer and one consumer: the ring is a linearizable bounded FIFO queue. -/

set_option autoImplicit false

namespace TradingPipeline.Shmbus

open Foundation Foundation.BoundedFifo

/-- Neither process goes away. -/
def NoCrash (_ : RingState) (action : RingAction) : Prop :=
  action ≠ .producerCrash ∧ action ≠ .consumerCrash

instance (state : RingState) (action : RingAction) : Decidable (NoCrash state action) :=
  inferInstanceAs (Decidable (action ≠ .producerCrash ∧ action ≠ .consumerCrash))

theorem NoCrash.safe {state : RingState} {action : RingAction} (stays : NoCrash state action) :
    SafeCrash state action :=
  fun crash => absurd crash stays.1

/-- A history of the ring, explained by the queue that its operations act on at the
instants of their seq store, tail store and refusing loads. -/
structure Linearized (state : RingState) (history : List RingEvent) (queue : Queue Payload) :
    Prop where
  accepted : (object Payload ringCapacity).Reachable queue (history.flatMap RingEvent.asQueue)
  /-- What was published is what was returned, in order, then what the queue holds. -/
  returned : RingEvent.publishedPayloads history =
    RingEvent.returnedPayloads history ++ queue.items
  /-- The tail load refuses exactly when the queue is full. -/
  refuses : ∀ producer bytes after events, state.producer = some producer →
    producer.pc = .loadTail bytes → ringStep state .producerStep = some (after, events) →
    (.publishReturn false ∈ events ↔ queue.items.length = ringCapacity)
  /-- The seq load reports an empty ring exactly when the queue is empty. -/
  empties : ∀ consumer out after events, state.consumer = some consumer →
    consumer.pc = .loadSeq out → ringStep state .consumerStep = some (after, events) →
    (.consumeReturn none ∈ events ↔ queue.items = [])

section Linearization

variable {memory : SpscRing} {state : RingState} {queue : Queue Payload}
  {history : List RingEvent}

theorem Linked.refuses (linked : Linked state queue) (producer : RingProducer)
    (bytes : List UInt8) (after : RingState) (events : List RingEvent)
    (attached : state.producer = some producer) (pc : producer.pc = .loadTail bytes)
    (step : ringStep state .producerStep = some (after, events)) :
    .publishReturn false ∈ events ↔ queue.items.length = ringCapacity := by
  have side := linked.producer
  rw [attached] at side
  have full := linked.stored.full_iff
  simp only [ringStep, attached, RingProducer.step, pc, side.1, Queue.entered, full] at step
  split at step
  · next refused =>
    simp only [Option.map_some, Option.some.injEq, Prod.mk.injEq] at step
    simp [← step.2, refused]
  · next room =>
    simp only [Option.map_some, Option.some.injEq, Prod.mk.injEq] at step
    simp [← step.2, room]

theorem Linked.empties (linked : Linked state queue) (consumer : RingConsumer)
    (out : Payload) (after : RingState) (events : List RingEvent)
    (attached : state.consumer = some consumer) (pc : consumer.pc = .loadSeq out)
    (step : ringStep state .consumerStep = some (after, events)) :
    .consumeReturn none ∈ events ↔ queue.items = [] := by
  have side := linked.consumer
  rw [attached] at side
  have ready := linked.stored.seq_eq_iff
  simp only [ringStep, attached, RingConsumer.step, pc, side.1, slotIndex_ofNat, ne_eq, ready,
    Decidable.not_not] at step
  split at step
  · next empty =>
    simp only [Option.map_some, Option.some.injEq, Prod.mk.injEq] at step
    simp [← step.2, empty]
  · next nonempty =>
    simp only [Option.map_some, Option.some.injEq, Prod.mk.injEq] at step
    simp [← step.2, nonempty]

/-- Every run of one producer and one consumer linearizes to a bounded FIFO queue. -/
theorem spsc_linearizes (reach : (spsc memory).Reach NoCrash state history) :
    ∃ queue, Linearized state history queue := by
  obtain ⟨queue, accepted, linked, _, returned⟩ :=
    ring_refines (reach.mono fun _ _ => NoCrash.safe)
  have published := (puts_eq accepted).1
  rw [puts_asQueue, takes_asQueue, ← returned] at published
  exact ⟨queue, accepted, published, linked.refuses, linked.empties⟩

theorem spsc_linearizes_message : ∃ state history queue,
    RingEvent.returnedPayloads history = [zeroPad [7, 8]] ∧ Linearized state history queue := by
  obtain ⟨state, history, reach, returned⟩ := System.exists_reach_of_run (spsc .zeroed) NoCrash
    (publishCall [7, 8] ++ consumeCall (zeroPad []))
    (fun final => RingEvent.returnedPayloads final.2 = [zeroPad [7, 8]])
    (by decide +kernel) (by decide +kernel)
  obtain ⟨queue, linearized⟩ := spsc_linearizes reach
  exact ⟨state, history, queue, of_decide_eq_true returned, linearized⟩

end Linearization

end TradingPipeline.Shmbus
