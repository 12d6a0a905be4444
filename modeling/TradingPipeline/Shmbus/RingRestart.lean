import TradingPipeline.Foundation.Replay
import TradingPipeline.Shmbus.RingLinearization

/-! Processes that go away in the middle of a call and are started again.

A new producer trusts the stored head and a new consumer the stored tail. The tail and the
private cursor of a consumer differ only inside one call, so a new consumer repeats at most
the message in hand. The head lags behind the sequence numbers between the two last stores
of `try_publish`, and a producer that goes away there leaves a successor that is one behind.
-/

set_option autoImplicit false

namespace TradingPipeline.Shmbus

open Foundation

/-- The producer is not about to write a byte of an unread message. -/
def SlotsKept (state : RingState) (history : List RingEvent) : Prop :=
  ∀ producer index, state.producer = some producer → producer.writes = some index →
    ∀ seq ∈ RingEvent.unread history, slotIndex seq ≠ index

/-- What a ring owes to a producer that was started again. -/
structure RestartSafe (state : RingState) (history : List RingEvent) : Prop where
  /-- Between calls the cursor is at most one lap ahead of the tail. -/
  near : ∀ producer, state.producer = some producer → producer.pc = .idle →
    (producer.nextSeq - state.ring.tail).toNat ≤ ringCapacity
  /-- Before the cursors wrap, it is not behind the tail either. -/
  ahead : ∀ producer, state.producer = some producer → producer.pc = .idle →
    (RingEvent.publishedPayloads history).length < 2 ^ 64 → state.ring.tail ≤ producer.nextSeq
  /-- With no message unread, the tail load of a call does not refuse it. -/
  admits : ∀ producer bytes after events, state.producer = some producer →
    producer.pc = .loadTail bytes → RingEvent.unread history = [] →
    ringStep state .producerStep = some (after, events) → .publishReturn false ∉ events
  keeps : SlotsKept state history

section Producer

variable {memory : SpscRing} {state : RingState} {queue : BoundedFifo.Queue Payload}
  {history : List RingEvent}

theorem Linked.slotsKept (linked : Linked state queue)
    (unread : RingEvent.unread history = unreadSeqs queue) : SlotsKept state history := by
  intro producer index attached writes seq member
  have side := linked.producer
  rw [attached] at side
  obtain ⟨cursor, pcAt⟩ := side
  simp only [unread, unreadSeqs, List.mem_map, List.mem_range] at member
  obtain ⟨position, within, rfl⟩ := member
  unfold RingProducer.writes at writes
  -- only the copy loop writes payload bytes, and it is entered with a free slot
  split at writes
  · next bytes offset pc =>
    rw [pc] at pcAt
    obtain ⟨_, _, free, _⟩ := pcAt
    rw [← Option.some.inj writes, cursor, slotIndex_ofNat, slotIndex_ofNat]
    exact (Stored.slotAt_ne free position within).symm
  · contradiction

theorem Linked.distance (linked : Linked state queue) {producer : RingProducer}
    (attached : state.producer = some producer) :
    (producer.nextSeq - state.ring.tail).toNat = queue.items.length := by
  have side := linked.producer
  rw [attached] at side
  have room := linked.stored.room
  have apart : queue.entered - queue.taken = queue.items.length := Nat.add_sub_cancel_left _ _
  simp only [ringCapacity] at room
  rw [side.1, linked.stored.tail,
    Cursor.toNat_distance queue.taken queue.entered (Nat.le_add_right _ _) (by omega), apart]

theorem Linked.tail_le (linked : Linked state queue) {producer : RingProducer}
    (attached : state.producer = some producer) (few : queue.entered < 2 ^ 64) :
    state.ring.tail ≤ producer.nextSeq := by
  have side := linked.producer
  rw [attached] at side
  have le : queue.taken ≤ queue.entered := Nat.le_add_right _ _
  rw [side.1, linked.stored.tail, UInt64.le_iff_toNat_le]
  simp only [UInt64.toNat_ofNat']
  rw [Nat.mod_eq_of_lt few, Nat.mod_eq_of_lt (Nat.lt_of_le_of_lt le few)]
  exact le

/-- In every run in which no producer goes away between its seq store and its head store,
a restarted producer finds the ring as it needs it. -/
theorem producer_restart_safe (reach : (spsc memory).Reach SafeCrash state history) :
    RestartSafe state history := by
  obtain ⟨queue, seen, linked, unread, _⟩ := ring_refines reach
  have entered := BoundedFifo.entered_eq seen
  rw [puts_asQueue] at entered
  constructor
  case near =>
    intro producer attached _
    rw [linked.distance attached]
    exact linked.stored.room
  case ahead =>
    intro producer attached _ few
    exact linked.tail_le attached (entered ▸ few)
  case admits =>
    intro producer bytes after events attached pc none step refused
    have full := (linked.refuses producer bytes after events attached pc step).mp refused
    rw [unread] at none
    have empty : (unreadSeqs queue).length = 0 := by rw [none]; rfl
    rw [unreadSeqs, List.length_map, List.length_range] at empty
    simp only [ringCapacity] at full
    omega
  case keeps => exact linked.slotsKept unread

/-- A call that has made its seq store but not its head store. -/
def cutPublish (bytes : List UInt8) : List RingAction :=
  .tryPublish bytes :: List.replicate (slotPayload + 2) .producerStep

/-- A producer that goes away anywhere else, here with half a payload written, leaves its
successor nothing to repair. -/
theorem producer_restart_safe_message : ∃ state history,
    RingEvent.publishedPayloads history = [zeroPad [7]] ∧ RestartSafe state history := by
  obtain ⟨state, history, reach, published⟩ := System.exists_reach_of_run (spsc .zeroed) SafeCrash
    ((cutPublish [9, 9]).take 40 ++ [.producerCrash, .producerNew] ++ publishCall [7])
    (fun final => RingEvent.publishedPayloads final.2 = [zeroPad [7]])
    (by decide +kernel) (by decide +kernel)
  exact ⟨state, history, of_decide_eq_true published, producer_restart_safe reach⟩

/-- A producer that goes away between its two last stores: its message is read, and the
successor that attaches at the stored head is one behind the tail. -/
theorem producer_restart_unsafe :
    ¬ ∀ memory state history, (spsc memory).Reachable state history →
      RestartSafe state history := by
  intro safe
  obtain ⟨state, history, reach, behind⟩ := System.exists_reach_of_run (spsc .zeroed)
    (fun _ _ => True)
    (cutPublish [7] ++ [.producerCrash] ++ consumeCall (zeroPad []) ++ [.producerNew])
    (fun final => final.1.producer.any fun producer =>
      producer.pc = .idle ∧ (producer.nextSeq - final.1.ring.tail).toNat = 2 ^ 64 - 1)
    (System.allowedAlong_true _ _ _) (by decide +kernel)
  obtain ⟨producer, attached, found⟩ := (Option.any_eq_true _ _).mp behind
  obtain ⟨idle, distance⟩ := of_decide_eq_true found
  have near := (safe _ _ _ reach).near producer attached idle
  rw [distance] at near
  exact absurd near (by decide)

/-- Wherever a run stops between the two stores, a successor can be led into trouble: it is
behind the tail, or it overwrites the last message although nobody has read it. -/
theorem producer_window_breaks (reach : (spsc memory).Reach SafeCrash state history)
    {producer : RingProducer} (attached : state.producer = some producer)
    (window : producer.pc = .storeHead) :
    ∃ schedule after events,
      (spsc memory).runFrom state (.producerCrash :: .producerNew :: schedule) =
        some (after, events) ∧ ¬ RestartSafe after (history ++ events) := by
  obtain ⟨queue, _, linked, unread, _⟩ := ring_refines reach
  have side := linked.producer
  rw [attached] at side
  obtain ⟨cursor, pcAt⟩ := side
  rw [window] at pcAt
  obtain ⟨_, behind⟩ := pcAt
  have tail := linked.stored.tail
  have room := linked.stored.room
  obtain ⟨ring, present, consumer⟩ := state
  subst attached
  rcases empty : queue.items.length with _ | rest
  · -- everything is read: the successor attaches one behind the tail
    refine ⟨[], _, _, rfl, fun safe => ?_⟩
    have near := safe.near _ rfl rfl
    have entered : queue.entered = queue.taken := by
      rw [BoundedFifo.Queue.entered, empty]; rfl
    have next : ring.tail = ring.head + 1 := by rw [tail, ← entered, behind]
    have bound := ring.head.toNat_lt
    have one : (1 : UInt64).toNat = 1 := rfl
    simp only [RingProducer.new, next, UInt64.toNat_sub, UInt64.toNat_add, one,
      ringCapacity] at near
    omega
  · -- the last message is unread, and the successor starts to write over it
    have last : ring.head = .ofNat (queue.taken + rest) := by
      have entered : queue.entered = queue.taken + rest + 1 := by
        rw [BoundedFifo.Queue.entered, empty]; rfl
      rw [entered, ← Cursor.ofNat_succ] at behind
      exact (UInt64.add_left_inj 1).mp behind
    have admitted : ¬ ring.head - ring.tail ≥ UInt64.ofNat ringCapacity := by
      rw [last, tail, ge_iff_le, UInt64.le_iff_toNat_le,
        Cursor.toNat_distance _ _ (Nat.le_add_right _ _)
          (by simp only [ringCapacity] at room; omega), Nat.add_sub_cancel_left]
      have capacity : (UInt64.ofNat ringCapacity).toNat = ringCapacity := rfl
      omega
    let writing : RingProducer := ⟨ring.head, .copy [] 0⟩
    have run : (spsc memory).runFrom ⟨ring, some producer, consumer⟩
        [.producerCrash, .producerNew, .tryPublish [], .producerStep] =
          some (⟨ring, some writing, consumer⟩,
            [.producerCrashed, .publishCall (zeroPad []), .fullTest false]) := by
      simp [System.runFrom, spsc, ringStep, RingProducer.new, RingProducer.tryPublish,
        RingProducer.step, admitted, writing]
    refine ⟨[.tryPublish [], .producerStep], _, _, run, fun safe => ?_⟩
    have waiting : ring.head ∈ RingEvent.unread
        (history ++ [.producerCrashed, .publishCall (zeroPad []), .fullTest false]) := by
      rw [RingEvent.unread_quiet history rfl, unread, last]
      exact List.mem_map.mpr ⟨rest, List.mem_range.mpr (by omega), rfl⟩
    exact safe.keeps writing _ rfl rfl ring.head waiting rfl

end Producer

section Consumer

/-- How a ring event is seen by a reader that may crash. -/
def RingEvent.asReplay : RingEvent → List (Replay.Event Payload)
  | .published _ payload => [.publish payload]
  | .copied payload => [.copy payload]
  | .consumed _ _ => [.commit]
  | .consumerCrashed => [.crash]
  | _ => []

/-- The consumer holds a whole copy that the tail does not cover yet. -/
def ConsumePc.copied : ConsumePc → Bool
  | .storeTail _ => true
  | _ => false

def RingState.copyPending (state : RingState) : Bool :=
  state.consumer.any fun consumer => consumer.pc.copied

/-- The log takes the view of the events: it grows by what they publish and commits what
they consume. -/
def Replays (log : Replay.Log Payload) (events : List RingEvent) (pending : Bool) : Prop :=
  (Replay.object Payload).runFrom log (events.flatMap RingEvent.asReplay) =
    some (⟨log.published ++ RingEvent.publishedPayloads events,
      log.committed + (RingEvent.consumedPayloads events).length, pending⟩,
      events.flatMap RingEvent.asReplay)

/-- The event neither changes the queue nor copies a message nor ends a consumer. -/
def RingEvent.silent : RingEvent → Bool
  | .published _ _ | .copied _ | .consumed _ _ | .consumerCrashed => false
  | _ => true

section Steps

variable {ring memory : SpscRing} {events : List RingEvent} (log : Replay.Log Payload)

theorem replays_silent {pending : Bool} (same : log.pending = pending)
    (silent : events.all RingEvent.silent = true) : Replays log events pending := by
  have each := List.all_eq_true.mp silent
  have view : events.flatMap RingEvent.asReplay = [] := by
    refine List.flatMap_eq_nil_iff.mpr fun event member => ?_
    have alone := each event member
    cases event <;> first | rfl | contradiction
  have published : RingEvent.publishedPayloads events = [] := by
    refine List.filterMap_eq_nil_iff.mpr fun event member => ?_
    have alone := each event member
    cases event <;> first | rfl | contradiction
  have consumed : RingEvent.consumedPayloads events = [] := by
    refine List.filterMap_eq_nil_iff.mpr fun event member => ?_
    have alone := each event member
    cases event <;> first | rfl | contradiction
  unfold Replays
  rw [view, published, consumed, List.append_nil, ← same]
  rfl

theorem producer_replays {producer moved : RingProducer}
    (step : producer.step ring = some (memory, moved, events)) :
    Replays log events log.pending := by
  cases RingProducer.step_inv step with
  | storeSeq => rfl
  | full | room | copy | copied | storeHead => exact replays_silent log rfl rfl

theorem consumer_replays {consumer moved : RingConsumer}
    (pending : log.pending = consumer.pc.copied)
    (step : consumer.step ring = some (memory, moved, events))
    (source : ∀ payload, RingEvent.copied payload ∈ events →
      log.published[log.committed]? = some payload) :
    Replays log events moved.pc.copied := by
  cases RingConsumer.step_inv step with
  | empty | ready | copy => exact replays_silent log pending rfl
  | copied =>
    have is := source _ List.mem_cons_self
    unfold ConsumePc.copied at pending
    simp [Replays, System.runFrom, Replay.object, Replay.accept, RingEvent.asReplay, pending,
      is, RingEvent.publishedPayloads, RingEvent.consumedPayloads, ConsumePc.copied]
  | storeTail =>
    unfold ConsumePc.copied at pending
    simp [Replays, System.runFrom, Replay.object, Replay.accept, RingEvent.asReplay, pending,
      RingEvent.publishedPayloads, RingEvent.consumedPayloads, ConsumePc.copied]

/-- What one step of the ring does to the log, whatever the memory holds. -/
theorem ring_replays {state after : RingState} {action : RingAction}
    (pending : log.pending = state.copyPending)
    (step : ringStep state action = some (after, events))
    (source : ∀ payload, RingEvent.copied payload ∈ events →
      log.published[log.committed]? = some payload) :
    Replays log events after.copyPending := by
  cases ringStep_inv step with
  | tryPublish | producerCrash | producerNew | consumerNew =>
    exact replays_silent log pending rfl
  | producerStep taken => exact pending ▸ producer_replays log taken
  | tryConsume called =>
    simp only [RingConsumer.tryConsume, Option.ite_none_right_eq_some, Option.some.injEq] at called
    -- no copy is pending between two calls
    obtain ⟨idle, rfl⟩ := called
    refine replays_silent log ?_ rfl
    rw [pending, RingState.copyPending, Option.any_some, idle]
    rfl
  | consumerStep taken => exact consumer_replays log pending taken source
  | consumerCrash =>
    simp [Replays, System.runFrom, Replay.object, Replay.accept, RingEvent.asReplay,
      RingEvent.publishedPayloads, RingEvent.consumedPayloads, RingState.copyPending]

theorem copied_shows {state after : RingState} {action : RingAction} {payload : Payload}
    (step : ringStep state action = some (after, events))
    (copied : RingEvent.copied payload ∈ events) :
    events = [.copied payload] ∧
      ∃ consumer, after.consumer = some consumer ∧ consumer.pc = .storeTail payload := by
  cases ringStep_inv step with
  | tryPublish | producerCrash | producerNew | tryConsume | consumerCrash | consumerNew =>
    simp at copied
  | producerStep taken =>
    cases RingProducer.step_inv taken <;> simp at copied
  | consumerStep taken =>
    cases RingConsumer.step_inv taken with
    | empty | ready | copy | storeTail => simp at copied
    | copied =>
      obtain rfl : payload = _ := by simpa using copied
      exact ⟨rfl, _, rfl, rfl⟩

end Steps

section Runs

variable {memory : SpscRing} {state after : RingState} {action : RingAction}
  {events history : List RingEvent}

/-- The replay log that stands for the memory and for the consumer's place. -/
structure Replayed (state : RingState) (log : Replay.Log Payload) : Prop where
  pending : log.pending = state.copyPending
  queue : ∃ queue before, Linked state queue ∧ log.committed = queue.taken ∧
    log.published = before ++ queue.items ∧ before.length = queue.taken

theorem replay_answer {log : Replay.Log Payload} (safe : SafeCrash state action)
    (step : ringStep state action = some (after, events)) (replayed : Replayed state log) :
    ∃ next, (Replay.object Payload).runFrom log (events.flatMap RingEvent.asReplay) =
      some (next, events.flatMap RingEvent.asReplay) ∧ Replayed after next := by
  obtain ⟨pending, queue, before, linked, committed, published, length⟩ := replayed
  obtain ⟨next, answers, linked⟩ := ring_answer safe step linked
  obtain ⟨items, taken⟩ := BoundedFifo.runFrom_items answers.accepted
  rw [puts_asQueue, takes_asQueue] at items
  rw [takes_asQueue] at taken
  have source : ∀ payload, RingEvent.copied payload ∈ events →
      log.published[log.committed]? = some payload := by
    intro payload copied
    obtain ⟨rfl, consumer, attached, pc⟩ := copied_shows step copied
    have side := linked.consumer
    rw [attached] at side
    -- after the step the copy is the head of a queue that the step has not changed
    have head : next.items.head? = some payload := by
      have pcAt := side.2
      rw [pc] at pcAt
      exact pcAt.2
    have same : queue.items = next.items := by
      simpa [RingEvent.publishedPayloads, RingEvent.consumedPayloads] using items
    rw [published, committed, ← length, same, List.getElem?_append_right (Nat.le_refl _),
      Nat.sub_self, ← List.head?_eq_getElem?, head]
  refine ⟨_, ring_replays log pending step source, rfl, next,
    before ++ RingEvent.consumedPayloads events, linked, ?_, ?_, ?_⟩
  · rw [taken, committed]
  · rw [published, List.append_assoc, items, List.append_assoc]
  · rw [List.length_append, length, taken]

theorem publishes_asReplay (history : List RingEvent) :
    Replay.publishes (history.flatMap RingEvent.asReplay) =
      RingEvent.publishedPayloads history := by
  induction history with
  | nil => rfl
  | cons event rest ih =>
    simp only [Replay.publishes, RingEvent.publishedPayloads] at ih ⊢
    cases event <;> simp [RingEvent.asReplay, ih]

theorem copies_asReplay (history : List RingEvent) :
    Replay.copies (history.flatMap RingEvent.asReplay) = RingEvent.copiedPayloads history := by
  induction history with
  | nil => rfl
  | cons event rest ih =>
    simp only [Replay.copies, RingEvent.copiedPayloads] at ih ⊢
    cases event <;> simp [RingEvent.asReplay, ih]

theorem crashes_asReplay (history : List RingEvent) :
    Replay.crashes (history.flatMap RingEvent.asReplay) = RingEvent.consumerCrashes history := by
  induction history with
  | nil => rfl
  | cons event rest ih =>
    simp only [Replay.crashes, RingEvent.consumerCrashes] at ih ⊢
    cases event <;> simp [RingEvent.asReplay, ih]

/-- The producer process does not go away; the consumer may, at any step. -/
def ProducerStays (_ : RingState) (action : RingAction) : Prop := action ≠ .producerCrash

instance (state : RingState) (action : RingAction) : Decidable (ProducerStays state action) :=
  inferInstanceAs (Decidable (action ≠ .producerCrash))

/-- Whatever consumers crash and are started again, the copies they complete are the
published messages in order, each crash costing at most one repetition next to the
original, and the producer keeps off the slots of unread messages. -/
theorem consumer_restart_replays (reach : (spsc memory).Reach ProducerStays state history) :
    (∃ repeats, RingEvent.copiedPayloads history =
        Replay.stutter repeats (RingEvent.publishedPayloads history) ∧
      repeats.length ≤ (RingEvent.publishedPayloads history).length ∧
      repeats.sum ≤ RingEvent.consumerCrashes history) ∧ SlotsKept state history := by
  have safe : (spsc memory).Reach SafeCrash state history :=
    reach.mono fun _ _ stays crash => absurd crash stays
  constructor
  · have start : Replayed (spsc memory).start (Replay.object Payload).start :=
      ⟨rfl, .empty, [], linked_start memory, rfl, rfl, rfl⟩
    obtain ⟨log, replay, _⟩ := safe.simulate Replayed RingEvent.asReplay start
      fun ok step replayed => by
        obtain ⟨next, run, replayed⟩ := replay_answer ok step replayed
        exact ⟨_, next, run, replayed⟩
    have stutter := Replay.copies_stutter replay
    rwa [copies_asReplay, publishes_asReplay, crashes_asReplay] at stutter
  · obtain ⟨queue, _, linked, unread, _⟩ := ring_refines safe
    exact linked.slotsKept unread

/-- A consumer that goes away after its copy and before its tail store: the next one copies
the same message again. -/
theorem consumer_restart_replays_message : ∃ state history,
    RingEvent.copiedPayloads history = [zeroPad [7], zeroPad [7]] ∧
    (∃ repeats, RingEvent.copiedPayloads history =
        Replay.stutter repeats (RingEvent.publishedPayloads history) ∧
      repeats.length ≤ (RingEvent.publishedPayloads history).length ∧
      repeats.sum ≤ RingEvent.consumerCrashes history) ∧ SlotsKept state history := by
  obtain ⟨state, history, reach, copied⟩ := System.exists_reach_of_run (spsc .zeroed)
    ProducerStays
    (publishCall [7] ++ (consumeCall (zeroPad [])).dropLast ++ [.consumerCrash, .consumerNew] ++
      consumeCall (zeroPad []))
    (fun final => RingEvent.copiedPayloads final.2 = [zeroPad [7], zeroPad [7]])
    (by decide +kernel) (by decide +kernel)
  exact ⟨state, history, of_decide_eq_true copied, consumer_restart_replays reach⟩

end Runs
end Consumer
end TradingPipeline.Shmbus
