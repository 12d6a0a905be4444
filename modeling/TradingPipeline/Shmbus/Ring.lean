import Mathlib.Logic.Function.Basic
import TradingPipeline.Foundation.Transition

/-! The shared-memory ring of `ring.rs`.

A call is executed as separate shared-memory steps; a program counter holds what the
call still has to do. Cursors and sequence numbers are `u64` and wrap, as they do in the
release build. Stores take effect at once, and a process that goes away leaves in the
shared memory whatever it had stored.
-/

set_option autoImplicit false

namespace TradingPipeline.Shmbus

open Foundation (System)

/-- `RING_CAPACITY`. -/
def ringCapacity : Nat := 16 * 1024

instance : NeZero ringCapacity := ⟨by decide⟩

/-- `RING_MASK`. -/
def ringMask : UInt64 := UInt64.ofNat ringCapacity - 1

/-- `SLOT_PAYLOAD`. -/
abbrev slotPayload : Nat := 80

abbrev Payload := Vector UInt8 slotPayload

/-- What `try_publish` leaves in a slot: the caller's bytes, then zeroes. -/
def zeroPad (bytes : List UInt8) : Payload := Vector.ofFn fun offset => bytes.getD offset 0

structure Slot where
  seq : UInt64
  payload : Payload

structure SpscRing where
  /-- Producer cursor. -/
  head : UInt64
  /-- Consumer cursor. -/
  tail : UInt64
  slots : Fin ringCapacity → Slot

namespace SpscRing

/-- The memory of a freshly extended file. -/
def zeroed : SpscRing := ⟨0, 0, fun _ => ⟨0, Vector.replicate slotPayload 0⟩⟩

/-- Resets the cursors and every sequence number; payloads keep their old bytes. -/
def initInPlace (ring : SpscRing) : SpscRing where
  head := 0
  tail := 0
  slots index := { ring.slots index with seq := 0 }

def writeByte (ring : SpscRing) (index : Fin ringCapacity) (offset : Fin slotPayload)
    (byte : UInt8) : SpscRing :=
  let slot := ring.slots index
  let written : Slot := { slot with payload := slot.payload.set offset byte }
  { ring with slots := Function.update ring.slots index written }

def storeSeq (ring : SpscRing) (index : Fin ringCapacity) (seq : UInt64) : SpscRing :=
  { ring with slots := Function.update ring.slots index ⟨seq, (ring.slots index).payload⟩ }

end SpscRing

theorem and_ringMask (cursor : UInt64) :
    (cursor &&& ringMask).toNat = cursor.toNat % ringCapacity := by
  rw [UInt64.toNat_and]
  exact Nat.and_two_pow_sub_one_eq_mod cursor.toNat 14

/-- `(cursor & RING_MASK) as usize`. -/
def slotIndex (cursor : UInt64) : Fin ringCapacity :=
  ⟨(cursor &&& ringMask).toNat, by rw [and_ringMask]; exact Nat.mod_lt _ (by decide)⟩

/-- What the shared-memory steps of the two sides show. -/
inductive RingEvent where
  | publishCall (payload : Payload)
  /-- The tail load of `try_publish`, with the outcome of the full test. -/
  | fullTest (full : Bool)
  /-- The seq store that makes message `seq` ready. -/
  | published (seq : UInt64) (payload : Payload)
  | publishReturn (accepted : Bool)
  | producerCrashed
  | consumeCall
  /-- The seq load of `try_consume`, with the outcome of the emptiness test. -/
  | emptyTest (empty : Bool)
  /-- The last byte of a payload has been copied out. -/
  | copied (payload : Payload)
  /-- The tail store that moves the tail past message `seq`. -/
  | consumed (seq : UInt64) (payload : Payload)
  | consumeReturn (result : Option Payload)
  | consumerCrashed
  deriving DecidableEq

inductive PublishPc where
  | idle
  | loadTail (bytes : List UInt8)
  /-- The payload bytes below `offset` are in place. -/
  | copy (bytes : List UInt8) (offset : Fin slotPayload)
  | storeSeq (bytes : List UInt8)
  | storeHead
  deriving DecidableEq

structure RingProducer where
  nextSeq : UInt64
  pc : PublishPc

inductive ConsumePc where
  | idle
  | loadSeq (out : Payload)
  /-- The payload bytes below `offset` have been copied to `out`. -/
  | copy (offset : Fin slotPayload) (out : Payload)
  | storeTail (out : Payload)
  deriving DecidableEq

structure RingConsumer where
  nextSeq : UInt64
  pc : ConsumePc

namespace RingProducer

/-- `RingProducer::new`: attach at the stored head. -/
def new (ring : SpscRing) : RingProducer := ⟨ring.head, .idle⟩

/-- Enter `try_publish`; its assertion refuses longer messages. -/
def tryPublish (producer : RingProducer) (bytes : List UInt8) : Option RingProducer :=
  if producer.pc = .idle ∧ bytes.length ≤ slotPayload then
    some { producer with pc := .loadTail bytes }
  else none

/-- The next shared-memory step of the call in progress. -/
def step (ring : SpscRing) (producer : RingProducer) :
    Option (SpscRing × RingProducer × List RingEvent) :=
  match producer.pc with
  | .idle => none
  | .loadTail bytes =>
    if producer.nextSeq - ring.tail ≥ UInt64.ofNat ringCapacity then
      some (ring, { producer with pc := .idle }, [.fullTest true, .publishReturn false])
    else some (ring, { producer with pc := .copy bytes 0 }, [.fullTest false])
  | .copy bytes offset =>
    some (ring.writeByte (slotIndex producer.nextSeq) offset (bytes.getD offset 0),
      { producer with pc :=
          if next : offset.val + 1 < slotPayload then .copy bytes ⟨offset + 1, next⟩
          else .storeSeq bytes },
      [])
  | .storeSeq bytes =>
    some (ring.storeSeq (slotIndex producer.nextSeq) (producer.nextSeq + 1),
      ⟨producer.nextSeq + 1, .storeHead⟩, [.published producer.nextSeq (zeroPad bytes)])
  | .storeHead =>
    some ({ ring with head := producer.nextSeq }, { producer with pc := .idle },
      [.publishReturn true])

/-- The slot that the next step writes a payload byte to. -/
def writes (producer : RingProducer) : Option (Fin ringCapacity) :=
  match producer.pc with
  | .copy _ _ => some (slotIndex producer.nextSeq)
  | _ => none

end RingProducer

namespace RingConsumer

/-- `RingConsumer::new`: attach at the stored tail. -/
def new (ring : SpscRing) : RingConsumer := ⟨ring.tail, .idle⟩

/-- Enter `try_consume` with the caller's buffer. -/
def tryConsume (consumer : RingConsumer) (out : Payload) : Option RingConsumer :=
  if consumer.pc = .idle then some { consumer with pc := .loadSeq out } else none

/-- The next shared-memory step of the call in progress. -/
def step (ring : SpscRing) (consumer : RingConsumer) :
    Option (SpscRing × RingConsumer × List RingEvent) :=
  match consumer.pc with
  | .idle => none
  | .loadSeq out =>
    if (ring.slots (slotIndex consumer.nextSeq)).seq ≠ consumer.nextSeq + 1 then
      some (ring, { consumer with pc := .idle }, [.emptyTest true, .consumeReturn none])
    else some (ring, { consumer with pc := .copy 0 out }, [.emptyTest false])
  | .copy offset out =>
    let copy := out.set offset (ring.slots (slotIndex consumer.nextSeq)).payload[offset]
    if next : offset.val + 1 < slotPayload then
      some (ring, { consumer with pc := .copy ⟨offset + 1, next⟩ copy }, [])
    else some (ring, { consumer with pc := .storeTail copy }, [.copied copy])
  | .storeTail out =>
    some ({ ring with tail := consumer.nextSeq + 1 }, ⟨consumer.nextSeq + 1, .idle⟩,
      [.consumed consumer.nextSeq out, .consumeReturn (some out)])

end RingConsumer

/-- One ring with the processes attached to its two ends. -/
structure RingState where
  ring : SpscRing
  producer : Option RingProducer
  consumer : Option RingConsumer

inductive RingAction where
  | tryPublish (bytes : List UInt8)
  | producerStep
  | producerCrash
  | producerNew
  | tryConsume (out : Payload)
  | consumerStep
  | consumerCrash
  | consumerNew
  deriving DecidableEq

def ringStep (state : RingState) : RingAction → Option (RingState × List RingEvent)
  | .tryPublish bytes =>
    match state.producer with
    | none => none
    | some producer =>
      (producer.tryPublish bytes).map fun called =>
        ({ state with producer := some called }, [.publishCall (zeroPad bytes)])
  | .producerStep =>
    match state.producer with
    | none => none
    | some producer =>
      (producer.step state.ring).map fun (ring, moved, events) =>
        ({ state with ring := ring, producer := some moved }, events)
  | .producerCrash =>
    match state.producer with
    | none => none
    | some _ => some ({ state with producer := none }, [.producerCrashed])
  | .producerNew =>
    match state.producer with
    | none => some ({ state with producer := some (.new state.ring) }, [])
    | some _ => none
  | .tryConsume out =>
    match state.consumer with
    | none => none
    | some consumer =>
      (consumer.tryConsume out).map fun called =>
        ({ state with consumer := some called }, [.consumeCall])
  | .consumerStep =>
    match state.consumer with
    | none => none
    | some consumer =>
      (consumer.step state.ring).map fun (ring, moved, events) =>
        ({ state with ring := ring, consumer := some moved }, events)
  | .consumerCrash =>
    match state.consumer with
    | none => none
    | some _ => some ({ state with consumer := none }, [.consumerCrashed])
  | .consumerNew =>
    match state.consumer with
    | none => some ({ state with consumer := some (.new state.ring) }, [])
    | some _ => none

/-- Everything that one step of `try_publish` can do. -/
inductive ProducerStepped (ring : SpscRing) :
    RingProducer → SpscRing → RingProducer → List RingEvent → Prop where
  | full {nextSeq : UInt64} {bytes : List UInt8}
      (refused : nextSeq - ring.tail ≥ UInt64.ofNat ringCapacity) :
      ProducerStepped ring ⟨nextSeq, .loadTail bytes⟩ ring ⟨nextSeq, .idle⟩
        [.fullTest true, .publishReturn false]
  | room {nextSeq : UInt64} {bytes : List UInt8}
      (admitted : ¬ nextSeq - ring.tail ≥ UInt64.ofNat ringCapacity) :
      ProducerStepped ring ⟨nextSeq, .loadTail bytes⟩ ring ⟨nextSeq, .copy bytes 0⟩
        [.fullTest false]
  | copy {nextSeq : UInt64} {bytes : List UInt8} {offset : Fin slotPayload}
      (next : offset.val + 1 < slotPayload) :
      ProducerStepped ring ⟨nextSeq, .copy bytes offset⟩
        (ring.writeByte (slotIndex nextSeq) offset (bytes.getD offset 0))
        ⟨nextSeq, .copy bytes ⟨offset + 1, next⟩⟩ []
  | copied {nextSeq : UInt64} {bytes : List UInt8} {offset : Fin slotPayload}
      (last : ¬ offset.val + 1 < slotPayload) :
      ProducerStepped ring ⟨nextSeq, .copy bytes offset⟩
        (ring.writeByte (slotIndex nextSeq) offset (bytes.getD offset 0))
        ⟨nextSeq, .storeSeq bytes⟩ []
  | storeSeq {nextSeq : UInt64} {bytes : List UInt8} :
      ProducerStepped ring ⟨nextSeq, .storeSeq bytes⟩
        (ring.storeSeq (slotIndex nextSeq) (nextSeq + 1)) ⟨nextSeq + 1, .storeHead⟩
        [.published nextSeq (zeroPad bytes)]
  | storeHead {nextSeq : UInt64} :
      ProducerStepped ring ⟨nextSeq, .storeHead⟩ { ring with head := nextSeq } ⟨nextSeq, .idle⟩
        [.publishReturn true]

theorem RingProducer.step_inv {ring memory : SpscRing} {producer moved : RingProducer}
    {events : List RingEvent} (step : producer.step ring = some (memory, moved, events)) :
    ProducerStepped ring producer memory moved events := by
  obtain ⟨nextSeq, pc⟩ := producer
  cases pc with
  | idle => contradiction
  | loadTail bytes =>
    simp only [RingProducer.step] at step
    split at step
    · next refused => cases step; exact .full refused
    · next admitted => cases step; exact .room admitted
  | copy bytes offset =>
    simp only [RingProducer.step, Option.some.injEq, Prod.mk.injEq] at step
    obtain ⟨rfl, rfl, rfl⟩ := step
    split
    · next more => exact .copy more
    · next last => exact .copied last
  | storeSeq bytes => cases step; exact .storeSeq
  | storeHead => cases step; exact .storeHead

/-- Everything that one step of `try_consume` can do. -/
inductive ConsumerStepped (ring : SpscRing) :
    RingConsumer → SpscRing → RingConsumer → List RingEvent → Prop where
  | empty {nextSeq : UInt64} {out : Payload}
      (behind : (ring.slots (slotIndex nextSeq)).seq ≠ nextSeq + 1) :
      ConsumerStepped ring ⟨nextSeq, .loadSeq out⟩ ring ⟨nextSeq, .idle⟩
        [.emptyTest true, .consumeReturn none]
  | ready {nextSeq : UInt64} {out : Payload}
      (stored : ¬ (ring.slots (slotIndex nextSeq)).seq ≠ nextSeq + 1) :
      ConsumerStepped ring ⟨nextSeq, .loadSeq out⟩ ring ⟨nextSeq, .copy 0 out⟩ [.emptyTest false]
  | copy {nextSeq : UInt64} {offset : Fin slotPayload} {out : Payload}
      (next : offset.val + 1 < slotPayload) :
      ConsumerStepped ring ⟨nextSeq, .copy offset out⟩ ring
        ⟨nextSeq, .copy ⟨offset + 1, next⟩
          (out.set offset (ring.slots (slotIndex nextSeq)).payload[offset])⟩ []
  | copied {nextSeq : UInt64} {offset : Fin slotPayload} {out : Payload}
      (last : ¬ offset.val + 1 < slotPayload) :
      ConsumerStepped ring ⟨nextSeq, .copy offset out⟩ ring
        ⟨nextSeq, .storeTail (out.set offset (ring.slots (slotIndex nextSeq)).payload[offset])⟩
        [.copied (out.set offset (ring.slots (slotIndex nextSeq)).payload[offset])]
  | storeTail {nextSeq : UInt64} {out : Payload} :
      ConsumerStepped ring ⟨nextSeq, .storeTail out⟩ { ring with tail := nextSeq + 1 }
        ⟨nextSeq + 1, .idle⟩ [.consumed nextSeq out, .consumeReturn (some out)]

theorem RingConsumer.step_inv {ring memory : SpscRing} {consumer moved : RingConsumer}
    {events : List RingEvent} (step : consumer.step ring = some (memory, moved, events)) :
    ConsumerStepped ring consumer memory moved events := by
  obtain ⟨nextSeq, pc⟩ := consumer
  cases pc with
  | idle => contradiction
  | loadSeq out =>
    simp only [RingConsumer.step] at step
    split at step
    · next behind => cases step; exact .empty behind
    · next stored => cases step; exact .ready stored
  | copy offset out =>
    simp only [RingConsumer.step] at step
    split at step
    · next more => cases step; exact .copy more
    · next last => cases step; exact .copied last
  | storeTail out => cases step; exact .storeTail

/-- Everything that one step can do. -/
inductive RingStepped : RingState → RingAction → RingState → List RingEvent → Prop where
  | tryPublish {ring : SpscRing} {producer called : RingProducer} {reader : Option RingConsumer}
      {bytes : List UInt8} (call : producer.tryPublish bytes = some called) :
      RingStepped ⟨ring, some producer, reader⟩ (.tryPublish bytes)
        ⟨ring, some called, reader⟩ [.publishCall (zeroPad bytes)]
  | producerStep {ring memory : SpscRing} {producer moved : RingProducer}
      {reader : Option RingConsumer} {events : List RingEvent}
      (step : producer.step ring = some (memory, moved, events)) :
      RingStepped ⟨ring, some producer, reader⟩ .producerStep ⟨memory, some moved, reader⟩ events
  | producerCrash {ring : SpscRing} {producer : RingProducer} {reader : Option RingConsumer} :
      RingStepped ⟨ring, some producer, reader⟩ .producerCrash
        ⟨ring, none, reader⟩ [.producerCrashed]
  | producerNew {ring : SpscRing} {reader : Option RingConsumer} :
      RingStepped ⟨ring, none, reader⟩ .producerNew ⟨ring, some (.new ring), reader⟩ []
  | tryConsume {ring : SpscRing} {writer : Option RingProducer} {consumer called : RingConsumer}
      {out : Payload} (call : consumer.tryConsume out = some called) :
      RingStepped ⟨ring, writer, some consumer⟩ (.tryConsume out)
        ⟨ring, writer, some called⟩ [.consumeCall]
  | consumerStep {ring memory : SpscRing} {writer : Option RingProducer}
      {consumer moved : RingConsumer} {events : List RingEvent}
      (step : consumer.step ring = some (memory, moved, events)) :
      RingStepped ⟨ring, writer, some consumer⟩ .consumerStep ⟨memory, writer, some moved⟩ events
  | consumerCrash {ring : SpscRing} {writer : Option RingProducer} {consumer : RingConsumer} :
      RingStepped ⟨ring, writer, some consumer⟩ .consumerCrash
        ⟨ring, writer, none⟩ [.consumerCrashed]
  | consumerNew {ring : SpscRing} {writer : Option RingProducer} :
      RingStepped ⟨ring, writer, none⟩ .consumerNew ⟨ring, writer, some (.new ring)⟩ []

theorem ringStep_inv {state after : RingState} {action : RingAction} {events : List RingEvent}
    (step : ringStep state action = some (after, events)) :
    RingStepped state action after events := by
  obtain ⟨ring, producer, consumer⟩ := state
  cases action with
  | tryPublish bytes =>
    cases producer with
    | none => contradiction
    | some producer =>
      simp only [ringStep, Option.map_eq_some_iff, Prod.mk.injEq] at step
      obtain ⟨called, call, rfl, rfl⟩ := step
      exact .tryPublish call
  | producerStep =>
    cases producer with
    | none => contradiction
    | some producer =>
      simp only [ringStep, Option.map_eq_some_iff, Prod.mk.injEq] at step
      obtain ⟨⟨memory, moved, shown⟩, taken, rfl, rfl⟩ := step
      exact .producerStep taken
  | producerCrash =>
    cases producer with
    | none => contradiction
    | some producer => cases step; exact .producerCrash
  | producerNew =>
    cases producer with
    | some producer => contradiction
    | none => cases step; exact .producerNew
  | tryConsume out =>
    cases consumer with
    | none => contradiction
    | some consumer =>
      simp only [ringStep, Option.map_eq_some_iff, Prod.mk.injEq] at step
      obtain ⟨entered, call, rfl, rfl⟩ := step
      exact .tryConsume call
  | consumerStep =>
    cases consumer with
    | none => contradiction
    | some consumer =>
      simp only [ringStep, Option.map_eq_some_iff, Prod.mk.injEq] at step
      obtain ⟨⟨memory, moved, shown⟩, taken, rfl, rfl⟩ := step
      exact .consumerStep taken
  | consumerCrash =>
    cases consumer with
    | none => contradiction
    | some consumer => cases step; exact .consumerCrash
  | consumerNew =>
    cases consumer with
    | some consumer => contradiction
    | none => cases step; exact .consumerNew

/-- A whole call of `try_publish` that finds room: the call, the tail load, one write for
each payload byte, the seq store and the head store. -/
def publishCall (bytes : List UInt8) : List RingAction :=
  .tryPublish bytes :: List.replicate (slotPayload + 3) .producerStep

/-- A whole call of `try_consume` that finds a message. -/
def consumeCall (out : Payload) : List RingAction :=
  .tryConsume out :: List.replicate (slotPayload + 2) .consumerStep

/-- One producer and one consumer on a ring initialised in the given memory. -/
def spsc (memory : SpscRing) : System RingState RingAction RingEvent where
  start :=
    { ring := memory.initInPlace
      producer := some (.new memory.initInPlace)
      consumer := some (.new memory.initInPlace) }
  step := ringStep

namespace RingEvent

/-- Payloads whose seq store has executed, in that order. -/
def publishedPayloads (history : List RingEvent) : List Payload :=
  history.filterMap fun | .published _ payload => some payload | _ => none

/-- Payloads that the tail has been moved past. -/
def consumedPayloads (history : List RingEvent) : List Payload :=
  history.filterMap fun | .consumed _ payload => some payload | _ => none

/-- Payloads that calls of `try_consume` have returned. -/
def returnedPayloads (history : List RingEvent) : List Payload :=
  history.filterMap fun | .consumeReturn (some payload) => some payload | _ => none

/-- Completed payload copies, made by whichever consumer. -/
def copiedPayloads (history : List RingEvent) : List Payload :=
  history.filterMap fun | .copied payload => some payload | _ => none

@[simp] theorem publishedPayloads_append (first second : List RingEvent) :
    publishedPayloads (first ++ second) = publishedPayloads first ++ publishedPayloads second :=
  List.filterMap_append

@[simp] theorem returnedPayloads_append (first second : List RingEvent) :
    returnedPayloads (first ++ second) = returnedPayloads first ++ returnedPayloads second :=
  List.filterMap_append

def consumerCrashes (history : List RingEvent) : Nat :=
  history.countP fun | .consumerCrashed => true | _ => false

/-- Sequence numbers of messages whose seq store has executed and that no later tail
store has moved past. -/
def unread (history : List RingEvent) : List UInt64 :=
  history.foldl (fun waiting event =>
    match event with
    | .published seq _ => waiting ++ [seq]
    | .consumed seq _ => waiting.filter (· ≠ seq)
    | _ => waiting) []

end RingEvent

end TradingPipeline.Shmbus
