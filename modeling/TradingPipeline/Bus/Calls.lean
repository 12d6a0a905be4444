import TradingPipeline.Feedhandler.Pipeline

/-! A program inside a call of `try_publish` or `try_consume`. -/

set_option autoImplicit false

namespace TradingPipeline.Bus

open Foundation Shmbus
open Feedhandler (publishOutcome)

/-- What `try_consume` returns in this step, if it does. -/
def consumeOutcome (shown : List RingEvent) : Option (Option Payload) :=
  shown.findSome? fun | .consumeReturn result => some result | _ => none

/-- `ptr::read` of an order from the buffer that `try_consume` has filled. -/
def decodeOrder (payload : Payload) : OrderMsg := .read payload.toList

theorem toList_zeroPad {bytes : List UInt8} (fits : bytes.length ≤ slotPayload) :
    (zeroPad bytes).toList = bytes ++ List.replicate (slotPayload - bytes.length) 0 := by
  apply List.ext_getElem
  · rw [Vector.length_toList, List.length_append, List.length_replicate]
    omega
  · intro position bound inside
    by_cases within : position < bytes.length
    · simp [zeroPad, within]
    · simp [zeroPad, List.getElem_append, within]

theorem decodeOrder_zeroPad (order : OrderMsg) : decodeOrder (zeroPad order.bytes) = order := by
  have fits : order.bytes.length ≤ slotPayload := by
    rw [order.length_bytes]
    decide
  rw [decodeOrder, toList_zeroPad fits, OrderMsg.read_bytes]

/-- A caller of `try_publish` and its ring: the message that the caller is in the call with, what
it has been told was accepted, and what the ring has published. -/
inductive Offering : Option (List UInt8) → PublishPc → List Payload → List Payload → Prop where
  | between {sent : List Payload} : Offering none .idle sent sent
  | before {bytes : List UInt8} {place : PublishPc} {sent : List Payload}
      (unsent : Feedhandler.PublishPc.unsent bytes place) : Offering (some bytes) place sent sent
  | after {bytes : List UInt8} {sent : List Payload} :
      Offering (some bytes) .storeHead sent (sent ++ [zeroPad bytes])

/-- The message whose seq store has executed in a call that has not returned. -/
def unanswered (message : Option (List UInt8)) : PublishPc → List Payload
  | .storeHead => message.toList.map zeroPad
  | _ => []

section Offering

variable {message : Option (List UInt8)} {place : PublishPc} {accepted published : List Payload}
  {ring memory : SpscRing} {producer moved : RingProducer} {shown : List RingEvent}

theorem Offering.published_eq (offering : Offering message place accepted published) :
    published = accepted ++ unanswered message place := by
  cases offering with
  | between => exact (List.append_nil _).symm
  | before unsent =>
    cases place with
    | storeHead => contradiction
    | idle | loadTail | copy | storeSeq => exact (List.append_nil _).symm
  | after => rfl

theorem Offering.take (offering : Offering none place accepted published) (bytes : List UInt8) :
    Offering (some bytes) place accepted published := by
  cases offering
  exact .before trivial

theorem Offering.call {bytes : List UInt8} (offering : Offering (some bytes) .idle accepted published) :
    Offering (some bytes) (.loadTail bytes) accepted published := by
  cases offering
  exact .before rfl

/-- One shared-memory step of the call: it goes on, or it returns and tells whether the message
has been published. -/
theorem Offering.producerStep (offering : Offering message producer.pc accepted published)
    (step : producer.step ring = some (memory, moved, shown)) :
    publishOutcome shown = none ∧
      Offering message moved.pc accepted (published ++ RingEvent.publishedPayloads shown) ∨
    ∃ bytes taken, message = some bytes ∧ publishOutcome shown = some taken ∧
      RingEvent.publishedPayloads shown = [] ∧ moved.pc = .idle ∧
      published = accepted ++ (if taken then [zeroPad bytes] else []) := by
  cases RingProducer.step_inv step with
  | full =>
    cases offering with
    | before => exact .inr ⟨_, false, rfl, rfl, rfl, rfl, (List.append_nil _).symm⟩
  | room =>
    cases offering with
    | before unsent => exact .inl ⟨rfl, by simpa [RingEvent.publishedPayloads] using .before unsent⟩
  | copy | copied =>
    cases offering with
    | before unsent =>
      refine .inl ⟨rfl, ?_⟩
      rw [show RingEvent.publishedPayloads [] = [] from rfl, List.append_nil]
      exact .before unsent
  | @storeSeq _ bytes =>
    cases offering with
    | before unsent =>
      obtain rfl : bytes = _ := unsent
      exact .inl ⟨rfl, .after⟩
  | storeHead =>
    -- the message was published by the store before this one
    cases offering with
    | before => contradiction
    | after => exact .inr ⟨_, true, rfl, rfl, rfl, rfl, rfl⟩

theorem returned_outcome {state after : RingState} {call : RingAction}
    (taken : ringStep state call = some (after, shown)) :
    RingEvent.returnedPayloads shown = (consumeOutcome shown).join.toList := by
  cases ringStep_inv taken with
  | tryPublish | tryConsume | producerCrash | consumerCrash | producerNew | consumerNew => rfl
  | producerStep move => cases RingProducer.step_inv move <;> rfl
  | consumerStep move => cases RingConsumer.step_inv move <;> rfl

end Offering

end TradingPipeline.Bus
