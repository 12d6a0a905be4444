import TradingPipeline.Bus.Loop
import TradingPipeline.Shmbus.RingLinearization

/-! What travels over the bus arrives, in either direction, once and in order. -/

set_option autoImplicit false

namespace TradingPipeline.Bus

open Foundation Shmbus
open Feedhandler (Handler HandlerAction HandlerEvent HandlerMove handlerStep handlerStep_inv
  HandlerStepped feedhandler publishOutcome decode PipelineEvent pipeline pipelineStep)

namespace BusEvent

variable {E : Type}

def ofHandler : BusEvent E → List HandlerEvent
  | .handler event => [event]
  | _ => []

def ofEngine : BusEvent E → List E
  | .engine event => [event]
  | _ => []

def ofOrders : BusEvent E → List RingEvent
  | .orders event => [event]
  | _ => []

/-- The view of the tick pipeline, whose engine decodes what `try_consume` returns. -/
def ofPipeline : BusEvent E → List PipelineEvent
  | .handler event => [.handler event]
  | .ticks event => .ring event ::
    (RingEvent.returnedPayloads [event]).map fun payload => .decoded (decode payload)
  | _ => []

/-- The orders that the feedhandler has received. -/
def receipts (history : List (BusEvent E)) : List OrderMsg :=
  history.filterMap fun | .received order => some order | _ => none

@[simp] theorem receipts_append (first second : List (BusEvent E)) :
    receipts (first ++ second) = receipts first ++ receipts second :=
  List.filterMap_append

section Views

variable (noted : List HandlerEvent) (shown : List RingEvent) (made : List E)

/-- The orders received with one answer of `try_consume`. -/
abbrev receiving (result : Option Payload) : List (BusEvent E) :=
  (result.map fun payload => .received (decodeOrder payload)).toList

@[simp] theorem receipts_handler : receipts (noted.map (handler (E := E))) = [] := by
  simp [receipts, List.filterMap_map]

@[simp] theorem receipts_ticks : receipts (shown.map (ticks (E := E))) = [] := by
  simp [receipts, List.filterMap_map]

@[simp] theorem receipts_orders : receipts (shown.map (orders (E := E))) = [] := by
  simp [receipts, List.filterMap_map]

@[simp] theorem receipts_engine : receipts (made.map engine) = [] := by
  simp [receipts, List.filterMap_map]

@[simp] theorem ofPipeline_handler :
    (noted.map (handler (E := E))).flatMap ofPipeline = noted.map .handler := by
  rw [List.flatMap_map, List.map_eq_flatMap]
  rfl

@[simp] theorem ofPipeline_engine : (made.map engine).flatMap ofPipeline = [] := by
  simp [List.flatMap_map, ofPipeline]

@[simp] theorem ofPipeline_orders : (shown.map (orders (E := E))).flatMap ofPipeline = [] := by
  simp [List.flatMap_map, ofPipeline]

@[simp] theorem ofEngine_handler : (noted.map (handler (E := E))).flatMap ofEngine = [] := by
  simp [List.flatMap_map, ofEngine]

@[simp] theorem ofEngine_ticks : (shown.map (ticks (E := E))).flatMap ofEngine = [] := by
  simp [List.flatMap_map, ofEngine]

@[simp] theorem ofEngine_orders : (shown.map (orders (E := E))).flatMap ofEngine = [] := by
  simp [List.flatMap_map, ofEngine]

@[simp] theorem ofEngine_engine : (made.map engine).flatMap ofEngine = made := by
  simp [List.flatMap_map, ofEngine]

@[simp] theorem ofOrders_handler : (noted.map (handler (E := E))).flatMap ofOrders = [] := by
  simp [List.flatMap_map, ofOrders]

@[simp] theorem ofOrders_ticks : (shown.map (ticks (E := E))).flatMap ofOrders = [] := by
  simp [List.flatMap_map, ofOrders]

@[simp] theorem ofOrders_engine : (made.map engine).flatMap ofOrders = [] := by
  simp [List.flatMap_map, ofOrders]

@[simp] theorem ofOrders_orders : (shown.map (orders (E := E))).flatMap ofOrders = shown := by
  simp [List.flatMap_map, ofOrders]

section Receiving

variable (result : Option Payload)

@[simp] theorem receipts_receiving :
    receipts (receiving (E := E) result) = result.toList.map decodeOrder := by
  cases result <;> rfl

@[simp] theorem ofPipeline_receiving : (receiving (E := E) result).flatMap ofPipeline = [] := by
  cases result <;> rfl

@[simp] theorem ofEngine_receiving : (receiving (E := E) result).flatMap ofEngine = [] := by
  cases result <;> rfl

@[simp] theorem ofOrders_receiving : (receiving (E := E) result).flatMap ofOrders = [] := by
  cases result <;> rfl

end Receiving
end Views

theorem ofHandler_ofPipeline (history : List (BusEvent E)) :
    PipelineEvent.ofHandler (history.flatMap ofPipeline) = history.flatMap ofHandler := by
  induction history with
  | nil => rfl
  | cons event rest ih =>
    have decodes (payloads : List Payload) : PipelineEvent.ofHandler (payloads.map fun payload =>
        PipelineEvent.decoded (decode payload)) = [] := by
      simp [PipelineEvent.ofHandler, List.filterMap_map]
    rw [List.flatMap_cons, List.flatMap_cons, PipelineEvent.ofHandler_append, ih]
    cases event with
    | handler | engine | orders | received => rfl
    | ticks event => exact congrArg (· ++ rest.flatMap ofHandler) (decodes _)

end BusEvent

open BusEvent

section Components

variable {S A E : Type} {client : Client S A E} {ticksMemory ordersMemory : SpscRing}
  {state after : BusState S} {history events : List (BusEvent E)}

theorem ofPipeline_shown {ring moved : RingState} {call : RingAction} {shown : List RingEvent}
    (taken : ringStep ring call = some (moved, shown)) :
    (shown.map (BusEvent.ticks (E := E))).flatMap ofPipeline = shown.map .ring ++
      (RingEvent.returnedPayloads shown).map fun payload => .decoded (decode payload) := by
  cases ringStep_inv taken with
  | tryPublish | tryConsume | producerCrash | consumerCrash | producerNew | consumerNew => rfl
  | producerStep move => cases RingProducer.step_inv move <;> rfl
  | consumerStep move => cases RingConsumer.step_inv move <;> rfl

theorem producer_returns_nothing {ring moved : RingState} {shown : List RingEvent}
    (taken : ringStep ring .producerStep = some (moved, shown)) :
    RingEvent.returnedPayloads shown = [] := by
  cases ringStep_inv taken with
  | producerStep move => exact Feedhandler.producer_quiet move

/-- The feedhandler and the ticks ring are the tick pipeline. -/
theorem pipeline_reach (reach : (bus client ticksMemory ordersMemory).Reachable state history) :
    (pipeline ticksMemory).Reachable ⟨state.handler, state.ticks⟩ (history.flatMap ofPipeline) := by
  refine reach.project (N := pipeline ticksMemory) (fun state => ⟨state.handler, state.ticks⟩)
    ofPipeline rfl ?_
  intro state action after events _ step
  cases busStep_inv step with
  | engine | orders | offered => exact .inl ⟨rfl, by simp⟩
  | @handler action handler noted inside taken =>
    have inside : Feedhandler.internal action = true := by
      cases action <;> first | rfl | contradiction
    refine .inr ⟨.handler action, trivial, ?_⟩
    simp [pipeline, pipelineStep, inside, taken]
  | @received ring shown result handler noted taken outcome told =>
    refine .inr ⟨.handler (.tryConsumeOrder result.isSome), trivial, ?_⟩
    simp [pipeline, pipelineStep, Feedhandler.internal, told]
  | @ticks _ call ring shown enters taken accepts answers =>
    have view := ofPipeline_shown (E := E) taken
    cases enters with
    | publish at' =>
      refine .inr ⟨.callPublish, trivial, ?_⟩
      simp [pipeline, pipelineStep, Feedhandler.ringMove, at', taken, view]
    | producer =>
      refine .inr ⟨.producerStep, trivial, ?_⟩
      simp [pipeline, pipelineStep, taken, accepts, view, producer_returns_nothing taken]
    | @consume out =>
      refine .inr ⟨.tryConsume out, trivial, ?_⟩
      simp [pipeline, pipelineStep, Feedhandler.ringMove, taken, view]
    | consumer =>
      refine .inr ⟨.consumerStep, trivial, ?_⟩
      simp [pipeline, pipelineStep, Feedhandler.ringMove, taken, view]
  | published taken outcome told =>
    have view := ofPipeline_shown (E := E) taken
    refine .inr ⟨.producerStep, trivial, ?_⟩
    simp [pipeline, pipelineStep, taken, outcome, told, view, producer_returns_nothing taken]
  | consumed taken outcome takes told =>
    have view := ofPipeline_shown (E := E) taken
    refine .inr ⟨.consumerStep, trivial, ?_⟩
    simp [pipeline, pipelineStep, Feedhandler.ringMove, taken, view]

theorem engine_reach (reach : (bus client ticksMemory ordersMemory).Reachable state history) :
    client.system.Reachable state.engine (history.flatMap ofEngine) := by
  refine reach.project BusState.engine ofEngine rfl ?_
  intro state action after events _ step
  cases busStep_inv step with
  | handler | ticks | published | orders | received => exact .inl ⟨rfl, by simp⟩
  | engine own taken => exact .inr ⟨_, trivial, by simpa using taken⟩
  | consumed taken outcome takes told => exact .inr ⟨_, trivial, by simpa using told⟩
  | offered taken outcome told => exact .inr ⟨_, trivial, by simpa using told⟩

theorem orders_reach (reach : (bus client ticksMemory ordersMemory).Reachable state history) :
    (spsc ordersMemory).Reach SafeCrash state.orders (history.flatMap ofOrders) := by
  refine reach.project BusState.orders ofOrders rfl ?_
  intro state action after events _ step
  cases busStep_inv step with
  | handler | ticks | published | consumed | engine => exact .inl ⟨rfl, by simp⟩
  | offered taken => exact .inr ⟨.producerStep, nofun, by simpa [spsc] using taken⟩
  | received taken => exact .inr ⟨.consumerStep, nofun, by simpa [spsc] using taken⟩
  | @orders _ call _ _ enters taken =>
    refine .inr ⟨call, ?_, by simpa [spsc] using taken⟩
    cases enters <;> exact nofun

end Components

section Delivery

variable {S A E : Type} {client : Client S A E} {ticksMemory ordersMemory : SpscRing}
  {state after : BusState S} {history events : List (BusEvent E)}

/-- Where the engine stands to the orders ring. -/
def OfferingAt (client : Client S A E) (state : BusState S) (history : List (BusEvent E)) : Prop :=
  ∃ producer, state.orders.producer = some producer ∧
    Offering ((client.offering state.engine).map OrderMsg.bytes) producer.pc
      ((client.accepted (history.flatMap ofEngine)).map fun order => zeroPad order.bytes)
      (RingEvent.publishedPayloads (history.flatMap ofOrders))

/-- What the engine and the feedhandler have made of what the rings have answered. -/
structure Answered (client : Client S A E) (state : BusState S) (history : List (BusEvent E)) :
    Prop where
  consumed : client.consumptions (history.flatMap ofEngine) =
    (RingEvent.returnedPayloads (PipelineEvent.ofRing (history.flatMap ofPipeline))).map decode
  received : receipts history =
    (RingEvent.returnedPayloads (history.flatMap ofOrders)).map decodeOrder
  counted : state.handler.orderCount = .ofNat (receipts history).length

@[simp] theorem returned_nil : RingEvent.returnedPayloads [] = [] := rfl

@[simp] theorem ofRing_nil : PipelineEvent.ofRing [] = [] := rfl

@[simp] theorem ofRing_ticks (shown : List RingEvent) :
    PipelineEvent.ofRing ((shown.map (BusEvent.ticks (E := E))).flatMap ofPipeline) = shown := by
  induction shown with
  | nil => rfl
  | cons event rest ih =>
    have decodes (payloads : List Payload) : PipelineEvent.ofRing (payloads.map fun payload =>
        PipelineEvent.decoded (decode payload)) = [] := by
      simp [PipelineEvent.ofRing, List.filterMap_map]
    rw [List.map_cons, List.flatMap_cons, PipelineEvent.ofRing_append, ih]
    exact congrArg (event :: · ++ rest) (decodes _)

theorem handlerStep_orderCount {handler moved : Handler} {action : HandlerAction}
    {noted : List HandlerEvent} (taken : handlerStep handler action = some (moved, noted))
    (other : action ≠ .tryConsumeOrder true) : moved.orderCount = handler.orderCount := by
  cases handlerStep_inv taken with
  | order => exact absurd rfl other
  | move | arm | collect | repost | timeout => rfl
  | @handle idx result done nowNs padding =>
    unfold Handler.handleStep
    dsimp only
    split
    · rfl
    · split
      · rfl
      · split <;> rfl
  | @published _ _ _ accepted => cases accepted <;> rfl
  | @complete idx delivery => cases delivery <;> rfl

theorem handlerStep_received {handler moved : Handler} {found : Bool} {noted : List HandlerEvent}
    (taken : handlerStep handler (.tryConsumeOrder found) = some (moved, noted)) :
    moved.orderCount = handler.orderCount + (if found then 1 else 0) := by
  simp only [handlerStep, Option.ite_none_right_eq_some] at taken
  obtain ⟨_, taken⟩ := taken
  cases found <;> cases taken
  · exact (UInt64.add_zero _).symm
  · rfl

theorem OfferingAt.frame (offers : OfferingAt client state history)
    (engine : after.engine = state.engine)
    (producer : after.orders.producer = state.orders.producer)
    (noted : events.flatMap ofEngine = [])
    (published : RingEvent.publishedPayloads (events.flatMap ofOrders) = []) :
    OfferingAt client after (history ++ events) := by
  rw [OfferingAt, List.flatMap_append, List.flatMap_append, RingEvent.publishedPayloads_append,
    noted, published, List.append_nil, List.append_nil, engine, producer]
  exact offers

theorem OfferingAt.engineMove (offers : OfferingAt client state history)
    (orders : after.orders = state.orders)
    (waits : client.offering state.engine = none ∨
      client.offering after.engine = client.offering state.engine)
    (told : client.offers (events.flatMap ofEngine) = []) (shown : events.flatMap ofOrders = []) :
    OfferingAt client after (history ++ events) := by
  obtain ⟨producer, attached, offering⟩ := offers
  refine ⟨producer, orders ▸ attached, ?_⟩
  rw [List.flatMap_append, List.flatMap_append, shown, List.append_nil, Client.accepted_append,
    client.accepted_of_offers told, List.filterMap_nil, List.append_nil]
  rcases waits with none | same
  · rw [none, Option.map_none] at offering
    cases client.offering after.engine with
    | none => exact offering
    | some order => exact offering.take order.bytes
  · rw [same]
    exact offering

theorem OfferingAt.step (lawful : client.Lawful) (offers : OfferingAt client state history)
    {action : BusAction A} (stepped : BusStepped client state action after events) :
    OfferingAt client after (history ++ events) := by
  cases stepped with
  | handler | ticks | published =>
    exact offers.frame rfl rfl (by simp) (by simp [RingEvent.publishedPayloads])
  | engine own taken =>
    obtain ⟨waits, _, told⟩ := lawful.own own taken
    exact offers.engineMove rfl waits (by simpa using told) (by simp)
  | consumed taken outcome takes told =>
    obtain ⟨none, _, _, silent⟩ := lawful.takes takes told
    exact offers.engineMove rfl (.inl none) (by simpa using silent) (by simp)
  | received taken =>
    obtain ⟨same, quiet⟩ := Feedhandler.consumer_quiet (.inl rfl) taken
    exact offers.frame rfl same (by simp) (by simpa using quiet)
  | @orders _ call ring shown enters taken accepts =>
    cases enters with
    | consume | consumer =>
      obtain ⟨same, quiet⟩ := Feedhandler.consumer_quiet (by simp) taken
      exact offers.frame rfl same (by simp) (by simpa using quiet)
    | @publish order offered =>
      obtain ⟨producer, attached, offering⟩ := offers
      simp only [ringStep, attached, Option.map_eq_some_iff, RingProducer.tryPublish,
        Option.ite_none_right_eq_some, Option.some.injEq] at taken
      obtain ⟨called, ⟨⟨idle, _⟩, rfl⟩, made⟩ := taken
      cases made
      rw [idle, offered] at offering
      refine ⟨_, rfl, ?_⟩
      rw [List.flatMap_append, List.flatMap_append, ofEngine_orders, ofOrders_orders, offered,
        RingEvent.publishedPayloads_append, List.append_nil]
      exact (List.append_nil _).symm ▸ offering.call
    | producer =>
      obtain ⟨producer, attached, offering⟩ := offers
      simp only [ringStep, attached, Option.map_eq_some_iff] at taken
      obtain ⟨⟨memory, moved, shown⟩, move, made⟩ := taken
      cases made
      rcases offering.producerStep move with ⟨_, kept⟩ | ⟨_, _, _, outcome, _⟩
      · exact ⟨moved, rfl, by simpa using kept⟩
      · rw [outcome] at accepts
        contradiction
  | @offered ring shown accepted engine noted taken outcome told =>
    obtain ⟨producer, attached, offering⟩ := offers
    obtain ⟨order, offered, none, _, told⟩ := lawful.published told
    simp only [ringStep, attached, Option.map_eq_some_iff] at taken
    obtain ⟨⟨memory, moved, shown⟩, move, made⟩ := taken
    cases made
    rcases offering.producerStep move with ⟨goesOn, _⟩ | ⟨bytes, taken, is, answer, quiet, idle, sent⟩
    · rw [goesOn] at outcome
      contradiction
    · -- what the engine is told is what the ring has done
      rw [outcome, Option.some.injEq] at answer
      rw [offered, Option.map_some, Option.some.injEq] at is
      subst answer is
      refine ⟨moved, rfl, ?_⟩
      rw [none, idle, List.flatMap_append, List.flatMap_append, List.flatMap_append,
        List.flatMap_append, ofEngine_orders, ofEngine_engine, ofOrders_orders, ofOrders_engine,
        List.nil_append, List.append_nil, RingEvent.publishedPayloads_append, quiet, List.append_nil,
        sent, Client.accepted_append, client.accepted_of_offers told]
      cases accepted
      · simpa using Offering.between
      · simpa using Offering.between

theorem Answered.frame (answered : Answered client state history)
    (count : after.handler.orderCount = state.handler.orderCount)
    (consumed : client.consumptions (events.flatMap ofEngine) = [])
    (received : receipts events = [])
    (ticks : RingEvent.returnedPayloads (PipelineEvent.ofRing (events.flatMap ofPipeline)) = [])
    (orders : RingEvent.returnedPayloads (events.flatMap ofOrders) = []) :
    Answered client after (history ++ events) := by
  constructor
  case consumed =>
    rw [List.flatMap_append, List.flatMap_append, Client.consumptions_append,
      PipelineEvent.ofRing_append, RingEvent.returnedPayloads_append, consumed, ticks,
      List.append_nil, List.append_nil, answered.consumed]
  case received =>
    rw [receipts_append, List.flatMap_append, RingEvent.returnedPayloads_append, received, orders,
      List.append_nil, List.append_nil, answered.received]
  case counted => rw [receipts_append, received, List.append_nil, count, answered.counted]

theorem Answered.step (lawful : client.Lawful) (answered : Answered client state history)
    {action : BusAction A} (stepped : BusStepped client state action after events) :
    Answered client after (history ++ events) := by
  cases stepped with
  | handler inside taken =>
    refine answered.frame (handlerStep_orderCount taken ?_) (by simp) (by simp) (by simp) (by simp)
    rintro rfl
    contradiction
  | ticks enters taken accepts answers =>
    have nothing := returned_outcome taken
    rw [answers] at nothing
    exact answered.frame rfl (by simp) (by simp) (by simpa using nothing)
      (by simp)
  | published taken outcome told =>
    exact answered.frame (handlerStep_orderCount told nofun) (by simp) (by simp)
      (by simpa using producer_returns_nothing taken) (by simp)
  | engine own taken =>
    obtain ⟨_, silent, _⟩ := lawful.own own taken
    exact answered.frame rfl (by simpa using silent) (by simp) (by simp)
      (by simp)
  | orders enters taken accepts answers =>
    have nothing := returned_outcome taken
    rw [answers] at nothing
    exact answered.frame rfl (by simp) (by simp)
      (by simp) (by simpa using nothing)
  | offered taken outcome told =>
    obtain ⟨_, _, _, silent, _⟩ := lawful.published told
    exact answered.frame rfl (by simpa using silent) (by simp) (by simp)
      (by simpa using producer_returns_nothing taken)
  | @consumed ring shown result answer engine noted taken outcome takes told =>
    obtain ⟨_, _, consumed, _⟩ := lawful.takes takes told
    have returned := returned_outcome taken
    rw [outcome] at returned
    constructor
    case consumed =>
      simp only [List.flatMap_append, ofEngine_ticks, ofEngine_engine, ofPipeline_engine,
        List.nil_append, List.append_nil, Client.consumptions_append, PipelineEvent.ofRing_append,
        ofRing_ticks, RingEvent.returnedPayloads_append, List.map_append, consumed, returned,
        answered.consumed]
      cases result <;> rfl
    case received => simpa using answered.received
    case counted => simpa using answered.counted
  | @received ring shown result handler noted taken outcome told =>
    have returned := returned_outcome taken
    rw [outcome] at returned
    have count := handlerStep_received told
    constructor
    case consumed => simpa using answered.consumed
    case received =>
      simp only [List.flatMap_append, receipts_append, receipts_orders, receipts_handler,
        receipts_receiving, ofOrders_orders, ofOrders_handler, ofOrders_receiving, List.nil_append,
        List.append_nil, RingEvent.returnedPayloads_append, List.map_append, returned,
        answered.received]
      cases result <;> rfl
    case counted =>
      rw [count, answered.counted]
      cases result with
      | none => simp
      | some payload =>
        simp only [receipts_append, receipts_orders, receipts_handler, receipts_receiving]
        simp [UInt64.ofNat_add]

theorem joined (lawful : client.Lawful)
    (reach : (bus client ticksMemory ordersMemory).Reachable state history) :
    OfferingAt client state history ∧ Answered client state history := by
  induction reach with
  | start =>
    refine ⟨⟨_, rfl, ?_⟩, rfl, rfl, rfl⟩
    have none : client.offering (bus client ticksMemory ordersMemory).start.engine = none :=
      lawful.start
    rw [none]
    exact .between
  | next _ _ step ih =>
    have stepped := busStep_inv step
    exact ⟨ih.1.step lawful stepped, ih.2.step lawful stepped⟩

/-- The order in the orders ring whose `try_publish` has not returned. -/
def inFlight (client : Client S A E) (state : BusState S) : List OrderMsg :=
  match state.orders.producer with
  | some ⟨_, .storeHead⟩ => (client.offering state.engine).toList
  | _ => []

/-- What has come over the bus, in either direction. -/
structure Delivered (client : Client S A E) (state : BusState S) (history : List (BusEvent E)) :
    Prop where
  /-- The engine has consumed what the feedhandler has received and not dropped. -/
  ticks : client.consumptions (history.flatMap ofEngine) <+:
    Feedhandler.ticks (history.flatMap ofHandler)
  /-- The feedhandler has received what the engine was told is in the ring, and at most the one
  order that it will be told of next. -/
  orders : receipts history <+: client.accepted (history.flatMap ofEngine) ++ inFlight client state
  counted : state.handler.orderCount = .ofNat (receipts history).length

theorem OfferingAt.published_eq (offers : OfferingAt client state history) :
    (RingEvent.publishedPayloads (history.flatMap ofOrders)).map decodeOrder =
      client.accepted (history.flatMap ofEngine) ++ inFlight client state := by
  obtain ⟨⟨nextSeq, pc⟩, attached, offering⟩ := offers
  have decodes (orders : List OrderMsg) :
      (orders.map fun order => zeroPad order.bytes).map decodeOrder = orders := by
    rw [List.map_map]
    exact (List.map_congr_left fun order _ => decodeOrder_zeroPad order).trans (List.map_id _)
  rw [offering.published_eq, List.map_append, decodes, inFlight, attached]
  congr 1
  cases pc with
  | idle | loadTail | copy | storeSeq => rfl
  | storeHead =>
    cases client.offering state.engine with
    | none => rfl
    | some order => exact congrArg (fun order => [order]) (decodeOrder_zeroPad order)

theorem bus_delivers (lawful : client.Lawful)
    (reach : (bus client ticksMemory ordersMemory).Reachable state history) :
    Delivered client state history := by
  obtain ⟨offers, consumed, received, counted⟩ := joined lawful reach
  obtain ⟨handler, ring, ⟨producer, attached, coupled⟩, _⟩ := Feedhandler.piped (pipeline_reach reach)
  constructor
  case ticks =>
    rw [consumed, ← ofHandler_ofPipeline]
    exact ((returned_begins ring).map decode).trans coupled.begins
  case orders =>
    rw [received, ← offers.published_eq]
    exact (returned_begins (orders_reach reach)).map decodeOrder
  case counted => exact counted

/-- Whenever the feedhandler finds the orders ring empty, it has received every order that the
engine has been told is in the ring. -/
theorem bus_drained (lawful : client.Lawful)
    (reach : (bus client ticksMemory ordersMemory).Reachable state history)
    (step : busStep client state .ordersConsumer = some (after, events))
    (empty : .orders (.consumeReturn none) ∈ events) :
    receipts history = client.accepted (history.flatMap ofEngine) ++ inFlight client state := by
  obtain ⟨offers, consumed, received, counted⟩ := joined lawful reach
  obtain ⟨queue, queued, linked, _, returned⟩ := ring_refines (orders_reach reach)
  have shown : ∃ ring shown, ringStep state.orders .consumerStep = some (ring, shown) ∧
      .consumeReturn none ∈ shown := by
    simp only [busStep] at step
    split at step
    · contradiction
    · next ring shown taken =>
      refine ⟨ring, shown, taken, ?_⟩
      split at step
      · cases step
        simpa using empty
      · obtain ⟨_, told, made⟩ := Option.map_eq_some_iff.mp step
        cases made
        simpa using empty
  obtain ⟨ring, shown, taken, nothing⟩ := shown
  have none : queue.items = [] := by
    cases attached : state.orders.consumer with
    | none => simp [ringStep, attached] at taken
    | some consumer =>
      obtain ⟨nextSeq, pc⟩ := consumer
      cases pc with
      | idle => simp [ringStep, attached, RingConsumer.step] at taken
      | loadSeq out => exact (linked.empties _ out _ _ attached rfl taken).mp nothing
      | copy offset out =>
        simp only [ringStep, attached, Option.map_eq_some_iff] at taken
        obtain ⟨⟨_, _, _⟩, move, made⟩ := taken
        cases made
        cases RingConsumer.step_inv move <;> simp at nothing
      | storeTail out =>
        simp only [ringStep, attached, Option.map_eq_some_iff] at taken
        obtain ⟨⟨_, _, _⟩, move, made⟩ := taken
        cases made
        cases RingConsumer.step_inv move
        simp at nothing
  have published := (BoundedFifo.puts_eq queued).1
  rw [puts_asQueue, takes_asQueue, ← returned, none, List.append_nil] at published
  rw [received, ← offers.published_eq, published]

end Delivery

end TradingPipeline.Bus
