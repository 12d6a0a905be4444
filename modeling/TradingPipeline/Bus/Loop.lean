import TradingPipeline.Bus.Calls
import TradingPipeline.Bus.Client

/-! The closed loop of the feedhandler and the engine over the two rings of the bus.

The event loop, the kernel, the engine and the calls on either ring take their steps in any order.
A program that is in a call waits for it, and takes its outcome in the step in which the call
returns.
-/

set_option autoImplicit false

namespace TradingPipeline.Bus

open Foundation Shmbus
open Feedhandler (Handler HandlerAction HandlerEvent HandlerPc handlerStep feedhandler
  publishOutcome decode PipelineEvent pipeline pipelineStep)

structure BusState (S : Type) where
  handler : Handler
  ticks : RingState
  engine : S
  orders : RingState

inductive BusAction (A : Type) where
  | handler (action : HandlerAction)
  | publishTick
  | ticksProducer
  | consumeTick (out : Payload)
  /-- With the action that takes the answer, should the call return. -/
  | ticksConsumer (answer : A)
  | engine (action : A)
  | publishOrder
  | ordersProducer
  | consumeOrder (out : Payload)
  | ordersConsumer
  deriving DecidableEq

inductive BusEvent (E : Type) where
  | handler (event : HandlerEvent)
  | ticks (event : RingEvent)
  | engine (event : E)
  | orders (event : RingEvent)
  /-- The feedhandler has read an order from its buffer. -/
  | received (order : OrderMsg)
  deriving DecidableEq

section Steps

variable {S A E : Type}

def BusState.ticksMove (state : BusState S) (call : RingAction) :
    Option (BusState S × List (BusEvent E)) :=
  (ringStep state.ticks call).map fun (ring, shown) =>
    ({ state with ticks := ring }, shown.map .ticks)

def BusState.ordersMove (state : BusState S) (call : RingAction) :
    Option (BusState S × List (BusEvent E)) :=
  (ringStep state.orders call).map fun (ring, shown) =>
    ({ state with orders := ring }, shown.map .orders)

/-- What the two rings answer the feedhandler comes from the rings. -/
def internal : HandlerAction → Bool
  | .published _ | .tryConsumeOrder _ => false
  | _ => true

def busStep (client : Client S A E) (state : BusState S) :
    BusAction A → Option (BusState S × List (BusEvent E))
  | .handler action =>
    if internal action then
      (handlerStep state.handler action).map fun (handler, noted) =>
        ({ state with handler := handler }, noted.map .handler)
    else none
  | .publishTick =>
    match state.handler.pc with
    | .publish _ _ bytes => state.ticksMove (.tryPublish bytes)
    | _ => none
  | .ticksProducer =>
    match ringStep state.ticks .producerStep with
    | none => none
    | some (ring, shown) =>
      match publishOutcome shown with
      | none => some ({ state with ticks := ring }, shown.map .ticks)
      | some accepted =>
        (handlerStep state.handler (.published accepted)).map fun (handler, noted) =>
          ({ state with handler := handler, ticks := ring },
            shown.map .ticks ++ noted.map .handler)
  | .consumeTick out =>
    if client.polling state.engine then state.ticksMove (.tryConsume out) else none
  | .ticksConsumer answer =>
    match ringStep state.ticks .consumerStep with
    | none => none
    | some (ring, shown) =>
      match consumeOutcome shown with
      | none => some ({ state with ticks := ring }, shown.map .ticks)
      | some result =>
        if client.takes (result.map decode) answer then
          (client.system.step state.engine answer).map fun (engine, noted) =>
            ({ state with ticks := ring, engine := engine },
              shown.map .ticks ++ noted.map .engine)
        else none
  | .engine action =>
    if client.own action then
      (client.system.step state.engine action).map fun (engine, noted) =>
        ({ state with engine := engine }, noted.map .engine)
    else none
  | .publishOrder =>
    match client.offering state.engine with
    | some order => state.ordersMove (.tryPublish order.bytes)
    | none => none
  | .ordersProducer =>
    match ringStep state.orders .producerStep with
    | none => none
    | some (ring, shown) =>
      match publishOutcome shown with
      | none => some ({ state with orders := ring }, shown.map .orders)
      | some accepted =>
        (client.system.step state.engine (client.published accepted)).map fun (engine, noted) =>
          ({ state with engine := engine, orders := ring },
            shown.map .orders ++ noted.map .engine)
  | .consumeOrder out =>
    if state.handler.pc = .drainOrders then state.ordersMove (.tryConsume out) else none
  | .ordersConsumer =>
    match ringStep state.orders .consumerStep with
    | none => none
    | some (ring, shown) =>
      match consumeOutcome shown with
      | none => some ({ state with orders := ring }, shown.map .orders)
      | some result =>
        (handlerStep state.handler (.tryConsumeOrder result.isSome)).map fun (handler, noted) =>
          ({ state with handler := handler, orders := ring },
            shown.map .orders ++ noted.map .handler ++
              (result.map fun payload => .received (decodeOrder payload)).toList)

/-- The feedhandler and the engine, attached to a fresh bus. -/
def bus (client : Client S A E) (ticks orders : SpscRing) :
    System (BusState S) (BusAction A) (BusEvent E) where
  start := ⟨feedhandler.start, (spsc ticks).start, client.system.start, (spsc orders).start⟩
  step := busStep client

/-- What may be done on the ticks ring. -/
inductive TicksCall (client : Client S A E) (state : BusState S) :
    BusAction A → RingAction → Prop where
  | publish {done : Feedhandler.Batch} {idx : Fin Feedhandler.recvBatch} {bytes : List UInt8}
      (at' : state.handler.pc = .publish done idx bytes) :
      TicksCall client state .publishTick (.tryPublish bytes)
  | producer : TicksCall client state .ticksProducer .producerStep
  | consume {out : Payload} (polling : client.polling state.engine = true) :
      TicksCall client state (.consumeTick out) (.tryConsume out)
  | consumer {answer : A} : TicksCall client state (.ticksConsumer answer) .consumerStep

/-- What may be done on the orders ring. -/
inductive OrdersCall (client : Client S A E) (state : BusState S) :
    BusAction A → RingAction → Prop where
  | publish {order : OrderMsg} (offering : client.offering state.engine = some order) :
      OrdersCall client state .publishOrder (.tryPublish order.bytes)
  | producer : OrdersCall client state .ordersProducer .producerStep
  | consume {out : Payload} (at' : state.handler.pc = .drainOrders) :
      OrdersCall client state (.consumeOrder out) (.tryConsume out)
  | consumer : OrdersCall client state .ordersConsumer .consumerStep

/-- Everything that one step can do. -/
inductive BusStepped (client : Client S A E) (state : BusState S) :
    BusAction A → BusState S → List (BusEvent E) → Prop where
  | handler {action : HandlerAction} {handler : Handler} {noted : List HandlerEvent}
      (inside : internal action = true)
      (taken : handlerStep state.handler action = some (handler, noted)) :
      BusStepped client state (.handler action) { state with handler := handler }
        (noted.map .handler)
  | ticks {action : BusAction A} {call : RingAction} {ring : RingState} {shown : List RingEvent}
      (enters : TicksCall client state action call)
      (taken : ringStep state.ticks call = some (ring, shown))
      (accepts : publishOutcome shown = none) (answers : consumeOutcome shown = none) :
      BusStepped client state action { state with ticks := ring } (shown.map .ticks)
  | published {ring : RingState} {shown : List RingEvent} {accepted : Bool} {handler : Handler}
      {noted : List HandlerEvent} (taken : ringStep state.ticks .producerStep = some (ring, shown))
      (outcome : publishOutcome shown = some accepted)
      (told : handlerStep state.handler (.published accepted) = some (handler, noted)) :
      BusStepped client state .ticksProducer { state with handler := handler, ticks := ring }
        (shown.map .ticks ++ noted.map .handler)
  | consumed {ring : RingState} {shown : List RingEvent} {result : Option Payload} {answer : A}
      {engine : S} {noted : List E} (taken : ringStep state.ticks .consumerStep = some (ring, shown))
      (outcome : consumeOutcome shown = some result)
      (takes : client.takes (result.map decode) answer = true)
      (told : client.system.step state.engine answer = some (engine, noted)) :
      BusStepped client state (.ticksConsumer answer) { state with ticks := ring, engine := engine }
        (shown.map .ticks ++ noted.map .engine)
  | engine {action : A} {engine : S} {noted : List E} (own : client.own action = true)
      (taken : client.system.step state.engine action = some (engine, noted)) :
      BusStepped client state (.engine action) { state with engine := engine } (noted.map .engine)
  | orders {action : BusAction A} {call : RingAction} {ring : RingState} {shown : List RingEvent}
      (enters : OrdersCall client state action call)
      (taken : ringStep state.orders call = some (ring, shown))
      (accepts : publishOutcome shown = none) (answers : consumeOutcome shown = none) :
      BusStepped client state action { state with orders := ring } (shown.map .orders)
  | offered {ring : RingState} {shown : List RingEvent} {accepted : Bool} {engine : S}
      {noted : List E} (taken : ringStep state.orders .producerStep = some (ring, shown))
      (outcome : publishOutcome shown = some accepted)
      (told : client.system.step state.engine (client.published accepted) = some (engine, noted)) :
      BusStepped client state .ordersProducer { state with engine := engine, orders := ring }
        (shown.map .orders ++ noted.map .engine)
  | received {ring : RingState} {shown : List RingEvent} {result : Option Payload}
      {handler : Handler} {noted : List HandlerEvent}
      (taken : ringStep state.orders .consumerStep = some (ring, shown))
      (outcome : consumeOutcome shown = some result)
      (told : handlerStep state.handler (.tryConsumeOrder result.isSome) = some (handler, noted)) :
      BusStepped client state .ordersConsumer { state with handler := handler, orders := ring }
        (shown.map .orders ++ noted.map .handler ++
          (result.map fun payload => .received (decodeOrder payload)).toList)

section Inversion

variable {client : Client S A E} {state after : BusState S} {action : BusAction A}
  {events : List (BusEvent E)} {ring moved : RingState} {shown : List RingEvent}

theorem call_silent {call : RingAction} (taken : ringStep ring call = some (moved, shown)) :
    (call ≠ .producerStep → publishOutcome shown = none) ∧
      (call ≠ .consumerStep → consumeOutcome shown = none) := by
  cases ringStep_inv taken with
  | tryPublish | tryConsume | producerCrash | consumerCrash | producerNew | consumerNew =>
    exact ⟨fun _ => rfl, fun _ => rfl⟩
  | producerStep move =>
    refine ⟨fun other => absurd rfl other, fun _ => ?_⟩
    cases RingProducer.step_inv move <;> rfl
  | consumerStep move =>
    refine ⟨fun _ => ?_, fun other => absurd rfl other⟩
    cases RingConsumer.step_inv move <;> rfl

theorem ticksMove_inv {call : RingAction} (enters : TicksCall client state action call)
    (producing : call ≠ .producerStep) (consuming : call ≠ .consumerStep)
    (step : state.ticksMove call = some (after, events)) :
    BusStepped client state action after events := by
  obtain ⟨⟨ring, shown⟩, taken, made⟩ := Option.map_eq_some_iff.mp step
  cases made
  have silent := call_silent taken
  exact .ticks enters taken (silent.1 producing) (silent.2 consuming)

theorem ordersMove_inv {call : RingAction} (enters : OrdersCall client state action call)
    (producing : call ≠ .producerStep) (consuming : call ≠ .consumerStep)
    (step : state.ordersMove call = some (after, events)) :
    BusStepped client state action after events := by
  obtain ⟨⟨ring, shown⟩, taken, made⟩ := Option.map_eq_some_iff.mp step
  cases made
  have silent := call_silent taken
  exact .orders enters taken (silent.1 producing) (silent.2 consuming)

theorem busStep_inv (step : busStep client state action = some (after, events)) :
    BusStepped client state action after events := by
  cases action with
  | handler action =>
    simp only [busStep, Option.ite_none_right_eq_some, Option.map_eq_some_iff] at step
    obtain ⟨inside, ⟨handler, noted⟩, taken, made⟩ := step
    cases made
    exact .handler inside taken
  | publishTick =>
    simp only [busStep] at step
    split at step
    · next at' => exact ticksMove_inv (.publish at') nofun nofun step
    · contradiction
  | ticksProducer =>
    simp only [busStep] at step
    split at step
    · contradiction
    · next taken =>
      split at step
      · next goesOn =>
        cases step
        exact .ticks .producer taken goesOn ((call_silent taken).2 nofun)
      · next outcome =>
        obtain ⟨⟨handler, noted⟩, told, made⟩ := Option.map_eq_some_iff.mp step
        cases made
        exact .published taken outcome told
  | consumeTick out =>
    simp only [busStep, Option.ite_none_right_eq_some] at step
    obtain ⟨polling, step⟩ := step
    exact ticksMove_inv (.consume polling) nofun nofun step
  | ticksConsumer answer =>
    simp only [busStep] at step
    split at step
    · contradiction
    · next taken =>
      split at step
      · next goesOn =>
        cases step
        exact .ticks .consumer taken ((call_silent taken).1 nofun) goesOn
      · next outcome =>
        simp only [Option.ite_none_right_eq_some, Option.map_eq_some_iff] at step
        obtain ⟨takes, ⟨engine, noted⟩, told, made⟩ := step
        cases made
        exact .consumed taken outcome takes told
  | engine action =>
    simp only [busStep, Option.ite_none_right_eq_some, Option.map_eq_some_iff] at step
    obtain ⟨own, ⟨engine, noted⟩, taken, made⟩ := step
    cases made
    exact .engine own taken
  | publishOrder =>
    simp only [busStep] at step
    split at step
    · next offering => exact ordersMove_inv (.publish offering) nofun nofun step
    · contradiction
  | ordersProducer =>
    simp only [busStep] at step
    split at step
    · contradiction
    · next taken =>
      split at step
      · next goesOn =>
        cases step
        exact .orders .producer taken goesOn ((call_silent taken).2 nofun)
      · next outcome =>
        obtain ⟨⟨engine, noted⟩, told, made⟩ := Option.map_eq_some_iff.mp step
        cases made
        exact .offered taken outcome told
  | consumeOrder out =>
    simp only [busStep, Option.ite_none_right_eq_some] at step
    obtain ⟨at', step⟩ := step
    exact ordersMove_inv (.consume at') nofun nofun step
  | ordersConsumer =>
    simp only [busStep] at step
    split at step
    · contradiction
    · next taken =>
      split at step
      · next goesOn =>
        cases step
        exact .orders .consumer taken ((call_silent taken).1 nofun) goesOn
      · next outcome =>
        obtain ⟨⟨handler, noted⟩, told, made⟩ := Option.map_eq_some_iff.mp step
        cases made
        exact .received taken outcome told

end Inversion
end Steps

end TradingPipeline.Bus
