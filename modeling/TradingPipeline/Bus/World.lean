import TradingPipeline.Bus.Modes
import TradingPipeline.Engine.Outcomes
import TradingPipeline.MockExchange.Numbering
import TradingPipeline.MockExchange.Reversion

/-! The exchange, the network, and the two programs on the bus.

A datagram may arrive at any time after it was sent, any number of times, or never. Nobody else
sends to the feedhandler.
-/

set_option autoImplicit false

namespace TradingPipeline.Bus

open Foundation Shmbus Engine MockExchange BusEvent
open Feedhandler (HandlerEvent HandlerAction Delivery handlerStep_inv)

structure WorldState (K S : Type) [Field K] [LinearOrder K] where
  exchange : Exchange K
  /-- The datagrams that were sent. -/
  wire : List (List UInt8)
  bus : BusState S

inductive WorldAction (K A : Type) [Field K] [LinearOrder K] where
  /-- With the bytes that belong to no field of a tick it sends. -/
  | exchange (action : ExchangeAction K) (padding : Vector UInt8 4)
  | bus (action : BusAction A)

inductive WorldEvent (K E : Type) where
  | exchange (event : ExchangeEvent K)
  | bus (event : BusEvent E)

section Completions

theorem handlings_of_undropped {noted : List HandlerEvent} {bytes : List UInt8} {recvTsNs : UInt64}
    (member : (bytes, recvTsNs) ∈ HandlerEvent.undropped noted) :
    ∃ idx, (idx, .data bytes) ∈ HandlerEvent.handlings noted := by
  induction noted using List.reverseRecOn with
  | nil => exact absurd member List.not_mem_nil
  | append_singleton earlier event ih =>
    have before (here : (bytes, recvTsNs) ∈ HandlerEvent.undropped earlier) :
        ∃ idx, (idx, .data bytes) ∈ HandlerEvent.handlings (earlier ++ [event]) := by
      obtain ⟨idx, found⟩ := ih here
      exact ⟨idx, by simp [found]⟩
    rw [HandlerEvent.undropped, List.foldl_append, List.foldl_cons, List.foldl_nil] at member
    split at member
    · next idx data recvTsNs =>
      rcases List.mem_append.mp member with here | last
      · exact before here
      · cases List.mem_singleton.mp last
        exact ⟨idx, by simp [HandlerEvent.handlings]⟩
    · exact before (List.mem_of_mem_dropLast member)
    · exact before member

theorem completed_of_completions {noted : List HandlerEvent} {idx : Fin Feedhandler.recvBatch}
    {delivery : Delivery} (member : (idx, delivery) ∈ HandlerEvent.completions noted) :
    .completed idx delivery ∈ noted := by
  obtain ⟨event, here, is⟩ := List.mem_filterMap.mp member
  cases event with
  | completed => cases is; exact here
  | handled | published => contradiction

variable {S A E : Type} {client : Client S A E} {idx : Fin Feedhandler.recvBatch} {delivery : Delivery}

theorem mem_ofHandler {event : HandlerEvent} {history : List (BusEvent E)} :
    event ∈ history.flatMap ofHandler ↔ .handler event ∈ history := by
  rw [List.mem_flatMap]
  constructor
  · rintro ⟨shown, member, is⟩
    cases shown with
    | handler => cases List.mem_singleton.mp is; exact member
    | ticks | engine | orders | received => exact absurd is List.not_mem_nil
  · exact fun member => ⟨_, member, List.mem_singleton_self _⟩

theorem completed_of_handlerStep {handler moved : Feedhandler.Handler} {action : HandlerAction}
    {noted : List HandlerEvent}
    (taken : Feedhandler.handlerStep handler action = some (moved, noted))
    (member : .completed idx delivery ∈ noted) : action = .recvCompletes idx delivery := by
  cases handlerStep_inv taken with
  | complete => cases List.mem_singleton.mp member; rfl
  | move | arm | collect | repost | order | timeout => exact absurd member List.not_mem_nil
  | handle | published => cases List.mem_singleton.mp member

theorem completed_of_busStep {before after : BusState S} {action : BusAction A}
    {shown : List (BusEvent E)} (step : busStep client before action = some (after, shown))
    (member : .handler (.completed idx delivery) ∈ shown) :
    action = .handler (.recvCompletes idx delivery) := by
  cases busStep_inv step with
  | @handler _ _ noted inside taken =>
    have here : .completed idx delivery ∈ noted := by simpa using member
    rw [completed_of_handlerStep taken here]
  | @published _ _ _ _ noted taken outcome told =>
    have here : .completed idx delivery ∈ noted := by simpa using member
    cases completed_of_handlerStep told here
  | @received _ _ result _ noted taken outcome told =>
    have here : .completed idx delivery ∈ noted := by
      cases result <;> simpa using member
    cases completed_of_handlerStep told here
  | ticks | engine | orders | consumed | offered => simp at member

end Completions

section Orders

variable {F : Type} {args : StrategyArgs F}

/-- The order takes one side of the tick. -/
structure Takes (args : StrategyArgs F) (tick : MarketTick) (order : OrderMsg) : Prop where
  symbol : order.symbol = tick.symbol
  qty : order.qty = args.qty
  side : order.side = Side.sell.toU8 ∧ order.px = tick.bidPx ∨
    order.side = Side.buy.toU8 ∧ order.px = tick.askPx

theorem takes_of_inlineOrders {seen : List Observed} {order : OrderMsg}
    (member : order ∈ inlineOrders args seen) :
    ∃ observed ∈ seen, Takes args observed.tick order := by
  obtain ⟨earlier, observed, begins, answer⟩ := (strategy args).mem_outputs member
  refine ⟨observed, begins.subset (by simp), ?_⟩
  let state := (strategy args).after
    ((InlineState.start args).symbols, (InlineState.start args).nextOrderId) earlier
  obtain ⟨entry, -, outcome⟩ := strategyStep_outcome args observed state.1 state.2
  change (strategyStep args observed state.1 state.2).order = some order at answer
  rw [answer] at outcome
  cases outcome with
  | order =>
    refine ⟨rfl, rfl, ?_⟩
    rcases orderFor_side args observed _ _ with ⟨-, sell⟩ | ⟨-, buy⟩
    · exact .inl sell
    · exact .inr buy

variable {ticksMemory ordersMemory : SpscRing}

theorem inline_takes {state : BusState (InlineLoop F)} {history : List (BusEvent InlineEvent)}
    (reach : (bus (inlineClient args) ticksMemory ordersMemory).Reachable state history)
    {order : OrderMsg} (received : order ∈ receipts history) :
    ∃ tick ∈ Feedhandler.ticks (history.flatMap ofHandler), Takes args tick order := by
  have consumed := (bus_delivers (inlineClient_lawful args) reach).ticks
  have known : InlineAccounted args state.engine (history.flatMap ofEngine) :=
    inlineAccounted (engine_reach reach)
  obtain ⟨observed, handled, takes⟩ :=
    takes_of_inlineOrders ((inline_faithful reach).subset received)
  refine ⟨observed.tick, consumed.subset ?_, takes⟩
  change observed.tick ∈ InlineEvent.consumptions (history.flatMap ofEngine)
  rw [known.ticks]
  exact List.mem_append_left _ (List.mem_map_of_mem handled)

variable {n : Nat} [NeZero n]

omit [NeZero n] in
theorem consumed_of_kept {history : List (EngineEvent n)} {seen : Observed}
    (member : seen ∈ EngineEvent.kept history) : seen ∈ EngineEvent.consumptions history := by
  induction history using List.reverseRecOn with
  | nil => exact absurd member List.not_mem_nil
  | append_singleton earlier event ih =>
    have before (here : seen ∈ EngineEvent.kept earlier) :
        seen ∈ EngineEvent.consumptions (earlier ++ [event]) := by
      rw [EngineEvent.consumptions_append]
      exact List.mem_append_left _ (ih here)
    rw [EngineEvent.kept, List.foldl_append, List.foldl_cons, List.foldl_nil] at member
    split at member
    · rcases List.mem_append.mp member with here | last
      · exact before here
      · rw [EngineEvent.consumptions_append]
        exact List.mem_append_right _ last
    · exact before (List.mem_of_mem_dropLast member)
    · exact before member

theorem workers_takes {state : BusState (EngineState F n)} {history : List (BusEvent (EngineEvent n))}
    (reach : (bus (workersClient args) ticksMemory ordersMemory).Reachable state history)
    {order : OrderMsg} (received : order ∈ receipts history) :
    ∃ tick ∈ Feedhandler.ticks (history.flatMap ofHandler), Takes args tick order := by
  have consumed := (bus_delivers (workersClient_lawful args) reach).ticks
  rw [workers_consumptions] at consumed
  have listed : anonymous order ∈ ofSymbol order.symbol (receipts history) :=
    List.mem_filter.mpr ⟨List.mem_map_of_mem received, decide_eq_true rfl⟩
  have generated := (workers_faithful reach order.symbol).subset listed
  obtain ⟨other, made, same⟩ := List.mem_map.mp (List.mem_filter.mp generated).1
  obtain ⟨observed, kept, symbol, qty, side⟩ := takes_of_inlineOrders made
  refine ⟨observed.tick, consumed.subset (List.mem_map_of_mem (consumed_of_kept kept)), ?_⟩
  simp only [anonymous, OrderMsg.mk.injEq] at same
  obtain ⟨-, -, sameSymbol, samePx, sameQty, sameSide, -⟩ := same
  exact ⟨sameSymbol ▸ symbol, sameQty ▸ qty, samePx ▸ sameSide ▸ side⟩

end Orders

/-- What the kernel delivers has been sent. -/
def wasSent {A : Type} (wire : List (List UInt8)) : BusAction A → Bool
  | .handler (.recvCompletes _ (.data bytes)) => bytes ∈ wire
  | _ => true

section World

variable {K S A E : Type} [Field K] [LinearOrder K] [FloorRing K]

def worldStep (setup : Setup K) (client : Client S A E) (state : WorldState K S) :
    WorldAction K A → Option (WorldState K S × List (WorldEvent K E))
  | .exchange action padding =>
    (exchangeStep setup state.exchange action).map fun (exchange, shown) =>
      ({ state with
          exchange := exchange
          wire := state.wire ++ (sentTicks shown).map fun sent => sent.2.bytes padding },
        shown.map .exchange)
  | .bus action =>
    if wasSent state.wire action then
      (busStep client state.bus action).map fun (bus, shown) =>
        ({ state with bus := bus }, shown.map .bus)
    else none

namespace WorldEvent

omit [Field K] [LinearOrder K] [FloorRing K]

def ofExchange : WorldEvent K E → List (ExchangeEvent K)
  | .exchange event => [event]
  | .bus _ => []

def ofBus : WorldEvent K E → List (BusEvent E)
  | .bus event => [event]
  | .exchange _ => []

section Views

variable (shown : List (ExchangeEvent K)) (noted : List (BusEvent E))

@[simp] theorem ofExchange_exchange : (shown.map (exchange (E := E))).flatMap ofExchange = shown := by
  simp [List.flatMap_map, ofExchange]

@[simp] theorem ofExchange_bus : (noted.map (bus (K := K))).flatMap ofExchange = [] := by
  simp [List.flatMap_map, ofExchange]

@[simp] theorem ofBus_exchange : (shown.map (exchange (E := E))).flatMap ofBus = [] := by
  simp [List.flatMap_map, ofBus]

@[simp] theorem ofBus_bus : (noted.map (bus (K := K))).flatMap ofBus = noted := by
  simp [List.flatMap_map, ofBus]

end Views
end WorldEvent

open WorldEvent

variable [IsStrictOrderedRing K]

/-- All three programs at their start; nothing has been sent. -/
def world (setup : Setup K) (client : Client S A E) (ticks orders : SpscRing) :
    System (WorldState K S) (WorldAction K A) (WorldEvent K E) where
  start := ⟨(exchange setup).start, [], (bus client ticks orders).start⟩
  step := worldStep setup client

section Parts

variable {setup : Setup K} {client : Client S A E} {ticksMemory ordersMemory : SpscRing}
  {state after : WorldState K S} {action : WorldAction K A}
  {history events : List (WorldEvent K E)}

theorem exchange_reach (reach : (world setup client ticksMemory ordersMemory).Reachable state history) :
    (exchange setup).Reachable state.exchange (history.flatMap ofExchange) := by
  refine reach.project WorldState.exchange ofExchange rfl ?_
  intro state action after events _ step
  cases action with
  | exchange action padding =>
    obtain ⟨⟨moved, shown⟩, taken, made⟩ := Option.map_eq_some_iff.mp step
    cases made
    exact .inr ⟨action, trivial, by simpa [MockExchange.exchange] using taken⟩
  | bus action =>
    obtain ⟨-, step⟩ := Option.ite_none_right_eq_some.mp step
    obtain ⟨⟨moved, shown⟩, taken, made⟩ := Option.map_eq_some_iff.mp step
    cases made
    exact .inl ⟨rfl, by simp⟩

theorem bus_reach (reach : (world setup client ticksMemory ordersMemory).Reachable state history) :
    (bus client ticksMemory ordersMemory).Reachable state.bus (history.flatMap ofBus) := by
  refine reach.project WorldState.bus ofBus rfl ?_
  intro state action after events _ step
  cases action with
  | exchange action padding =>
    obtain ⟨⟨moved, shown⟩, taken, made⟩ := Option.map_eq_some_iff.mp step
    cases made
    exact .inl ⟨rfl, by simp⟩
  | bus action =>
    obtain ⟨-, step⟩ := Option.ite_none_right_eq_some.mp step
    obtain ⟨⟨moved, shown⟩, taken, made⟩ := Option.map_eq_some_iff.mp step
    cases made
    exact .inr ⟨action, trivial, by simpa [Bus.bus] using taken⟩

end Parts

section Sources

variable {setup : Setup K} {client : Client S A E} {ticksMemory ordersMemory : SpscRing}
  {state after : WorldState K S} {history events : List (WorldEvent K E)}

/-- The datagrams on the wire and in the buffers of the feedhandler are ticks of the exchange. -/
structure Carried (state : WorldState K S) (history : List (WorldEvent K E)) : Prop where
  wire : ∀ bytes ∈ state.wire, ∃ idx tick padding,
    (idx, tick) ∈ sentTicks (history.flatMap ofExchange) ∧ bytes = tick.bytes padding
  completed : ∀ idx bytes, .handler (.completed idx (.data bytes)) ∈ history.flatMap ofBus →
    bytes ∈ state.wire

omit [IsStrictOrderedRing K] in
theorem Carried.step {action : WorldAction K A} (carried : Carried state history)
    (step : worldStep setup client state action = some (after, events)) :
    Carried after (history ++ events) := by
  cases action with
  | exchange action padding =>
    obtain ⟨⟨moved, shown⟩, taken, made⟩ := Option.map_eq_some_iff.mp step
    cases made
    constructor
    case wire =>
      intro bytes member
      rw [List.flatMap_append, ofExchange_exchange, sentTicks_append]
      rcases List.mem_append.mp member with earlier | here
      · obtain ⟨idx, tick, padding, sent, is⟩ := carried.wire bytes earlier
        exact ⟨idx, tick, padding, List.mem_append_left _ sent, is⟩
      · obtain ⟨⟨idx, tick⟩, sent, is⟩ := List.mem_map.mp here
        exact ⟨idx, tick, padding, List.mem_append_right _ sent, is.symm⟩
    case completed =>
      intro idx bytes member
      rw [List.flatMap_append, ofBus_exchange, List.append_nil] at member
      exact List.mem_append_left _ (carried.completed idx bytes member)
  | bus action =>
    obtain ⟨allowed, step⟩ := Option.ite_none_right_eq_some.mp step
    obtain ⟨⟨moved, shown⟩, taken, made⟩ := Option.map_eq_some_iff.mp step
    cases made
    constructor
    case wire =>
      intro bytes member
      rw [List.flatMap_append, ofExchange_bus, List.append_nil]
      exact carried.wire bytes member
    case completed =>
      intro idx bytes member
      rw [List.flatMap_append, ofBus_bus] at member
      rcases List.mem_append.mp member with earlier | here
      · exact carried.completed idx bytes earlier
      · cases completed_of_busStep taken here
        exact of_decide_eq_true allowed

theorem carried (reach : (world setup client ticksMemory ordersMemory).Reachable state history) :
    Carried state history := by
  induction reach with
  | start => exact ⟨fun _ member => absurd member List.not_mem_nil, fun _ _ member =>
      absurd member List.not_mem_nil⟩
  | next _ _ step ih => exact ih.step step

/-- The tick was sent by the exchange and carries the feedhandler's time of receipt. -/
def Sent (history : List (WorldEvent K E)) (tick : MarketTick) : Prop :=
  ∃ idx sent recvTsNs, (idx, sent) ∈ sentTicks (history.flatMap ofExchange) ∧
    tick = { sent with recvTsNs := recvTsNs }

theorem ticks_sent (reach : (world setup client ticksMemory ordersMemory).Reachable state history)
    {tick : MarketTick}
    (member : tick ∈ Feedhandler.ticks ((history.flatMap ofBus).flatMap ofHandler)) :
    Sent history tick := by
  have handler := (Feedhandler.piped (pipeline_reach (bus_reach reach))).handler
  rw [ofHandler_ofPipeline] at handler
  obtain ⟨⟨bytes, recvTsNs⟩, kept, rfl⟩ := List.mem_map.mp member
  obtain ⟨idx, found⟩ := handlings_of_undropped kept
  have completed := completed_of_completions
    ((Feedhandler.known handler).placed.order.subset found)
  have source := carried reach
  obtain ⟨place, sent, padding, shown, rfl⟩ :=
    source.wire bytes (source.completed idx bytes (mem_ofHandler.mp completed))
  refine ⟨place, sent, recvTsNs, shown, ?_⟩
  have read := MarketTick.read_bytes sent padding []
  rw [List.append_nil] at read
  rw [Feedhandler.stampedTick, read]

/-- The orders that come back are quotes of the exchange. -/
def OrdersQuoted {F : Type} (setup : Setup K) (args : StrategyArgs F)
    (history : List (WorldEvent K E)) : Prop :=
  ∀ order ∈ receipts (history.flatMap ofBus), ∃ idx mid tick,
    .sent idx mid tick ∈ history.flatMap ofExchange ∧ Quoted mid tick ∧ Takes args tick order ∧
      (symbolNames setup.symbols)[idx]? = some order.symbol ∧ 0 < order.px.toInt

theorem ordersQuoted {F : Type} {args : StrategyArgs F}
    (reach : (world setup client ticksMemory ordersMemory).Reachable state history)
    (takes : ∀ order ∈ receipts (history.flatMap ofBus),
      ∃ tick ∈ Feedhandler.ticks ((history.flatMap ofBus).flatMap ofHandler), Takes args tick order) :
    OrdersQuoted setup args history := by
  intro order received
  obtain ⟨_, passed, symbol, qty, side⟩ := takes order received
  obtain ⟨idx, tick, recvTsNs, sent, rfl⟩ := ticks_sent reach passed
  obtain ⟨mid, shown⟩ := mem_sentTicks.mp sent
  have quoted := (walking_of_reachable (exchange_reach reach)).quoted idx mid tick shown
  refine ⟨idx, mid, tick, shown, quoted, ⟨symbol, qty, side⟩, ?_, ?_⟩
  · obtain ⟨place, bound, is⟩ := List.mem_iff_getElem.mp sent
    have here : (sentTicks (history.flatMap ofExchange))[place]? = some (idx, tick) :=
      is ▸ List.getElem?_eq_getElem bound
    rw [symbol]
    exact ((numbering_of_reachable (exchange_reach reach)).places place idx tick here).2.2
  · have bid := quoted.positive
    have ask := quoted.apart
    rcases side with ⟨-, px⟩ | ⟨-, px⟩ <;> rw [px] <;> dsimp only <;> omega

end Sources

section Quotes

variable {F : Type} {setup : Setup K} {args : StrategyArgs F} {ticksMemory ordersMemory : SpscRing}

/-- In either mode of the engine, whatever the network loses, delays, doubles or reorders: each
order that the feedhandler receives is for a symbol of the exchange, at the price at which one of
its ticks quoted the side that the order takes. -/
theorem orders_quoted :
    (∀ state history, (world setup (inlineClient args) ticksMemory ordersMemory).Reachable
      state history → OrdersQuoted setup args history) ∧
    ∀ n [NeZero n] state history,
      (world setup (workersClient (n := n) args) ticksMemory ordersMemory).Reachable
        state history → OrdersQuoted setup args history :=
  ⟨fun _ _ reach => ordersQuoted reach fun _ => inline_takes (bus_reach reach),
    fun _ _ _ _ reach => ordersQuoted reach fun _ => workers_takes (bus_reach reach)⟩

end Quotes

end World

/-- One tick of the exchange, delivered twice, comes back as an order. -/
def tickThereAndBack : List (WorldAction ℚ InlineAction) :=
  let draw := quietSetup.draws 0
  let sym := (SymState.new (packSymbol ['A']) (Anchor.drawn draw)).next draw
  [.exchange .main (.replicate 4 0), .exchange .main (.replicate 4 0),
    .exchange (.publish draw 7 (.last 899) (.last 899)) (.replicate 4 0)] ++
    (tickToOrder (sym.tick 1 7 (.last 899) (.last 899))).map .bus

theorem orders_quoted_order : ∃ history : List (WorldEvent ℚ InlineEvent),
    (receipts (history.flatMap WorldEvent.ofBus)).length = 1 ∧
      OrdersQuoted quietSetup eagerArgs history := by
  obtain ⟨state, history, reach, found⟩ := System.exists_reach_of_run
    (world quietSetup (inlineClient eagerArgs) .zeroed .zeroed) (fun _ _ => True) tickThereAndBack
    (fun final => (receipts (final.2.flatMap WorldEvent.ofBus)).length = 1)
    (System.allowedAlong_true _ _ _) (by decide +kernel)
  exact ⟨history, of_decide_eq_true found, orders_quoted.1 state history reach⟩

end TradingPipeline.Bus
