import TradingPipeline.Bus.Delivery
import TradingPipeline.Engine.Agreement

/-! Both modes of the trading engine, attached to the feedhandler by the bus. -/

set_option autoImplicit false

namespace TradingPipeline.Bus

open Foundation Shmbus Engine BusEvent

/-- The offers that the orders ring took, without what it answered. -/
def taken (offers : List (OrderMsg × Bool)) : List OrderMsg :=
  (offers.filter Prod.snd).map Prod.fst

section Accepted

variable {S A E : Type} (client : Client S A E)

theorem accepted_eq (history : List E) : client.accepted history = taken (client.offers history) := by
  rw [Client.accepted, taken]
  induction client.offers history with
  | nil => rfl
  | cons offer rest ih =>
    obtain ⟨order, accepted⟩ := offer
    cases accepted <;> simpa using ih

theorem inFlight_sublist (state : BusState S) :
    (inFlight client state).Sublist (client.offering state.engine).toList := by
  unfold inFlight
  split
  · exact .refl _
  · exact List.nil_sublist _

end Accepted

section Inline

variable {F : Type} {args : StrategyArgs F} {ticksMemory ordersMemory : SpscRing}
  {state after : BusState (InlineLoop F)} {history events : List (BusEvent InlineEvent)}

theorem inline_faithful
    (reach : (bus (inlineClient args) ticksMemory ordersMemory).Reachable state history) :
    (receipts history).Sublist
      (inlineOrders args (InlineEvent.handlings (history.flatMap ofEngine))) := by
  have orders := (bus_delivers (inlineClient_lawful args) reach).orders
  have known : InlineAccounted args state.engine (history.flatMap ofEngine) :=
    inlineAccounted (engine_reach reach)
  have offered : (inlineClient args).offers (history.flatMap ofEngine) =
      InlineEvent.offers (history.flatMap ofEngine) := rfl
  rw [accepted_eq, offered] at orders
  rw [known.orders]
  exact orders.sublist.trans ((List.filter_sublist.map Prod.fst).append (inFlight_sublist _ _))

/-- What the single-threaded engine and the feedhandler make of each other's messages. -/
structure InlineServed (args : StrategyArgs F) (state : BusState (InlineLoop F))
    (history : List (BusEvent InlineEvent)) : Prop where
  /-- The engine consumes what the feedhandler has received and not dropped. -/
  consumed : InlineEvent.consumptions (history.flatMap ofEngine) <+:
    Feedhandler.ticks (history.flatMap ofHandler)
  handled : InlineEvent.consumptions (history.flatMap ofEngine) =
    (InlineEvent.handlings (history.flatMap ofEngine)).map Observed.tick ++ state.engine.pc.tick
  /-- What it offers is what its strategy makes of the ticks. -/
  generated : inlineOrders args (InlineEvent.handlings (history.flatMap ofEngine)) =
    (InlineEvent.offers (history.flatMap ofEngine)).map Prod.fst ++ state.engine.pc.order.toList
  received : receipts history <+: taken (InlineEvent.offers (history.flatMap ofEngine)) ++
    inFlight (inlineClient args) state
  /-- No order is made up on the way, doubled or overtaken. -/
  faithful : (receipts history).Sublist
    (inlineOrders args (InlineEvent.handlings (history.flatMap ofEngine)))
  seen : state.engine.run.ticksSeen =
    .ofNat (InlineEvent.consumptions (history.flatMap ofEngine)).length
  sent : state.engine.run.ordersSent =
    .ofNat (taken (InlineEvent.offers (history.flatMap ofEngine))).length
  counted : state.handler.orderCount = .ofNat (receipts history).length

theorem inline_served
    (reach : (bus (inlineClient args) ticksMemory ordersMemory).Reachable state history) :
    InlineServed args state history := by
  obtain ⟨ticks, orders, counted⟩ := bus_delivers (inlineClient_lawful args) reach
  have known : InlineAccounted args state.engine (history.flatMap ofEngine) :=
    inlineAccounted (engine_reach reach)
  have offered : (inlineClient args).offers (history.flatMap ofEngine) =
      InlineEvent.offers (history.flatMap ofEngine) := rfl
  rw [accepted_eq, offered] at orders
  constructor
  case consumed => exact ticks
  case handled => exact known.ticks
  case generated => exact known.orders
  case received => exact orders
  case faithful => exact inline_faithful reach
  case seen => exact known.seen
  case sent =>
    rw [known.sent, taken, List.length_map]
  case counted => exact counted

/-- Once the engine is not in `try_publish` and the feedhandler finds the orders ring empty, the
two programs have counted the same orders. -/
theorem inline_drained
    (reach : (bus (inlineClient args) ticksMemory ordersMemory).Reachable state history)
    (settled : state.engine.pc.order = none)
    (step : busStep (inlineClient args) state .ordersConsumer = some (after, events))
    (empty : .orders (.consumeReturn none) ∈ events) :
    receipts history = taken (InlineEvent.offers (history.flatMap ofEngine)) ∧
      state.handler.orderCount = state.engine.run.ordersSent := by
  have lawful := inlineClient_lawful args
  have known : InlineAccounted args state.engine (history.flatMap ofEngine) :=
    inlineAccounted (engine_reach reach)
  have all := bus_drained lawful reach step empty
  have offered : (inlineClient args).offers (history.flatMap ofEngine) =
      InlineEvent.offers (history.flatMap ofEngine) := rfl
  have none : inFlight (inlineClient args) state = [] := by
    have offers : (inlineClient args).offering state.engine = none := settled
    have sublist := inFlight_sublist (inlineClient args) state
    rw [offers] at sublist
    exact List.sublist_nil.mp sublist
  rw [accepted_eq, offered, none, List.append_nil] at all
  refine ⟨all, ?_⟩
  rw [(bus_delivers lawful reach).counted, all, known.sent, taken, List.length_map]

/-- The feedhandler receives a datagram, publishes its tick and starts to look for orders. -/
def receiveTick {A : Type} (tick : MarketTick) : List (BusAction A) :=
  [.handler (.recvCompletes 0 (.data (tick.bytes (.replicate 4 0)))), .handler (.loopHead false),
    .handler (.armTimeout true), .handler (.submitAndWait .ok), .handler .completionQueue,
    .handler (.handle 9 (.replicate 4 0)), .publishTick] ++
    List.replicate (slotPayload + 3) .ticksProducer ++
    [.handler (.submitRecv true), .handler (.handle 9 (.replicate 4 0))]

/-- The engine consumes the tick and looks at it. -/
def consumeTick (tick : MarketTick) (nowNs : UInt64) : List (BusAction InlineAction) :=
  [.engine .loopHead, .engine (.checkDeadline false), .consumeTick (zeroPad [])] ++
    List.replicate (slotPayload + 2)
      (.ticksConsumer (.tryConsume (some { tick with recvTsNs := 9 }))) ++
    [.engine (.handle 10 nowNs)]

/-- Two ticks of one symbol; the order that the second yields goes back. -/
def tickToOrder (tick : MarketTick) : List (BusAction InlineAction) :=
  receiveTick tick ++ [.consumeOrder (zeroPad []), .ordersConsumer] ++ consumeTick tick 5 ++
    receiveTick tick ++ consumeTick tick 7 ++
    .publishOrder :: List.replicate (slotPayload + 3) .ordersProducer ++
    .consumeOrder (zeroPad []) :: List.replicate (slotPayload + 2) .ordersConsumer ++
    [.consumeOrder (zeroPad [])]

theorem tickToOrder_run : ∃ state history after events,
    (bus (inlineClient eagerArgs) .zeroed .zeroed).Reachable state history ∧
      (receipts history).length = 1 ∧ state.engine.pc.order = none ∧
      busStep (inlineClient eagerArgs) state .ordersConsumer = some (after, events) ∧
      .orders (.consumeReturn none) ∈ events := by
  obtain ⟨state, history, reach, found⟩ := System.exists_reach_of_run
    (bus (inlineClient eagerArgs) .zeroed .zeroed) (fun _ _ => True)
    (tickToOrder (quote (.replicate 8 65)))
    (fun final => (receipts final.2).length = 1 ∧ final.1.engine.pc.order = none ∧
      (busStep (inlineClient eagerArgs) final.1 .ordersConsumer).any fun result =>
        .orders (.consumeReturn none) ∈ result.2)
    (System.allowedAlong_true _ _ _) (by decide +kernel)
  obtain ⟨one, settled, more⟩ := of_decide_eq_true found
  obtain ⟨⟨after, events⟩, step, empty⟩ := (Option.any_eq_true _ _).mp more
  exact ⟨state, history, after, events, reach, one, settled, step, of_decide_eq_true empty⟩

theorem inline_served_order : ∃ state history, (receipts history).length = 1 ∧
    InlineServed eagerArgs state history := by
  obtain ⟨state, history, _, _, reach, one, _⟩ := tickToOrder_run
  exact ⟨state, history, one, inline_served reach⟩

theorem inline_drained_order :
    ∃ (state : BusState (InlineLoop ℚ)) (history : List (BusEvent InlineEvent)),
      (receipts history).length = 1 ∧
      receipts history = taken (InlineEvent.offers (history.flatMap ofEngine)) ∧
      state.handler.orderCount = state.engine.run.ordersSent := by
  obtain ⟨state, history, _, _, reach, one, settled, step, empty⟩ := tickToOrder_run
  exact ⟨state, history, one, inline_drained reach settled step empty⟩

end Inline

section Workers

open EngineEvent

variable {F : Type} {n : Nat} [NeZero n] {args : StrategyArgs F}

section Lanes

variable {state : EngineState F n} {history : List (EngineEvent n)}

theorem offering_begins (known : Accounted args state history) (symbol : Symbol) :
    ofSymbol symbol ((offers history ++ state.main.pc.order).map Prod.snd) <+:
      generatedFor symbol history := by
  have inOrder (id : Fin n) : lane id (offers history ++ state.main.pc.order) <+:
      lane id (emissions history) := by
    refine ⟨lane id state.orders ++ (state.workers id).pc.order, ?_⟩
    rw [known.orders id]
    simp only [lane_append, List.append_assoc]
  have routed := lane_filter (target symbol : Fin n) (fun order : OrderMsg => order.symbol = symbol)
  have emitted := routed (emissions history) fun entry member is => by
    rw [known.routed.orders entry member, of_decide_eq_true is]
  have offered := routed (offers history ++ state.main.pc.order) fun entry member is => by
    -- what is offered was emitted by the same worker
    obtain ⟨owner, order⟩ := entry
    have emitted : order ∈ lane owner (emissions history) :=
      (inOrder owner).subset ((mem_lane _ _).mpr member)
    rw [known.routed.orders _ ((mem_lane _ _).mp emitted), of_decide_eq_true is]
  rw [generatedFor, ofSymbol_eq, ofSymbol_eq, ← emitted, ← offered]
  exact ((inOrder _).filter _).map anonymous

theorem generated_begins (known : Accounted args state history) (symbol : Symbol) :
    generatedFor symbol history <+: ofSymbol symbol (inlineOrders args (kept history)) := by
  have handled : lane (target symbol : Fin n) (handlings history) <+:
      lane (target symbol) (deliveries history) := ⟨_, (known.ticks (target symbol)).symm⟩
  have arrived : delivered history <+: kept history := ⟨_, known.kept.places.symm⟩
  rw [generatedFor_eq known, inlineOrders_symbol]
  apply Transducer.outputs_mono
  refine (handled.filter _).trans ?_
  rw [lane_delivered known]
  exact arrived.filter _

theorem workers_consumptions (args : StrategyArgs F) (history : List (EngineEvent n)) :
    (workersClient args).consumptions history = (consumptions history).map Observed.tick := by
  rw [consumptions, List.map_filterMap]
  refine List.filterMap_congr fun event _ => ?_
  cases event <;> rfl

theorem workers_offers (args : StrategyArgs F) (history : List (EngineEvent n)) :
    ((workersClient args).offers history).map Prod.fst = (offers history).map Prod.snd := by
  rw [offers, Client.offers, List.map_filterMap, List.map_filterMap]
  refine List.filterMap_congr fun event _ => ?_
  cases event <;> rfl

theorem length_workers_taken (args : StrategyArgs F) (history : List (EngineEvent n)) :
    (taken ((workersClient args).offers history)).length = (outcomes history).count true := by
  rw [taken, List.length_map]
  induction history with
  | nil => rfl
  | cons event rest ih =>
    cases event with
    | offered _ _ accepted =>
      cases accepted
      · exact ih
      · exact (congrArg Nat.succ ih).trans List.count_cons_self.symm
    | stopped | consumed | delivered | dropped | refused | handled | emitted => exact ih

end Lanes

variable {ticksMemory ordersMemory : SpscRing} {state after : BusState (EngineState F n)}
  {history events : List (BusEvent (EngineEvent n))}

theorem workers_faithful
    (reach : (bus (workersClient args) ticksMemory ordersMemory).Reachable state history)
    (symbol : Symbol) : (ofSymbol symbol (receipts history)).Sublist
      (ofSymbol symbol (inlineOrders args (kept (history.flatMap ofEngine)))) := by
  have orders := (bus_delivers (workersClient_lawful args) reach).orders
  have known : Accounted args state.engine (history.flatMap ofEngine) :=
    accounted (engine_reach reach)
  have hand : (inFlight (workersClient args) state).Sublist
      (state.engine.main.pc.order.map Prod.snd) := by
    refine (inFlight_sublist _ _).trans ?_
    change (state.engine.main.pc.order.head?.map Prod.snd).toList.Sublist _
    cases state.engine.main.pc <;> exact .refl _
  have offering : (receipts history).Sublist
      ((offers (history.flatMap ofEngine) ++ state.engine.main.pc.order).map Prod.snd) := by
    rw [List.map_append, ← workers_offers args]
    rw [accepted_eq] at orders
    exact orders.sublist.trans ((List.filter_sublist.map Prod.fst).append hand)
  have first := (offering_begins known symbol).trans (generated_begins known symbol)
  exact ((offering.map anonymous).filter _).trans first.sublist

/-- What the engine with workers and the feedhandler make of each other's messages. -/
structure WorkersServed (args : StrategyArgs F) (state : BusState (EngineState F n))
    (history : List (BusEvent (EngineEvent n))) : Prop where
  /-- The dispatcher consumes what the feedhandler has received and not dropped. -/
  consumed : (consumptions (history.flatMap ofEngine)).map Observed.tick <+:
    Feedhandler.ticks (history.flatMap ofHandler)
  received : receipts history <+:
    taken ((workersClient args).offers (history.flatMap ofEngine)) ++
      inFlight (workersClient args) state
  /-- For each symbol the feedhandler receives orders that the single-threaded engine would have
  generated from the ticks kept, in the same order. -/
  faithful : ∀ symbol, (ofSymbol symbol (receipts history)).Sublist
    (ofSymbol symbol (inlineOrders args (kept (history.flatMap ofEngine))))
  seen : state.engine.main.ticksSeen = .ofNat (consumptions (history.flatMap ofEngine)).length
  sent : state.engine.main.ordersSent =
    .ofNat (taken ((workersClient args).offers (history.flatMap ofEngine))).length
  counted : state.handler.orderCount = .ofNat (receipts history).length

theorem workers_served
    (reach : (bus (workersClient args) ticksMemory ordersMemory).Reachable state history) :
    WorkersServed args state history := by
  obtain ⟨ticks, orders, counted⟩ := bus_delivers (workersClient_lawful args) reach
  rw [accepted_eq] at orders
  rw [workers_consumptions] at ticks
  have known : Accounted args state.engine (history.flatMap ofEngine) :=
    accounted (engine_reach reach)
  constructor
  case consumed => exact ticks
  case received => exact orders
  case faithful => exact workers_faithful reach
  case seen => exact known.counted.seen
  case sent => rw [length_workers_taken, known.counted.sent]
  case counted => exact counted

/-- The dispatcher consumes a tick and hands it to a worker. -/
def dispatchTick (tick : MarketTick) (nowNs : UInt64) : List (BusAction (EngineAction 1)) :=
  let found : Consumed := ⟨⟨{ tick with recvTsNs := 9 }, nowNs⟩, 10, 10⟩
  [.engine .main, .engine (.checkDeadline false), .consumeTick (zeroPad [])] ++
    List.replicate (slotPayload + 2) (.ticksConsumer (.tryConsume (some found))) ++
    [.engine .main, .engine .main]

/-- Two ticks of one symbol go through the worker; its order goes back. -/
def tickToWorkerOrder (tick : MarketTick) : List (BusAction (EngineAction 1)) :=
  receiveTick tick ++ [.consumeOrder (zeroPad []), .ordersConsumer] ++ dispatchTick tick 5 ++
    receiveTick tick ++ dispatchTick tick 7 ++
    List.replicate 7 (.engine (.worker ⟨0, Nat.one_pos⟩ 0)) ++
    [.engine .main, .engine (.checkDeadline false), .consumeTick (zeroPad []),
      .ticksConsumer (.tryConsume none), .engine .main] ++
    .publishOrder :: List.replicate (slotPayload + 3) .ordersProducer ++
    .consumeOrder (zeroPad []) :: List.replicate (slotPayload + 2) .ordersConsumer

theorem workers_served_order : ∃ state history, (receipts history).length = 1 ∧
    WorkersServed (n := 1) eagerArgs state history := by
  obtain ⟨state, history, reach, found⟩ := System.exists_reach_of_run
    (bus (workersClient (n := 1) eagerArgs) .zeroed .zeroed) (fun _ _ => True)
    (tickToWorkerOrder (quote (.replicate 8 65))) (fun final => (receipts final.2).length = 1)
    (System.allowedAlong_true _ _ _) (by decide +kernel)
  exact ⟨state, history, of_decide_eq_true found, workers_served reach⟩

end Workers

end TradingPipeline.Bus
