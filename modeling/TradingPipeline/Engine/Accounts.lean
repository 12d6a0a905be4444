import Mathlib.Data.Bool.Count
import TradingPipeline.Engine.Threads
import TradingPipeline.Foundation.Lanes

/-! Where every tick and every order of a run is.

The history says what happened to each tick and order; the invariants say that whatever was
handed on and has not arrived is in a channel or in a hand. They hold for any number of
workers and any schedule.
-/

set_option autoImplicit false

namespace TradingPipeline.Engine

open Foundation Shmbus

namespace EngineEvent

variable {n : Nat}

def consumptions (history : List (EngineEvent n)) : List Observed :=
  history.filterMap fun | .consumed seen => some seen | _ => none

def deliveries (history : List (EngineEvent n)) : List (Fin n × Observed) :=
  history.filterMap fun | .delivered id item => some (id, item.seen) | _ => none

def drops (history : List (EngineEvent n)) : List Observed :=
  history.filterMap fun | .dropped seen => some seen | _ => none

def refusals (history : List (EngineEvent n)) : List Observed :=
  history.filterMap fun | .refused seen => some seen | _ => none

def handlings (history : List (EngineEvent n)) : List (Fin n × Observed) :=
  history.filterMap fun | .handled id seen => some (id, seen) | _ => none

def emissions (history : List (EngineEvent n)) : List (Fin n × OrderMsg) :=
  history.filterMap fun | .emitted id order => some (id, order) | _ => none

def offers (history : List (EngineEvent n)) : List (Fin n × OrderMsg) :=
  history.filterMap fun | .offered id order _ => some (id, order) | _ => none

/-- What the orders ring has answered. -/
def outcomes (history : List (EngineEvent n)) : List Bool :=
  history.filterMap fun | .offered _ _ accepted => some accepted | _ => none

/-- The consumed ticks without those that were dropped because a channel was full. -/
def kept (history : List (EngineEvent n)) : List Observed :=
  history.foldl (fun ticks event =>
    match event with
    | .consumed seen => ticks ++ [seen]
    | .dropped _ => ticks.dropLast
    | _ => ticks) []

section Append

variable (first second : List (EngineEvent n))

@[simp] theorem consumptions_append :
    consumptions (first ++ second) = consumptions first ++ consumptions second :=
  List.filterMap_append

@[simp] theorem deliveries_append :
    deliveries (first ++ second) = deliveries first ++ deliveries second :=
  List.filterMap_append

@[simp] theorem drops_append : drops (first ++ second) = drops first ++ drops second :=
  List.filterMap_append

@[simp] theorem refusals_append : refusals (first ++ second) = refusals first ++ refusals second :=
  List.filterMap_append

@[simp] theorem handlings_append :
    handlings (first ++ second) = handlings first ++ handlings second :=
  List.filterMap_append

@[simp] theorem emissions_append :
    emissions (first ++ second) = emissions first ++ emissions second :=
  List.filterMap_append

@[simp] theorem offers_append : offers (first ++ second) = offers first ++ offers second :=
  List.filterMap_append

@[simp] theorem outcomes_append :
    outcomes (first ++ second) = outcomes first ++ outcomes second :=
  List.filterMap_append

end Append

theorem length_offers (history : List (EngineEvent n)) :
    (offers history).length = (outcomes history).count true + (outcomes history).count false := by
  rw [List.count_true_add_count_false]
  induction history with
  | nil => rfl
  | cons event rest ih =>
    cases event with
    | offered => exact congrArg Nat.succ ih
    | stopped | consumed | delivered | dropped | refused | handled | emitted => exact ih

section Kept

variable {history events : List (EngineEvent n)}

theorem kept_consumed (seen : Observed) :
    kept (history ++ [.consumed seen]) = kept history ++ [seen] := by
  rw [kept, List.foldl_append]
  rfl

theorem kept_dropped (seen : Observed) :
    kept (history ++ [.dropped seen]) = (kept history).dropLast := by
  rw [kept, List.foldl_append]
  rfl

theorem kept_quiet (consumed : consumptions events = []) (dropped : drops events = []) :
    kept (history ++ events) = kept history := by
  induction events generalizing history with
  | nil => rw [List.append_nil]
  | cons event rest ih =>
    rw [← List.singleton_append, ← List.append_assoc]
    cases event with
    | consumed | dropped => contradiction
    | stopped | delivered | refused | handled | emitted | offered =>
      rw [ih consumed dropped, kept, List.foldl_append]
      rfl

end Kept
end EngineEvent

section Hands

variable {n : Nat}

/-- The tick that the dispatcher has consumed but not sent on. -/
def MainPc.tick : MainPc n → List Observed
  | .trySend item => [item.seen]
  | _ => []

/-- The order that the main thread has received but not offered to the ring. -/
def MainPc.order : MainPc n → List (Fin n × OrderMsg)
  | .publish id order | .finalPublish id order => [(id, order)]
  | _ => []

def WorkerPc.item : WorkerPc → List Observed
  | .handle item => [item.seen]
  | _ => []

def WorkerPc.order : WorkerPc → List OrderMsg
  | .send order => [order]
  | _ => []

section Places

variable (item : WorkItem) (order : OrderMsg) (id : Fin n)

@[simp] theorem item_handle : (WorkerPc.handle item).item = [item.seen] := rfl
@[simp] theorem item_send : (WorkerPc.send order).item = [] := rfl
@[simp] theorem item_loopHead : WorkerPc.loopHead.item = [] := rfl
@[simp] theorem item_recvTimeout : WorkerPc.recvTimeout.item = [] := rfl
@[simp] theorem item_returned : WorkerPc.returned.item = [] := rfl
@[simp] theorem tick_trySend : (MainPc.trySend item : MainPc n).tick = [item.seen] := rfl
@[simp] theorem order_handle : (WorkerPc.handle item).order = [] := rfl
@[simp] theorem order_send : (WorkerPc.send order).order = [order] := rfl
@[simp] theorem order_loopHead : WorkerPc.loopHead.order = [] := rfl
@[simp] theorem order_recvTimeout : WorkerPc.recvTimeout.order = [] := rfl
@[simp] theorem order_returned : WorkerPc.returned.order = [] := rfl
@[simp] theorem order_publish : (MainPc.publish id order).order = [(id, order)] := rfl
@[simp] theorem order_finalPublish : (MainPc.finalPublish id order).order = [(id, order)] := rfl
@[simp] theorem order_drain : (MainPc.drain : MainPc n).order = [] := rfl
@[simp] theorem order_finalDrain : (MainPc.finalDrain : MainPc n).order = [] := rfl
@[simp] theorem order_tryConsume : (MainPc.tryConsume : MainPc n).order = [] := rfl
@[simp] theorem order_trySend : (MainPc.trySend item : MainPc n).order = [] := rfl
@[simp] theorem order_dropSenders : (MainPc.dropSenders : MainPc n).order = [] := rfl
@[simp] theorem order_join (next : Nat) : (MainPc.join next : MainPc n).order = [] := rfl

end Places
end Hands

namespace EngineState

variable {F : Type} {n : Nat} (state : EngineState F n) (pc : MainPc n) (id other : Fin n)
  (worker : Worker F)

@[simp] theorem setPc_stop : (state.setPc pc).stop = state.stop := rfl
@[simp] theorem setPc_pc : (state.setPc pc).main.pc = pc := rfl
@[simp] theorem setPc_workers : (state.setPc pc).workers = state.workers := rfl
@[simp] theorem setPc_orders : (state.setPc pc).orders = state.orders := rfl
@[simp] theorem setWorker_stop : (state.setWorker id worker).stop = state.stop := rfl
@[simp] theorem setWorker_main : (state.setWorker id worker).main = state.main := rfl
@[simp] theorem setWorker_orders : (state.setWorker id worker).orders = state.orders := rfl

@[simp] theorem setWorker_self : (state.setWorker id worker).workers id = worker :=
  Function.update_self ..

theorem setWorker_other (different : other ≠ id) :
    (state.setWorker id worker).workers other = state.workers other :=
  Function.update_of_ne different ..

end EngineState

section Handling

variable {F : Type} {n : Nat} (args : StrategyArgs F) (worker : Worker F) (item : WorkItem)
  (nowNs : UInt64) (id : Fin n) (seen : Observed) (order : Option OrderMsg)

@[simp] theorem handled_channel : (worker.handled args item nowNs).channel = worker.channel := rfl

@[simp] theorem handled_orders : (worker.handled args item nowNs).stats.orders =
    worker.stats.orders +
      .ofNat (strategyStep args item.seen worker.symbols worker.nextOrderId).order.toList.length := by
  unfold Worker.handled
  dsimp only
  cases (strategyStep args item.seen worker.symbols worker.nextOrderId).order <;> rfl

@[simp] theorem handled_item : (worker.handled args item nowNs).pc.item = [] := by
  unfold Worker.handled
  dsimp only
  split <;> rfl

@[simp] theorem handled_order : (worker.handled args item nowNs).pc.order =
    (strategyStep args item.seen worker.symbols worker.nextOrderId).order.toList := by
  unfold Worker.handled
  dsimp only
  split <;> next is => rw [is]; rfl

/-- What handling one item shows. -/
abbrev handlingEvents : List (EngineEvent n) :=
  .handled id seen :: (order.map (EngineEvent.emitted id)).toList

@[simp] theorem deliveries_handling :
    EngineEvent.deliveries (handlingEvents id seen order) = [] := by
  cases order <;> rfl

@[simp] theorem handlings_handling :
    EngineEvent.handlings (handlingEvents id seen order) = [(id, seen)] := by
  cases order <;> rfl

@[simp] theorem emissions_handling :
    EngineEvent.emissions (handlingEvents id seen order) = order.toList.map (Prod.mk id) := by
  cases order <;> rfl

@[simp] theorem offers_handling : EngineEvent.offers (handlingEvents id seen order) = [] := by
  cases order <;> rfl

@[simp] theorem outcomes_handling : EngineEvent.outcomes (handlingEvents id seen order) = [] := by
  cases order <;> rfl

@[simp] theorem consumptions_handling :
    EngineEvent.consumptions (handlingEvents id seen order) = [] := by
  cases order <;> rfl

@[simp] theorem drops_handling : EngineEvent.drops (handlingEvents id seen order) = [] := by
  cases order <;> rfl

@[simp] theorem refusals_handling : EngineEvent.refusals (handlingEvents id seen order) = [] := by
  cases order <;> rfl

end Handling

section Invariants

open EngineEvent

variable {F : Type} {n : Nat} [NeZero n] {args : StrategyArgs F} {state after : EngineState F n}
  {action : EngineAction n} {events history : List (EngineEvent n)}

omit [NeZero n] in
theorem WorkerMove.hands {id : Fin n} {pc : WorkerPc} (move : WorkerMove state id pc) :
    (state.workers id).pc.item = [] ∧ (state.workers id).pc.order = [] ∧
      pc.item = [] ∧ pc.order = [] := by
  cases move with
  | stop at' | proceed at' | timeout at' | disconnected at' =>
    rw [at']
    exact ⟨rfl, rfl, rfl, rfl⟩

omit [NeZero n] in
theorem MainMove.hands {pc : MainPc n} (move : MainMove state pc) :
    state.main.pc.tick = [] ∧ state.main.pc.order = [] ∧ pc.tick = [] ∧ pc.order = [] := by
  cases move with
  | leave at' | enter at' | reached at' | proceed at' | nothing at' | drained at' | dropSenders at'
  | joined at' | finished at' =>
    rw [at']
    exact ⟨rfl, rfl, rfl, rfl⟩

/-- What a step makes of one worker: the worker afterwards, the ticks that were delivered to it and
that it handled, and the orders that it emitted and that it sent. -/
inductive WorkerStepped (args : StrategyArgs F) (state : EngineState F n) (id : Fin n) :
    Worker F → List Observed → List Observed → List OrderMsg → List OrderMsg → Prop where
  | untouched : WorkerStepped args state id (state.workers id) [] [] [] []
  | deliver {item : WorkItem} (alive : (state.workers id).pc ≠ .returned) :
      WorkerStepped args state id
        { state.workers id with channel := (state.workers id).channel ++ [item] } [item.seen] [] [] []
  | move {pc : WorkerPc} (move : WorkerMove state id pc) :
      WorkerStepped args state id { state.workers id with pc := pc } [] [] [] []
  | receive {item : WorkItem} {rest : List WorkItem} (at' : (state.workers id).pc = .recvTimeout)
      (channel : (state.workers id).channel = item :: rest) :
      WorkerStepped args state id
        { state.workers id with channel := rest, pc := .handle item } [] [] [] []
  | handle {nowNs : UInt64} {item : WorkItem} (at' : (state.workers id).pc = .handle item) :
      WorkerStepped args state id ((state.workers id).handled args item nowNs) [] [item.seen]
        (strategyStep args item.seen (state.workers id).symbols
          (state.workers id).nextOrderId).order.toList []
  | send {order : OrderMsg} (at' : (state.workers id).pc = .send order) :
      WorkerStepped args state id { state.workers id with pc := .loopHead } [] [] [] [order]

omit [NeZero n] in
theorem WorkerStepped.update {owner : Fin n} {worker : Worker F} {delivered handled : List Observed}
    {emitted sent : List OrderMsg}
    (acts : WorkerStepped args state owner worker delivered handled emitted sent) (id : Fin n) :
    WorkerStepped args state id ((state.setWorker owner worker).workers id)
      (lane id (delivered.map (Prod.mk owner))) (lane id (handled.map (Prod.mk owner)))
      (lane id (emitted.map (Prod.mk owner))) (lane id (sent.map (Prod.mk owner))) := by
  by_cases same : id = owner
  · subst same
    simpa only [EngineState.setWorker_self, lane_tag_self] using acts
  · simpa only [EngineState.setWorker_other _ _ _ _ same, lane_tag_other id (Ne.symm same)]
      using .untouched

section Worker

variable {id : Fin n} {worker : Worker F} {delivered handled : List Observed}
  {emitted sent : List OrderMsg}

omit [NeZero n] in
/-- The ticks in the hand and in the channel of a worker come in by delivery and leave by being
handled. -/
theorem WorkerStepped.ticks
    (acts : WorkerStepped args state id worker delivered handled emitted sent) :
    (state.workers id).pc.item ++ (state.workers id).channel.map WorkItem.seen ++ delivered =
      handled ++ (worker.pc.item ++ worker.channel.map WorkItem.seen) := by
  cases acts with
  | untouched => exact List.append_nil _
  | deliver => simp
  | move move =>
    obtain ⟨before, _, after, _⟩ := move.hands
    simp [before, after]
  | receive at' channel => simp [at', channel]
  | handle at' => simp [at']
  | send at' => simp [at']

omit [NeZero n] in
theorem WorkerStepped.orders
    (acts : WorkerStepped args state id worker delivered handled emitted sent) :
    (state.workers id).pc.order ++ emitted = sent ++ worker.pc.order := by
  cases acts with
  | untouched | deliver => exact List.append_nil _
  | move move =>
    obtain ⟨_, before, _, after⟩ := move.hands
    simp [before, after]
  | receive at' | handle at' | send at' => simp [at']

omit [NeZero n] in
theorem WorkerStepped.worked
    (acts : WorkerStepped args state id worker delivered handled emitted sent) :
    (strategy args).after ((state.workers id).symbols, (state.workers id).nextOrderId) handled =
        (worker.symbols, worker.nextOrderId) ∧
      (strategy args).outputs ((state.workers id).symbols, (state.workers id).nextOrderId) handled =
        emitted := by
  cases acts with
  | untouched | deliver | move | receive | send => exact ⟨rfl, rfl⟩
  | handle =>
    refine ⟨rfl, ?_⟩
    rw [Transducer.outputs, Transducer.outputs, List.append_nil]
    rfl

omit [NeZero n] in
theorem WorkerStepped.stats
    (acts : WorkerStepped args state id worker delivered handled emitted sent) :
    worker.stats.ticks = (state.workers id).stats.ticks + .ofNat handled.length ∧
      worker.stats.orders = (state.workers id).stats.orders + .ofNat emitted.length := by
  cases acts with
  | untouched | deliver | move | receive | send =>
    exact ⟨(UInt64.add_zero _).symm, (UInt64.add_zero _).symm⟩
  | handle => exact ⟨rfl, handled_orders ..⟩

omit [NeZero n] in
theorem WorkerStepped.returned
    (acts : WorkerStepped args state id worker delivered handled emitted sent)
    (gone : (state.workers id).pc = .returned) : worker = state.workers id := by
  cases acts with
  | untouched => rfl
  | deliver alive => exact absurd gone alive
  | receive at' | handle at' | send at' =>
    rw [at'] at gone
    contradiction
  | move move =>
    cases move with
    | stop at' | proceed at' | timeout at' | disconnected at' =>
      rw [at'] at gone
      contradiction

omit [NeZero n] in
theorem WorkerStepped.returns
    (acts : WorkerStepped args state id worker delivered handled emitted sent)
    (gone : worker.pc = .returned) :
    (state.workers id).pc = .returned ∨ state.stop = true ∨
      state.main.pc.sendersDropped = true ∧ worker.channel = [] := by
  cases acts with
  | untouched => exact .inl gone
  | move move =>
    cases move with
    | stop _ stop => exact .inr (.inl stop)
    | proceed | timeout => contradiction
    | disconnected _ empty dropped => exact .inr (.inr ⟨dropped, empty⟩)
  | deliver alive => exact absurd gone alive
  | receive | send => contradiction
  | handle =>
    -- handling leads on to a send or back to the loop
    unfold Worker.handled at gone
    dsimp only at gone
    split at gone <;> contradiction

end Worker

/-- Each step acts for at most one worker, and it keeps the orders between the workers and the
ring in their sequence. -/
theorem EngineStepped.each (stepped : EngineStepped args state action after events) :
    ∃ sent : List (Fin n × OrderMsg),
      offers events ++ (after.main.pc.order ++ after.orders) =
        state.main.pc.order ++ state.orders ++ sent ∧
      ∀ id, WorkerStepped args state id (after.workers id) (lane id (deliveries events))
        (lane id (handlings events)) (lane id (emissions events)) (lane id sent) := by
  cases stepped with
  | interrupt => exact ⟨[], (List.append_nil _).symm, fun _ => .untouched⟩
  | mainMove move =>
    obtain ⟨_, before, _, after⟩ := move.hands
    refine ⟨[], ?_, fun _ => .untouched⟩
    simp [offers, before, after]
  -- an order the main thread takes or publishes stays on the left side of the sum
  | consume at' | drop at' | refuse at' | join at' | finalTake at' orders | take at' orders
  | publish at' | finalPublish at' =>
    refine ⟨[], ?_, fun _ => .untouched⟩
    simp [offers, publishStep, Main.consumed, *]
  | deliver at' alive =>
    refine ⟨[], ?_, WorkerStepped.update (.deliver alive)⟩
    simp [offers, at']
  | workerMove move =>
    exact ⟨[], (List.append_nil _).symm, WorkerStepped.update (.move move)⟩
  | receive at' channel =>
    exact ⟨[], (List.append_nil _).symm, WorkerStepped.update (.receive at' channel)⟩
  | @handle owner nowNs item at' =>
    have acts : WorkerStepped args state owner ((state.workers owner).handled args item nowNs) []
        [item.seen] _ [] := .handle at'
    refine ⟨[], by simp, fun id => ?_⟩
    simpa using acts.update id
  | @send owner nowNs order at' =>
    refine ⟨[(owner, order)], ?_, WorkerStepped.update (.send at')⟩
    simp [offers]

/-- Ticks delivered to a worker are handled, in its hand or in its channel, in this order. -/
def TicksPlaced (state : EngineState F n) (history : List (EngineEvent n)) : Prop :=
  ∀ id, lane id (deliveries history) = lane id (handlings history) ++
    ((state.workers id).pc.item ++ (state.workers id).channel.map WorkItem.seen)

theorem TicksPlaced.step (placed : TicksPlaced state history)
    (stepped : EngineStepped args state action after events) :
    TicksPlaced after (history ++ events) := by
  intro id
  obtain ⟨sent, _, each⟩ := stepped.each
  rw [deliveries_append, handlings_append, lane_append, lane_append, placed id, List.append_assoc,
    (each id).ticks, ← List.append_assoc]

/-- Orders emitted by a worker are offered, in the hand of the main thread, in the channel or
in the hand of the worker, in this order. -/
def OrdersPlaced (state : EngineState F n) (history : List (EngineEvent n)) : Prop :=
  ∀ id, lane id (emissions history) = lane id (offers history) ++
    (lane id (state.main.pc.order ++ state.orders) ++ (state.workers id).pc.order)

theorem OrdersPlaced.step (placed : OrdersPlaced state history)
    (stepped : EngineStepped args state action after events) :
    OrdersPlaced after (history ++ events) := by
  intro id
  obtain ⟨sent, passed, each⟩ := stepped.each
  have passed := congrArg (lane id) passed
  rw [lane_append, lane_append _ _ sent] at passed
  -- in each line: what was offered, what is on its way, what the worker holds
  calc lane id (emissions (history ++ events))
      = lane id (offers history) ++ lane id (state.main.pc.order ++ state.orders) ++
          ((state.workers id).pc.order ++ lane id (emissions events)) := by
        rw [emissions_append, lane_append, placed id]
        simp only [List.append_assoc]
    _ = lane id (offers history) ++ (lane id (state.main.pc.order ++ state.orders) ++
          lane id sent) ++ (after.workers id).pc.order := by
        rw [(each id).orders]
        simp only [List.append_assoc]
    _ = lane id (offers (history ++ events)) ++
          (lane id (after.main.pc.order ++ after.orders) ++ (after.workers id).pc.order) := by
        rw [← passed, offers_append, lane_append id (offers history)]
        simp only [List.append_assoc]

/-- The strategy state and the last order id that a worker starts with. -/
def workerStart (args : StrategyArgs F) (id : Fin n) : SymbolMap F × UInt64 :=
  (fun _ => .default args, UInt64.ofNat id <<< 32)

/-- A worker is its strategy run over the ticks it has handled. -/
def Worked (args : StrategyArgs F) (state : EngineState F n) (history : List (EngineEvent n)) :
    Prop :=
  ∀ id, (strategy args).after (workerStart args id) (lane id (handlings history)) =
      ((state.workers id).symbols, (state.workers id).nextOrderId) ∧
    lane id (emissions history) =
      (strategy args).outputs (workerStart args id) (lane id (handlings history))

theorem Worked.step (worked : Worked args state history)
    (stepped : EngineStepped args state action after events) :
    Worked args after (history ++ events) := by
  intro id
  obtain ⟨reached, answers⟩ := worked id
  obtain ⟨sent, _, each⟩ := stepped.each
  obtain ⟨further, emits⟩ := (each id).worked
  rw [handlings_append, emissions_append, lane_append, lane_append, Transducer.after_append,
    Transducer.outputs_append, reached, answers, emits]
  exact ⟨further, rfl⟩

/-- The counters that are reported. -/
structure Counted (state : EngineState F n) (history : List (EngineEvent n)) : Prop where
  ticks : ∀ id, (state.workers id).stats.ticks = .ofNat (lane id (handlings history)).length
  orders : ∀ id, (state.workers id).stats.orders = .ofNat (lane id (emissions history)).length
  sent : state.main.ordersSent = .ofNat ((outcomes history).count true)
  refused : state.main.ordersDropped = .ofNat ((outcomes history).count false)
  seen : state.main.ticksSeen = .ofNat (consumptions history).length
  dropped : state.main.ticksDropped = .ofNat (drops history).length

theorem EngineStepped.counters (stepped : EngineStepped args state action after events) :
    after.main.ordersSent = state.main.ordersSent + .ofNat ((outcomes events).count true) ∧
      after.main.ordersDropped = state.main.ordersDropped + .ofNat ((outcomes events).count false) ∧
      after.main.ticksSeen = state.main.ticksSeen + .ofNat (consumptions events).length ∧
      after.main.ticksDropped = state.main.ticksDropped + .ofNat (drops events).length := by
  cases stepped with
  | @publish _ _ accepted | @finalPublish _ _ accepted =>
    cases accepted <;> simp [outcomes, consumptions, drops, publishStep]
  | handle => simp
  | consume => exact ⟨(UInt64.add_zero _).symm, (UInt64.add_zero _).symm, rfl, (UInt64.add_zero _).symm⟩
  | drop => exact ⟨(UInt64.add_zero _).symm, (UInt64.add_zero _).symm, (UInt64.add_zero _).symm, rfl⟩
  | interrupt | mainMove | deliver | refuse | take | finalTake | join | workerMove | receive | send =>
    refine ⟨?_, ?_, ?_, ?_⟩ <;> exact (UInt64.add_zero _).symm

theorem Counted.step (counted : Counted state history)
    (stepped : EngineStepped args state action after events) :
    Counted after (history ++ events) := by
  obtain ⟨sent, refused, seen, dropped⟩ := stepped.counters
  obtain ⟨_, _, each⟩ := stepped.each
  constructor
  case ticks =>
    intro id
    rw [(each id).stats.1, counted.ticks, handlings_append, lane_append, List.length_append,
      UInt64.ofNat_add]
  case orders =>
    intro id
    rw [(each id).stats.2, counted.orders, emissions_append, lane_append, List.length_append,
      UInt64.ofNat_add]
  case sent => rw [sent, counted.sent, outcomes_append, List.count_append, UInt64.ofNat_add]
  case refused => rw [refused, counted.refused, outcomes_append, List.count_append, UInt64.ofNat_add]
  case seen => rw [seen, counted.seen, consumptions_append, List.length_append, UInt64.ofNat_add]
  case dropped => rw [dropped, counted.dropped, drops_append, List.length_append, UInt64.ofNat_add]

theorem EngineStepped.returned (stepped : EngineStepped args state action after events)
    {id : Fin n} (gone : (state.workers id).pc = .returned) :
    after.workers id = state.workers id := by
  obtain ⟨sent, _, each⟩ := stepped.each
  exact (each id).returned gone

/-- The main thread has left its loop. -/
def MainPc.left : MainPc n → Bool
  | .dropSenders => true
  | pc => pc.sendersDropped

omit [NeZero n] in
theorem MainMove.left {pc : MainPc n} (move : MainMove state pc)
    (left : state.main.pc.left = true) : pc.left = true := by
  cases move with
  | leave | reached | dropSenders | joined | finished => rfl
  | enter at' | proceed at' | nothing at' | drained at' =>
    rw [at'] at left
    contradiction

/-- Once it has left its loop, the main thread does not come back and hands on no more ticks. -/
theorem EngineStepped.left (stepped : EngineStepped args state action after events)
    (left : state.main.pc.left = true) :
    after.main.pc.left = true ∧ deliveries events = [] ∧ refusals events = [] := by
  cases stepped with
  | interrupt => exact ⟨left, rfl, rfl⟩
  | mainMove move => exact ⟨move.left left, rfl, rfl⟩
  | handle => exact ⟨left, deliveries_handling .., refusals_handling ..⟩
  | workerMove | receive | send => exact ⟨left, rfl, rfl⟩
  | finalTake | finalPublish | join => exact ⟨rfl, rfl, rfl⟩
  | consume at' | deliver at' | drop at' | refuse at' | take at' | publish at' =>
    rw [at'] at left
    contradiction

omit [NeZero n] in
theorem MainMove.senders {pc : MainPc n} (move : MainMove state pc)
    (dropped : state.main.pc.sendersDropped = true) : pc.sendersDropped = true := by
  cases move with
  | joined | finished => rfl
  | leave at' | enter at' | reached at' | proceed at' | nothing at' | drained at' | dropSenders at' =>
    rw [at'] at dropped
    contradiction

theorem EngineStepped.senders (stepped : EngineStepped args state action after events)
    (dropped : state.main.pc.sendersDropped = true) :
    after.main.pc.sendersDropped = true ∧ deliveries events = [] := by
  cases stepped with
  | interrupt => exact ⟨dropped, rfl⟩
  | mainMove move => exact ⟨move.senders dropped, rfl⟩
  | handle => exact ⟨dropped, deliveries_handling ..⟩
  | workerMove | receive | send => exact ⟨dropped, rfl⟩
  | finalTake | finalPublish | join => exact ⟨rfl, rfl⟩
  | consume at' | deliver at' | drop at' | refuse at' | take at' | publish at' =>
    rw [at'] at dropped
    contradiction

theorem EngineStepped.stop (stepped : EngineStepped args state action after events)
    (stop : state.stop = true) : after.stop = true := by
  cases stepped with
  | interrupt => rfl
  | _ => exact stop

/-- Why a worker has returned. -/
def Dismissed (state : EngineState F n) : Prop :=
  ∀ id, (state.workers id).pc = .returned → state.stop = true ∨
    state.main.pc.sendersDropped = true ∧ (state.workers id).channel = []

theorem Dismissed.step (dismissed : Dismissed state)
    (stepped : EngineStepped args state action after events) : Dismissed after := by
  have senders (dropped : state.main.pc.sendersDropped = true) := (stepped.senders dropped).1
  intro id gone
  obtain ⟨sent, _, each⟩ := stepped.each
  rcases (each id).returns gone with already | stop | ⟨dropped, empty⟩
  · rw [(each id).returned already]
    rcases dismissed id already with stop | ⟨dropped, empty⟩
    · exact .inl (stepped.stop stop)
    · exact .inr ⟨senders dropped, empty⟩
  · exact .inl (stepped.stop stop)
  · exact .inr ⟨senders dropped, empty⟩

/-- How many workers the main thread has joined. -/
def MainPc.joins (n : Nat) : MainPc n → Nat
  | .join next => next
  | .finalDrain | .finalPublish _ _ | .finaliseReport => n
  | _ => 0

/-- The joined workers have returned, and their counters have been collected. -/
structure Joined (state : EngineState F n) : Prop where
  within : state.main.pc.joins ≤ n
  collected : state.main.workerStats.length = state.main.pc.joins
  each : ∀ id : Fin n, id.val < state.main.pc.joins → (state.workers id).pc = .returned ∧
    state.main.workerStats[id.val]? = some (state.workers id).stats

theorem Joined.frame (joined : Joined state) (stepped : EngineStepped args state action after events)
    (joins : after.main.pc.joins = state.main.pc.joins)
    (stats : after.main.workerStats = state.main.workerStats) : Joined after := by
  refine ⟨joins ▸ joined.within, by rw [stats, joins]; exact joined.collected, ?_⟩
  intro id before
  obtain ⟨gone, collected⟩ := joined.each id (joins ▸ before)
  rw [stepped.returned gone, stats]
  exact ⟨gone, collected⟩

theorem Joined.step (joined : Joined state)
    (stepped : EngineStepped args state action after events) : Joined after := by
  have frame := joined.frame stepped
  cases stepped with
  | interrupt | handle | workerMove | receive | send => exact frame rfl rfl
  | consume at' | deliver at' | drop at' | refuse at' | take at' | finalTake at' | publish at'
  | finalPublish at' =>
    refine frame ?_ rfl
    rw [at']
    rfl
  | mainMove move =>
    refine frame ?_ rfl
    cases move with
    | leave at' | enter at' | reached at' | proceed at' | nothing at' | drained at'
    | dropSenders at' | finished at' =>
      rw [at']
      rfl
    | joined at' all =>
      have within := joined.within
      rw [at'] at within ⊢
      exact Nat.le_antisymm all within
  | @join next at' bound gone =>
    obtain ⟨within, collected, each⟩ := joined
    rw [at'] at within collected each
    refine ⟨bound, by rw [List.length_append, collected]; rfl, ?_⟩
    intro id before
    change id.val < next + 1 at before
    -- the statistics of this worker go behind those of its predecessors
    by_cases earlier : id.val < next
    · obtain ⟨returned, is⟩ := each id earlier
      rw [List.getElem?_append_left (by rw [collected]; exact earlier)]
      exact ⟨returned, is⟩
    · have last : id.val = next :=
        Nat.le_antisymm (Nat.le_of_lt_succ before) (Nat.le_of_not_lt earlier)
      obtain rfl : id = ⟨next, bound⟩ := Fin.ext last
      have length : state.main.workerStats.length = next := collected
      exact ⟨gone, by simp [← length]⟩

/-- Nothing is left in the orders channel once the report is written. -/
def Reported (state : EngineState F n) : Prop :=
  state.main.pc = .finaliseReport → state.orders = []

theorem Reported.step (reported : Reported state) (joined : Joined state)
    (stepped : EngineStepped args state action after events) : Reported after := by
  intro done
  cases stepped with
  | interrupt => exact reported done
  | mainMove move =>
    cases done
    cases move with
    | finished _ empty => exact empty
  | consume | deliver | drop | refuse | take | finalTake | publish | finalPublish | join =>
    contradiction
  | handle | workerMove | receive => exact reported done
  | @send id nowNs order at' =>
    have all := (joined.each id (by rw [show state.main.pc = .finaliseReport from done]; exact id.isLt)).1
    rw [at'] at all
    contradiction

theorem stop_step (known : state.stop = true ↔ .stopped ∈ history)
    (stepped : EngineStepped args state action after events) :
    after.stop = true ↔ .stopped ∈ history ++ events := by
  cases stepped with
  | interrupt => simp
  | @handle owner nowNs item =>
    have quiet : .stopped ∉ handlingEvents owner item.seen (strategyStep args item.seen
        (state.workers owner).symbols (state.workers owner).nextOrderId).order := by
      cases (strategyStep args item.seen (state.workers owner).symbols
        (state.workers owner).nextOrderId).order <;> simp
    simpa [quiet] using known
  | _ => simpa [publishStep] using known

/-- Where the consumed ticks are. A tick is refused only by a worker that has returned on the
stop flag, and then the dispatcher consumes no more. -/
structure KeptPlaced (state : EngineState F n) (history : List (EngineEvent n)) : Prop where
  places : kept history =
    (deliveries history).map Prod.snd ++ (refusals history ++ state.main.pc.tick)
  balance : (consumptions history).length = (deliveries history).length +
    (drops history).length + (refusals history).length + state.main.pc.tick.length
  refused : refusals history ≠ [] → state.stop = true ∧ state.main.pc.left = true
  once : (refusals history).length ≤ 1

/-- The tick in the hand of the dispatcher comes in from the ring and leaves in one of three ways. -/
theorem EngineStepped.hand (stepped : EngineStepped args state action after events) :
    state.main.pc.tick ++ consumptions events =
      (deliveries events).map Prod.snd ++ drops events ++ refusals events ++ after.main.pc.tick := by
  cases stepped with
  | interrupt | workerMove | receive | send => exact List.append_nil _
  | handle => simp
  | mainMove move =>
    obtain ⟨before, _, after, _⟩ := move.hands
    rw [before]
    exact after.symm
  | consume at' | deliver at' | drop at' | refuse at' | take at' | finalTake at' | publish at'
  | finalPublish at' | join at' =>
    rw [at']
    rfl

theorem EngineStepped.kept (stepped : EngineStepped args state action after events)
    {earlier : List Observed} (before : kept history = earlier ++ state.main.pc.tick) :
    kept (history ++ events) = earlier ++
      ((deliveries events).map Prod.snd ++ refusals events ++ after.main.pc.tick) := by
  cases stepped with
  | interrupt | workerMove | receive | send =>
    rw [kept_quiet rfl rfl]
    exact before
  | handle =>
    rw [kept_quiet (consumptions_handling ..) (drops_handling ..), before, deliveries_handling,
      refusals_handling]
    rfl
  | mainMove move =>
    obtain ⟨empty, _, after, _⟩ := move.hands
    rw [kept_quiet rfl rfl, before, empty, EngineState.setPc_pc, after]
    rfl
  | consume at' =>
    rw [kept_consumed, before, List.append_assoc, at']
    rfl
  | drop at' =>
    rw [kept_dropped, before, at', tick_trySend, List.dropLast_concat]
    exact (List.append_nil _).symm
  | deliver at' | refuse at' | take at' | finalTake at' | publish at' | finalPublish at' | join at' =>
    rw [kept_quiet rfl rfl, before, at']
    rfl

theorem EngineStepped.refuses (stepped : EngineStepped args state action after events)
    (some : refusals events ≠ []) :
    (refusals events).length = 1 ∧ after.main.pc.left = true ∧
      state.main.pc.sendersDropped = false ∧ ∃ id, (state.workers id).pc = .returned := by
  cases stepped with
  | refuse at' gone =>
    rw [at']
    exact ⟨rfl, rfl, rfl, _, gone⟩
  | handle => exact absurd (refusals_handling ..) some
  | interrupt | mainMove | consume | deliver | drop | take | finalTake | publish | finalPublish | join
  | workerMove | receive | send =>
    exact absurd rfl some

theorem KeptPlaced.step (placed : KeptPlaced state history) (dismissed : Dismissed state)
    (stepped : EngineStepped args state action after events) :
    KeptPlaced after (history ++ events) := by
  obtain ⟨places, balance, refused, once⟩ := placed
  -- after a refusal the dispatcher is out of its loop
  have apart : refusals history = [] ∨ deliveries events = [] ∧ refusals events = [] := by
    by_cases none : refusals history = []
    · exact .inl none
    · exact .inr (stepped.left (refused none).2).2
  rw [← List.append_assoc] at places
  constructor
  case places =>
    rw [stepped.kept places]
    rcases apart with none | ⟨nothing, still⟩
    · simp [none]
    · simp [nothing, still]
  case balance =>
    have hand := congrArg List.length stepped.hand
    simp only [List.length_append, List.length_map] at hand
    simp only [consumptions_append, deliveries_append, drops_append, refusals_append,
      List.length_append]
    omega
  case refused =>
    intro some
    rcases apart with none | ⟨_, still⟩
    · rw [refusals_append, none, List.nil_append] at some
      obtain ⟨_, left, senders, id, gone⟩ := stepped.refuses some
      -- with the senders alive, only the stop flag makes a worker return
      rcases dismissed id gone with stop | ⟨dropped, _⟩
      · exact ⟨stepped.stop stop, left⟩
      · rw [senders] at dropped
        contradiction
    · rw [refusals_append, still, List.append_nil] at some
      obtain ⟨stop, left⟩ := refused some
      exact ⟨stepped.stop stop, (stepped.left left).1⟩
  case once =>
    rcases apart with none | ⟨_, still⟩
    · rw [refusals_append, none, List.nil_append]
      by_cases some : refusals events = []
      · rw [some]
        exact Nat.zero_le _
      · exact (stepped.refuses some).1.le
    · rw [refusals_append, still, List.append_nil]
      exact once

/-- Ticks and orders of a symbol are the business of one worker. -/
structure Routed (history : List (EngineEvent n)) : Prop where
  ticks : ∀ entry ∈ deliveries history, entry.1 = target entry.2.tick.symbol
  orders : ∀ entry ∈ emissions history, entry.1 = target entry.2.symbol

theorem Routed.append (first : Routed history) (second : Routed events) :
    Routed (history ++ events) := by
  constructor
  case ticks =>
    intro entry member
    rw [deliveries_append, List.mem_append] at member
    exact member.elim (first.ticks entry) (second.ticks entry)
  case orders =>
    intro entry member
    rw [emissions_append, List.mem_append] at member
    exact member.elim (first.orders entry) (second.orders entry)

theorem Routed.step (routed : Routed history) (placed : TicksPlaced state history)
    (stepped : EngineStepped args state action after events) : Routed (history ++ events) := by
  apply routed.append
  cases stepped with
  | deliver =>
    refine ⟨fun entry member => ?_, fun _ member => absurd member List.not_mem_nil⟩
    obtain rfl := List.mem_singleton.mp member
    rfl
  | @handle owner nowNs item at' =>
    rw [← handlingEvents]
    constructor
    case ticks =>
      rw [deliveries_handling]
      exact fun _ member => absurd member List.not_mem_nil
    case orders =>
      intro entry member
      rw [emissions_handling] at member
      obtain ⟨order, emitted, rfl⟩ := List.mem_map.mp member
      -- the tick in hand was delivered to this worker, so its symbol is routed there
      have delivered : (owner, item.seen) ∈ deliveries history := by
        rw [← mem_lane, placed owner, at']
        simp
      rw [strategyStep_symbol args _ _ _ (Option.mem_toList.mp emitted)]
      exact routed.ticks _ delivered
  | interrupt | mainMove | consume | drop | refuse | take | finalTake | publish | finalPublish | join
  | workerMove | receive | send =>
    exact ⟨fun _ member => absurd member List.not_mem_nil,
      fun _ member => absurd member List.not_mem_nil⟩

/-- Everything that is known of a state and of the history that led to it. -/
structure Accounted (args : StrategyArgs F) (state : EngineState F n)
    (history : List (EngineEvent n)) : Prop where
  ticks : TicksPlaced state history
  orders : OrdersPlaced state history
  worked : Worked args state history
  counted : Counted state history
  dismissed : Dismissed state
  joined : Joined state
  reported : Reported state
  stop : state.stop = true ↔ .stopped ∈ history
  kept : KeptPlaced state history
  routed : Routed history

theorem accounted (reach : (runWithWorkers args).Reachable state history) :
    Accounted args state history := by
  induction reach with
  | start =>
    constructor
    case ticks | orders => exact fun _ => rfl
    case worked => exact fun _ => ⟨rfl, rfl⟩
    case counted => exact ⟨fun _ => rfl, fun _ => rfl, rfl, rfl, rfl, rfl⟩
    case dismissed => exact fun _ gone => absurd gone (by simp [runWithWorkers, Worker.spawn])
    case joined => exact ⟨Nat.zero_le _, rfl, fun _ before => absurd before (Nat.not_lt_zero _)⟩
    case reported => exact fun _ => rfl
    case stop => simp [runWithWorkers]
    case kept => exact ⟨rfl, rfl, fun some => absurd rfl some, Nat.zero_le _⟩
    case routed => exact ⟨fun _ => by simp [deliveries], fun _ => by simp [emissions]⟩
  | next _ _ step ih =>
    have stepped := engineStep_inv step
    exact ⟨ih.ticks.step stepped, ih.orders.step stepped, ih.worked.step stepped,
      ih.counted.step stepped, ih.dismissed.step stepped, ih.joined.step stepped,
      ih.reported.step ih.joined stepped, stop_step ih.stop stepped,
      ih.kept.step ih.dismissed stepped, ih.routed.step ih.ticks stepped⟩

end Invariants

section TwoWorkers

/-- The letters `BAAAAAAA` and `AAAAAAAA`: one symbol for each of two workers. -/
def twoSymbols : List Symbol := [#v[66, 65, 65, 65, 65, 65, 65, 65], .replicate 8 65]

/-- Each of the two symbols is ticked three times, then the two workers take turns: each
sends the orders of its second and third tick. -/
def bothEmit : List (EngineAction 2) :=
  let found (nowNs : UInt64) (symbol : Symbol) : List (EngineAction 2) :=
    [.main, .checkDeadline false, .tryConsume (some ⟨⟨quote symbol, nowNs⟩, 0, 0⟩), .main, .main]
  [5, 7, 9].flatMap (fun nowNs => twoSymbols.flatMap (found nowNs)) ++
    (List.replicate 11 [.worker ⟨0, Nat.two_pos⟩ 0, .worker ⟨1, Nat.one_lt_two⟩ 0]).flatten

end TwoWorkers

end TradingPipeline.Engine
