import Mathlib.Data.Fin.Basic
import TradingPipeline.Engine.Strategy
import TradingPipeline.Foundation.Transition
import TradingPipeline.Shmbus.Latency

/-! `run_with_workers` and its workers.

The dispatcher and each worker have a program counter; a step is one channel operation, one
look at the stop flag or the deadline, or one stretch of thread-local work. The channels
behave as documented by crossbeam: bounded FIFO queues, `send` waits while the queue is
full, the receiver still gets the remaining items after the senders are gone, and
`try_send` reports a receiver that is gone. What the environment decides comes with the
action: the deadline, what the ticks ring holds, whether the orders ring has room, and the
clock.
-/

set_option autoImplicit false

namespace TradingPipeline.Engine

open Foundation Shmbus

/-- The bound of each tick channel. -/
def tickCapacity : Nat := 8192

/-- The bound of the orders channel. -/
def orderCapacity : Nat := 8192

structure WorkItem where
  seen : Observed
  enqueuedNs : UInt64
  deriving DecidableEq

structure WorkerStats where
  ticks : UInt64
  orders : UInt64
  dispatchLat : LatencyHistogram
  deriving DecidableEq

def WorkerStats.default : WorkerStats := ⟨0, 0, .new⟩

inductive WorkerPc where
  | loopHead
  | recvTimeout
  | handle (item : WorkItem)
  | send (order : OrderMsg)
  | returned
  deriving DecidableEq

/-- A worker with its end of the tick channel. -/
structure Worker (F : Type) where
  channel : List WorkItem
  pc : WorkerPc
  symbols : SymbolMap F
  nextOrderId : UInt64
  stats : WorkerStats

inductive MainPc (n : Nat) where
  | loopHead
  | deadline
  | tryConsume
  | trySend (item : WorkItem)
  | drain
  | publish (worker : Fin n) (order : OrderMsg)
  | dropSenders
  | join (next : Nat)
  | finalDrain
  | finalPublish (worker : Fin n) (order : OrderMsg)
  | finaliseReport
  deriving DecidableEq

structure Main (n : Nat) where
  pc : MainPc n
  ticksSeen : UInt64
  ticksDropped : UInt64
  ordersSent : UInt64
  ordersDropped : UInt64
  shmTransit : LatencyHistogram
  endToEnd : LatencyHistogram
  /-- What the joined workers returned. -/
  workerStats : List WorkerStats

structure EngineState (F : Type) (n : Nat) where
  stop : Bool
  main : Main n
  workers : Fin n → Worker F
  /-- The orders channel. The source sends a constant string along with each order; here the
  sender stands in its place. -/
  orders : List (Fin n × OrderMsg)

/-- One tick read from the ring, and the clock readings taken around it. -/
structure Consumed where
  seen : Observed
  consumeTs : UInt64
  enqueuedNs : UInt64
  deriving DecidableEq

inductive EngineAction (n : Nat) where
  /-- The signal handler sets the stop flag. -/
  | interrupt
  /-- A step of the main thread that needs nothing from the environment. -/
  | main
  | checkDeadline (reached : Bool)
  | tryConsume (found : Option Consumed)
  | tryPublish (accepted : Bool)
  | worker (id : Fin n) (nowNs : UInt64)
  deriving DecidableEq

inductive EngineEvent (n : Nat) where
  | stopped
  | consumed (seen : Observed)
  /-- The tick went into the channel of a worker. -/
  | delivered (worker : Fin n) (item : WorkItem)
  /-- The channel was full. -/
  | dropped (seen : Observed)
  /-- The worker had returned. -/
  | refused (seen : Observed)
  | handled (worker : Fin n) (seen : Observed)
  | emitted (worker : Fin n) (order : OrderMsg)
  | offered (worker : Fin n) (order : OrderMsg) (accepted : Bool)
  deriving DecidableEq

section Steps

variable {F : Type} {n : Nat}

/-- The tick senders are gone once the main thread joins. -/
def MainPc.sendersDropped : MainPc n → Bool
  | .join _ | .finalDrain | .finalPublish _ _ | .finaliseReport => true
  | _ => false

namespace EngineState

def setPc (state : EngineState F n) (pc : MainPc n) : EngineState F n :=
  { state with main := { state.main with pc := pc } }

def setWorker (state : EngineState F n) (id : Fin n) (worker : Worker F) : EngineState F n :=
  { state with workers := Function.update state.workers id worker }

end EngineState

/-- What a worker makes of one item: latency, counters, strategy. -/
def Worker.handled (args : StrategyArgs F) (worker : Worker F) (item : WorkItem)
    (nowNs : UInt64) : Worker F :=
  let result := strategyStep args item.seen worker.symbols worker.nextOrderId
  { worker with
    pc := match result.order with | some order => .send order | none => .loopHead
    symbols := result.symbols
    nextOrderId := result.nextOrderId
    stats :=
      { ticks := worker.stats.ticks + 1
        orders := worker.stats.orders + (if result.order.isSome then 1 else 0)
        dispatchLat := worker.stats.dispatchLat.record (saturatingSub nowNs item.enqueuedNs) } }

/-- What the dispatcher notes about one consumed tick. -/
def Main.consumed (main : Main n) (found : Consumed) : Main n :=
  { main with
    pc := .trySend ⟨found.seen, found.enqueuedNs⟩
    ticksSeen := main.ticksSeen + 1
    shmTransit := main.shmTransit.record (saturatingSub found.consumeTs found.seen.tick.recvTsNs)
    endToEnd := main.endToEnd.record (saturatingSub found.consumeTs found.seen.tick.exchTsNs) }

/-- `symbol_hash(&tick.symbol) as usize % n`. -/
def target [NeZero n] (symbol : Symbol) : Fin n := Fin.ofNat n (symbolHash symbol).toNat

/-- Steps of the main thread that need nothing from the environment. -/
def mainStep [NeZero n] (state : EngineState F n) :
    Option (EngineState F n × List (EngineEvent n)) :=
  match state.main.pc with
  | .loopHead => some (state.setPc (if state.stop then .dropSenders else .deadline), [])
  | .trySend item =>
    let id := target item.seen.tick.symbol
    let worker := state.workers id
    if worker.pc = .returned then
      some (state.setPc .dropSenders, [.refused item.seen])
    else if worker.channel.length < tickCapacity then
      some ((state.setWorker id { worker with channel := worker.channel ++ [item] }).setPc .drain,
        [.delivered id item])
    else
      some ({ state with main :=
          { state.main with pc := .drain, ticksDropped := state.main.ticksDropped + 1 } },
        [.dropped item.seen])
  | .drain =>
    match state.orders with
    | [] => some (state.setPc .loopHead, [])
    | (id, order) :: rest => some ({ state with orders := rest }.setPc (.publish id order), [])
  | .dropSenders => some (state.setPc (.join 0), [])
  | .join next =>
    if joined : next < n then
      let worker := state.workers ⟨next, joined⟩
      if worker.pc = .returned then
        some ({ state with main :=
          { state.main with
            pc := .join (next + 1)
            workerStats := state.main.workerStats ++ [worker.stats] } }, [])
      else none
    else some (state.setPc .finalDrain, [])
  | .finalDrain =>
    match state.orders with
    | [] => some (state.setPc .finaliseReport, [])
    | (id, order) :: rest => some ({ state with orders := rest }.setPc (.finalPublish id order), [])
  | _ => none

/-- `try_publish_order` and the counting of its outcome. -/
def publishStep (state : EngineState F n) (id : Fin n) (order : OrderMsg) (accepted : Bool)
    (pc : MainPc n) : EngineState F n × List (EngineEvent n) :=
  ({ state with main :=
      { state.main with
        pc := pc
        ordersSent := state.main.ordersSent + (if accepted then 1 else 0)
        ordersDropped := state.main.ordersDropped + (if accepted then 0 else 1) } },
    [.offered id order accepted])

/-- The next step of `worker_main`. -/
def workerStep (args : StrategyArgs F) (state : EngineState F n) (id : Fin n) (nowNs : UInt64) :
    Option (EngineState F n × List (EngineEvent n)) :=
  let worker := state.workers id
  match worker.pc with
  | .loopHead =>
    some (state.setWorker id { worker with pc := if state.stop then .returned else .recvTimeout },
      [])
  | .recvTimeout =>
    match worker.channel with
    | item :: rest => some (state.setWorker id { worker with channel := rest, pc := .handle item }, [])
    | [] =>
      -- an empty channel means a timeout, or a disconnect once the senders are gone
      let pc := if state.main.pc.sendersDropped then WorkerPc.returned else .loopHead
      some (state.setWorker id { worker with pc := pc }, [])
  | .handle item =>
    let result := strategyStep args item.seen worker.symbols worker.nextOrderId
    some (state.setWorker id (worker.handled args item nowNs),
      .handled id item.seen :: (result.order.map (EngineEvent.emitted id)).toList)
  | .send order =>
    -- the receiver lives as long as `run_with_workers`, so `send` waits but never fails
    if state.orders.length < orderCapacity then
      some ({ state with orders := state.orders ++ [(id, order)] }.setWorker id
        { worker with pc := .loopHead }, [])
    else none
  | .returned => none

def engineStep [NeZero n] (args : StrategyArgs F) (state : EngineState F n) :
    EngineAction n → Option (EngineState F n × List (EngineEvent n))
  | .interrupt => some ({ state with stop := true }, [.stopped])
  | .main => mainStep state
  | .checkDeadline reached =>
    if state.main.pc = .deadline then
      some (state.setPc (if reached then .dropSenders else .tryConsume), [])
    else none
  | .tryConsume found =>
    if state.main.pc = .tryConsume then
      match found with
      | none => some (state.setPc .drain, [])
      | some found => some ({ state with main := state.main.consumed found }, [.consumed found.seen])
    else none
  | .tryPublish accepted =>
    match state.main.pc with
    | .publish id order => some (publishStep state id order accepted .drain)
    | .finalPublish id order => some (publishStep state id order accepted .finalDrain)
    | _ => none
  | .worker id nowNs => workerStep args state id nowNs

def Worker.spawn (args : StrategyArgs F) (id : Nat) : Worker F where
  channel := []
  pc := .loopHead
  symbols _ := .default args
  nextOrderId := UInt64.ofNat id <<< 32
  stats := .default

def runWithWorkers [NeZero n] (args : StrategyArgs F) :
    System (EngineState F n) (EngineAction n) (EngineEvent n) where
  start :=
    { stop := false
      main := ⟨.loopHead, 0, 0, 0, 0, .new, .new, []⟩
      workers := fun id => .spawn args id
      orders := [] }
  step := engineStep args

/-- Moves of the main thread that touch nothing but its program counter. -/
inductive MainMove (state : EngineState F n) : MainPc n → Prop where
  | leave (at' : state.main.pc = .loopHead) (stop : state.stop = true) :
      MainMove state .dropSenders
  | enter (at' : state.main.pc = .loopHead) (stop : state.stop = false) : MainMove state .deadline
  | reached (at' : state.main.pc = .deadline) : MainMove state .dropSenders
  | proceed (at' : state.main.pc = .deadline) : MainMove state .tryConsume
  | nothing (at' : state.main.pc = .tryConsume) : MainMove state .drain
  | drained (at' : state.main.pc = .drain) (empty : state.orders = []) : MainMove state .loopHead
  | dropSenders (at' : state.main.pc = .dropSenders) : MainMove state (.join 0)
  | joined {next : Nat} (at' : state.main.pc = .join next) (all : n ≤ next) :
      MainMove state .finalDrain
  | finished (at' : state.main.pc = .finalDrain) (empty : state.orders = []) :
      MainMove state .finaliseReport

/-- Moves of a worker that touch nothing but its program counter. -/
inductive WorkerMove (state : EngineState F n) (id : Fin n) : WorkerPc → Prop where
  | stop (at' : (state.workers id).pc = .loopHead) (stop : state.stop = true) :
      WorkerMove state id .returned
  | proceed (at' : (state.workers id).pc = .loopHead) (stop : state.stop = false) :
      WorkerMove state id .recvTimeout
  | timeout (at' : (state.workers id).pc = .recvTimeout) (empty : (state.workers id).channel = [])
      (senders : state.main.pc.sendersDropped = false) : WorkerMove state id .loopHead
  | disconnected (at' : (state.workers id).pc = .recvTimeout)
      (empty : (state.workers id).channel = []) (senders : state.main.pc.sendersDropped = true) :
      WorkerMove state id .returned

/-- Everything that one step can do. -/
inductive EngineStepped [NeZero n] (args : StrategyArgs F) (state : EngineState F n) :
    EngineAction n → EngineState F n → List (EngineEvent n) → Prop where
  | interrupt : EngineStepped args state .interrupt { state with stop := true } [.stopped]
  | mainMove {action : EngineAction n} {pc : MainPc n} (move : MainMove state pc) :
      EngineStepped args state action (state.setPc pc) []
  | consume {found : Consumed} (at' : state.main.pc = .tryConsume) :
      EngineStepped args state (.tryConsume (some found))
        { state with main := state.main.consumed found } [.consumed found.seen]
  | deliver {item : WorkItem} (at' : state.main.pc = .trySend item)
      (alive : (state.workers (target item.seen.tick.symbol)).pc ≠ .returned)
      (room : (state.workers (target item.seen.tick.symbol)).channel.length < tickCapacity) :
      EngineStepped args state .main
        ((state.setWorker (target item.seen.tick.symbol)
          { state.workers (target item.seen.tick.symbol) with
            channel := (state.workers (target item.seen.tick.symbol)).channel ++ [item] }).setPc
          .drain) [.delivered (target item.seen.tick.symbol) item]
  | drop {item : WorkItem} (at' : state.main.pc = .trySend item)
      (full : tickCapacity ≤ (state.workers (target item.seen.tick.symbol)).channel.length) :
      EngineStepped args state .main
        { state with main :=
          { state.main with pc := .drain, ticksDropped := state.main.ticksDropped + 1 } }
        [.dropped item.seen]
  | refuse {item : WorkItem} (at' : state.main.pc = .trySend item)
      (gone : (state.workers (target item.seen.tick.symbol)).pc = .returned) :
      EngineStepped args state .main (state.setPc .dropSenders) [.refused item.seen]
  | take {id : Fin n} {order : OrderMsg} {rest : List (Fin n × OrderMsg)}
      (at' : state.main.pc = .drain) (orders : state.orders = (id, order) :: rest) :
      EngineStepped args state .main ({ state with orders := rest }.setPc (.publish id order)) []
  | finalTake {id : Fin n} {order : OrderMsg} {rest : List (Fin n × OrderMsg)}
      (at' : state.main.pc = .finalDrain) (orders : state.orders = (id, order) :: rest) :
      EngineStepped args state .main
        ({ state with orders := rest }.setPc (.finalPublish id order)) []
  | publish {id : Fin n} {order : OrderMsg} {accepted : Bool}
      (at' : state.main.pc = .publish id order) :
      EngineStepped args state (.tryPublish accepted) (publishStep state id order accepted .drain).1
        [.offered id order accepted]
  | finalPublish {id : Fin n} {order : OrderMsg} {accepted : Bool}
      (at' : state.main.pc = .finalPublish id order) :
      EngineStepped args state (.tryPublish accepted)
        (publishStep state id order accepted .finalDrain).1 [.offered id order accepted]
  | join {next : Nat} (at' : state.main.pc = .join next) (within : next < n)
      (gone : (state.workers ⟨next, within⟩).pc = .returned) :
      EngineStepped args state .main
        { state with main :=
          { state.main with
            pc := .join (next + 1)
            workerStats := state.main.workerStats ++ [(state.workers ⟨next, within⟩).stats] } } []
  | workerMove {id : Fin n} {nowNs : UInt64} {pc : WorkerPc} (move : WorkerMove state id pc) :
      EngineStepped args state (.worker id nowNs)
        (state.setWorker id { state.workers id with pc := pc }) []
  | receive {id : Fin n} {nowNs : UInt64} {item : WorkItem} {rest : List WorkItem}
      (at' : (state.workers id).pc = .recvTimeout) (channel : (state.workers id).channel = item :: rest) :
      EngineStepped args state (.worker id nowNs)
        (state.setWorker id { state.workers id with channel := rest, pc := .handle item }) []
  | handle {id : Fin n} {nowNs : UInt64} {item : WorkItem}
      (at' : (state.workers id).pc = .handle item) :
      EngineStepped args state (.worker id nowNs)
        (state.setWorker id ((state.workers id).handled args item nowNs))
        (.handled id item.seen :: ((strategyStep args item.seen (state.workers id).symbols
          (state.workers id).nextOrderId).order.map (EngineEvent.emitted id)).toList)
  | send {id : Fin n} {nowNs : UInt64} {order : OrderMsg}
      (at' : (state.workers id).pc = .send order) (room : state.orders.length < orderCapacity) :
      EngineStepped args state (.worker id nowNs)
        ({ state with orders := state.orders ++ [(id, order)] }.setWorker id
          { state.workers id with pc := .loopHead }) []

section Inversion

variable [NeZero n] {args : StrategyArgs F} {state after : EngineState F n}
  {events : List (EngineEvent n)}

theorem mainStep_inv (step : mainStep state = some (after, events)) :
    EngineStepped args state .main after events := by
  unfold mainStep at step
  split at step
  · next at' =>
    cases step
    by_cases stop : state.stop = true
    · rw [if_pos stop]
      exact .mainMove (.leave at' stop)
    · rw [if_neg stop]
      exact .mainMove (.enter at' (Bool.eq_false_iff.mpr stop))
  · next item at' =>
    dsimp only at step
    split at step
    · next gone => cases step; exact .refuse at' gone
    · next alive =>
      split at step
      · next room => cases step; exact .deliver at' alive room
      · next full => cases step; exact .drop at' (Nat.le_of_not_lt full)
  · next at' =>
    split at step
    · next empty => cases step; exact .mainMove (.drained at' empty)
    · next orders => cases step; exact .take at' orders
  · next at' => cases step; exact .mainMove (.dropSenders at')
  · next next at' =>
    split at step
    · next within =>
      dsimp only at step
      split at step
      · next gone => cases step; exact .join at' within gone
      · contradiction
    · next all => cases step; exact .mainMove (.joined at' (Nat.le_of_not_lt all))
  · next at' =>
    split at step
    · next empty => cases step; exact .mainMove (.finished at' empty)
    · next orders => cases step; exact .finalTake at' orders
  · contradiction

theorem workerStep_inv {id : Fin n} {nowNs : UInt64}
    (step : workerStep args state id nowNs = some (after, events)) :
    EngineStepped args state (.worker id nowNs) after events := by
  unfold workerStep at step
  dsimp only at step
  split at step
  · next at' =>
    cases step
    by_cases stop : state.stop = true
    · rw [if_pos stop]
      exact .workerMove (.stop at' stop)
    · rw [if_neg stop]
      exact .workerMove (.proceed at' (Bool.eq_false_iff.mpr stop))
  · next at' =>
    split at step
    · next channel => cases step; exact .receive at' channel
    · next empty =>
      cases step
      by_cases senders : state.main.pc.sendersDropped = true
      · rw [if_pos senders]
        exact .workerMove (.disconnected at' empty senders)
      · rw [if_neg senders]
        exact .workerMove (.timeout at' empty (Bool.eq_false_iff.mpr senders))
  · next item at' => cases step; exact .handle at'
  · next order at' =>
    split at step
    · next room => cases step; exact .send at' room
    · contradiction
  · contradiction

theorem engineStep_inv {action : EngineAction n}
    (step : engineStep args state action = some (after, events)) :
    EngineStepped args state action after events := by
  cases action with
  | interrupt => cases step; exact .interrupt
  | main => exact mainStep_inv step
  | checkDeadline reached =>
    simp only [engineStep, Option.ite_none_right_eq_some, Option.some.injEq, Prod.mk.injEq] at step
    obtain ⟨at', rfl, rfl⟩ := step
    cases reached
    · exact .mainMove (.proceed at')
    · exact .mainMove (.reached at')
  | tryConsume found =>
    simp only [engineStep, Option.ite_none_right_eq_some] at step
    obtain ⟨at', step⟩ := step
    cases found with
    | none => cases step; exact .mainMove (.nothing at')
    | some found => cases step; exact .consume at'
  | tryPublish accepted =>
    simp only [engineStep] at step
    split at step
    · next at' => cases step; exact .publish at'
    · next at' => cases step; exact .finalPublish at'
    · contradiction
  | worker id nowNs => exact workerStep_inv step

end Inversion
end Steps

end TradingPipeline.Engine
