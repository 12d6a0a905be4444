import Mathlib.Data.List.Induction
import TradingPipeline.Engine.Strategy
import TradingPipeline.Foundation.Transition
import TradingPipeline.Shmbus.Latency

/-! `run_inline`, the single-threaded engine, statement by statement.

What the rings answer comes with the action, as do the deadline and the readings of the clock.
The reports that the loop prints every two seconds change nothing and are left out.
-/

set_option autoImplicit false

namespace TradingPipeline.Engine

open Foundation Shmbus

/-- What `idle_backoff` does with the thread. -/
inductive Pause where
  | spinLoop
  | yieldNow
  | sleep
  deriving DecidableEq

def idleBackoff (spin : UInt32) : UInt32 × Pause :=
  let spin := if spin = 0xFFFFFFFF then spin else spin + 1
  (spin, if spin < 64 then .spinLoop else if spin < 1024 then .yieldNow else .sleep)

inductive InlinePc where
  | loopHead
  | deadline
  | tryConsume
  /-- Before the clock is read for the consumed tick. -/
  | handle (tick : MarketTick)
  | tryPublish (order : OrderMsg)
  | returned
  deriving DecidableEq

/-- What the loop keeps for its strategy and for its report. -/
structure InlineState (F : Type) where
  symbols : SymbolMap F
  nextOrderId : UInt64
  ticksSeen : UInt64
  ordersSent : UInt64
  ordersDropped : UInt64
  shmTransit : LatencyHistogram
  endToEnd : LatencyHistogram

structure InlineLoop (F : Type) where
  pc : InlinePc
  stop : Bool
  idleSpin : UInt32
  run : InlineState F

inductive InlineAction where
  /-- The signal handler sets the stop flag. -/
  | interrupt
  | loopHead
  | checkDeadline (reached : Bool)
  | tryConsume (found : Option MarketTick)
  | handle (consumeTs nowNs : UInt64)
  | tryPublish (accepted : Bool)
  deriving DecidableEq

inductive InlineEvent where
  | paused (pause : Pause)
  | consumed (tick : MarketTick)
  | handled (seen : Observed)
  | offered (order : OrderMsg) (accepted : Bool)
  deriving DecidableEq

section Loop

variable {F : Type} (args : StrategyArgs F)

def InlineState.start : InlineState F where
  symbols _ := .default args
  nextOrderId := 1
  ticksSeen := 0
  ordersSent := 0
  ordersDropped := 0
  shmTransit := .new
  endToEnd := .new

/-- What the strategy generates over the ticks, from the state in which the loop starts. -/
def inlineOrders (ticks : List Observed) : List OrderMsg :=
  (strategy args).outputs ((InlineState.start args).symbols, (InlineState.start args).nextOrderId)
    ticks

def InlineLoop.setPc (state : InlineLoop F) (pc : InlinePc) : InlineLoop F := { state with pc := pc }

/-- From the first reading of the clock to the outcome of `strategy_step`. -/
def InlineState.handled (run : InlineState F) (seen : Observed) (consumeTs : UInt64) :
    InlineState F × Option OrderMsg :=
  let result := strategyStep args seen run.symbols run.nextOrderId
  ({ run with
      symbols := result.symbols
      nextOrderId := result.nextOrderId
      shmTransit := run.shmTransit.record (saturatingSub consumeTs seen.tick.recvTsNs)
      endToEnd := run.endToEnd.record (saturatingSub consumeTs seen.tick.exchTsNs) },
    result.order)

/-- The counting of what `try_publish_order` answers. -/
def InlineState.counted (run : InlineState F) (accepted : Bool) : InlineState F :=
  if accepted then { run with ordersSent := run.ordersSent + 1 }
  else { run with ordersDropped := run.ordersDropped + 1 }

def inlineStep (state : InlineLoop F) : InlineAction → Option (InlineLoop F × List InlineEvent)
  | .interrupt => some ({ state with stop := true }, [])
  | .loopHead =>
    if state.pc = .loopHead then
      some (state.setPc (if state.stop then .returned else .deadline), [])
    else none
  | .checkDeadline reached =>
    if state.pc = .deadline then
      some (state.setPc (if reached then .returned else .tryConsume), [])
    else none
  | .tryConsume found =>
    if state.pc = .tryConsume then
      match found with
      | none =>
        let (spin, pause) := idleBackoff state.idleSpin
        some ({ state with pc := .loopHead, idleSpin := spin }, [.paused pause])
      | some tick =>
        some ({ state with
          pc := .handle tick
          idleSpin := 0
          run := { state.run with ticksSeen := state.run.ticksSeen + 1 } }, [.consumed tick])
    else none
  | .handle consumeTs nowNs =>
    match state.pc with
    | .handle tick =>
      let (run, order) := state.run.handled args ⟨tick, nowNs⟩ consumeTs
      some ({ state with
        pc := match order with | some order => .tryPublish order | none => .loopHead
        run := run }, [.handled ⟨tick, nowNs⟩])
    | _ => none
  | .tryPublish accepted =>
    match state.pc with
    | .tryPublish order =>
      some ({ state with pc := .loopHead, run := state.run.counted accepted },
        [.offered order accepted])
    | _ => none

def inlineLoop : System (InlineLoop F) InlineAction InlineEvent where
  start := ⟨.loopHead, false, 0, .start args⟩
  step := inlineStep args

/-- Moves of the loop that touch nothing but its program counter. -/
inductive InlineMove (state : InlineLoop F) : InlinePc → Prop where
  | leave (at' : state.pc = .loopHead) : InlineMove state .returned
  | enter (at' : state.pc = .loopHead) : InlineMove state .deadline
  | reached (at' : state.pc = .deadline) : InlineMove state .returned
  | proceed (at' : state.pc = .deadline) : InlineMove state .tryConsume

/-- Everything that one step can do. -/
inductive InlineStepped (state : InlineLoop F) :
    InlineAction → InlineLoop F → List InlineEvent → Prop where
  | interrupt : InlineStepped state .interrupt { state with stop := true } []
  | move {action : InlineAction} {pc : InlinePc} (move : InlineMove state pc)
      (own : ∀ found, action ≠ .tryConsume found) (silent : ∀ accepted, action ≠ .tryPublish accepted) :
      InlineStepped state action (state.setPc pc) []
  | nothing (at' : state.pc = .tryConsume) :
      InlineStepped state (.tryConsume none)
        { state with pc := .loopHead, idleSpin := (idleBackoff state.idleSpin).1 }
        [.paused (idleBackoff state.idleSpin).2]
  | consume {tick : MarketTick} (at' : state.pc = .tryConsume) :
      InlineStepped state (.tryConsume (some tick))
        { state with
          pc := .handle tick
          idleSpin := 0
          run := { state.run with ticksSeen := state.run.ticksSeen + 1 } } [.consumed tick]
  | handle {tick : MarketTick} {consumeTs nowNs : UInt64} (at' : state.pc = .handle tick)
      {pc : InlinePc}
      (leads : pc = match (strategyStep args ⟨tick, nowNs⟩ state.run.symbols
        state.run.nextOrderId).order with | some order => .tryPublish order | none => .loopHead) :
      InlineStepped state (.handle consumeTs nowNs)
        { state with pc := pc, run := (state.run.handled args ⟨tick, nowNs⟩ consumeTs).1 }
        [.handled ⟨tick, nowNs⟩]
  | publish {order : OrderMsg} {accepted : Bool} (at' : state.pc = .tryPublish order) :
      InlineStepped state (.tryPublish accepted)
        { state with pc := .loopHead, run := state.run.counted accepted } [.offered order accepted]

variable {args} {state after : InlineLoop F} {action : InlineAction}
  {events history : List InlineEvent}

theorem inlineStep_inv (step : inlineStep args state action = some (after, events)) :
    InlineStepped args state action after events := by
  cases action with
  | interrupt => cases step; exact .interrupt
  | loopHead =>
    simp only [inlineStep, Option.ite_none_right_eq_some] at step
    obtain ⟨at', step⟩ := step
    cases step
    split
    · exact .move (.leave at') nofun nofun
    · exact .move (.enter at') nofun nofun
  | checkDeadline reached =>
    simp only [inlineStep, Option.ite_none_right_eq_some] at step
    obtain ⟨at', step⟩ := step
    cases step
    cases reached
    · exact .move (.proceed at') nofun nofun
    · exact .move (.reached at') nofun nofun
  | tryConsume found =>
    simp only [inlineStep, Option.ite_none_right_eq_some] at step
    obtain ⟨at', step⟩ := step
    cases found with
    | none => cases step; exact .nothing at'
    | some tick => cases step; exact .consume at'
  | handle consumeTs nowNs =>
    simp only [inlineStep] at step
    split at step
    · next at' => cases step; exact .handle at' rfl
    · contradiction
  | tryPublish accepted =>
    simp only [inlineStep] at step
    split at step
    · next at' => cases step; exact .publish at'
    · contradiction

end Loop

namespace InlineEvent

def consumptions (history : List InlineEvent) : List MarketTick :=
  history.filterMap fun | .consumed tick => some tick | _ => none

def handlings (history : List InlineEvent) : List Observed :=
  history.filterMap fun | .handled seen => some seen | _ => none

def offers (history : List InlineEvent) : List (OrderMsg × Bool) :=
  history.filterMap fun | .offered order accepted => some (order, accepted) | _ => none

section Append

variable (first second : List InlineEvent)

@[simp] theorem consumptions_append :
    consumptions (first ++ second) = consumptions first ++ consumptions second :=
  List.filterMap_append

@[simp] theorem handlings_append : handlings (first ++ second) = handlings first ++ handlings second :=
  List.filterMap_append

@[simp] theorem offers_append : offers (first ++ second) = offers first ++ offers second :=
  List.filterMap_append

end Append
end InlineEvent

/-- The tick that the loop has consumed and not yet looked at. -/
def InlinePc.tick : InlinePc → List MarketTick
  | .handle tick => [tick]
  | _ => []

/-- The order that it has generated and not yet offered. -/
def InlinePc.order : InlinePc → Option OrderMsg
  | .tryPublish order => some order
  | _ => none

section Accounts

open InlineEvent

variable {F : Type} {args : StrategyArgs F} {state after : InlineLoop F} {action : InlineAction}
  {events history : List InlineEvent}

/-- What the loop has made of what it has consumed. -/
structure InlineAccounted (args : StrategyArgs F) (state : InlineLoop F)
    (history : List InlineEvent) : Prop where
  ticks : consumptions history = (handlings history).map Observed.tick ++ state.pc.tick
  reached : (strategy args).after
    ((InlineState.start args).symbols, (InlineState.start args).nextOrderId) (handlings history) =
      (state.run.symbols, state.run.nextOrderId)
  orders : inlineOrders args (handlings history) =
    (offers history).map Prod.fst ++ state.pc.order.toList
  seen : state.run.ticksSeen = .ofNat (consumptions history).length
  sent : state.run.ordersSent = .ofNat ((offers history).filter Prod.snd).length
  dropped : state.run.ordersDropped = .ofNat ((offers history).filter fun offer => !offer.2).length

theorem InlineMove.hands {pc : InlinePc} (move : InlineMove state pc) :
    state.pc.tick = [] ∧ state.pc.order = none ∧ pc.tick = [] ∧ pc.order = none := by
  cases move with
  | leave at' | enter at' | reached at' | proceed at' =>
    rw [at']
    exact ⟨rfl, rfl, rfl, rfl⟩

theorem InlineAccounted.frame (accounted : InlineAccounted args state history)
    (tick : after.pc.tick = state.pc.tick) (order : after.pc.order = state.pc.order)
    (run : after.run = state.run) (consumed : consumptions events = [])
    (handled : handlings events = []) (offered : offers events = []) :
    InlineAccounted args after (history ++ events) := by
  obtain ⟨ticks, reached, orders, seen, sent, dropped⟩ := accounted
  constructor <;> simp only [consumptions_append, handlings_append, offers_append, consumed, handled,
    offered, tick, order, run, List.append_nil] <;> assumption

theorem InlineAccounted.step (accounted : InlineAccounted args state history)
    (stepped : InlineStepped args state action after events) :
    InlineAccounted args after (history ++ events) := by
  obtain ⟨ticks, reached, orders, seen, sent, dropped⟩ := accounted
  cases stepped with
  | interrupt => exact .frame ⟨ticks, reached, orders, seen, sent, dropped⟩ rfl rfl rfl rfl rfl rfl
  | move move =>
    obtain ⟨tick, order, noTick, noOrder⟩ := move.hands
    exact .frame ⟨ticks, reached, orders, seen, sent, dropped⟩ (noTick.trans tick.symm)
      (noOrder.trans order.symm) rfl rfl rfl rfl
  | nothing at' =>
    exact .frame ⟨ticks, reached, orders, seen, sent, dropped⟩ (by rw [at']; rfl) (by rw [at']; rfl)
      rfl rfl rfl rfl
  | @consume tick at' =>
    rw [at'] at ticks orders
    have noHandling : handlings [.consumed tick] = [] := rfl
    have noOffer : offers [.consumed tick] = [] := rfl
    have one : consumptions [.consumed tick] = [tick] := rfl
    constructor <;> simp only [consumptions_append, handlings_append, offers_append, noHandling, noOffer,
      one, List.append_nil, List.length_append]
    case ticks => rw [ticks]; simp [InlinePc.tick]
    case seen =>
      rw [seen, UInt64.ofNat_add]
      rfl
    all_goals assumption
  | @handle tick consumeTs nowNs at' pc leads =>
    rw [at'] at ticks orders
    have one : handlings [.handled ⟨tick, nowNs⟩] = [⟨tick, nowNs⟩] := rfl
    have noConsumption : consumptions [.handled ⟨tick, nowNs⟩] = [] := rfl
    have noOffer : offers [.handled ⟨tick, nowNs⟩] = [] := rfl
    have hand : pc.tick = [] ∧ pc.order =
        (strategyStep args ⟨tick, nowNs⟩ state.run.symbols state.run.nextOrderId).order := by
      rw [leads]
      split <;> next is => exact ⟨rfl, is.symm⟩
    constructor <;> simp only [consumptions_append, handlings_append, offers_append, one, noConsumption,
      noOffer, List.append_nil]
    case ticks => rw [ticks, hand.1]; simp [InlinePc.tick]
    case reached =>
      rw [Transducer.after_append, reached]
      rfl
    case orders =>
      rw [inlineOrders] at orders ⊢
      rw [Transducer.outputs_append, reached, orders, hand.2]
      simp [InlinePc.order, Transducer.outputs, strategy]
    all_goals assumption
  | @publish order accepted at' =>
    rw [at'] at ticks orders
    have noConsumption : consumptions [.offered order accepted] = [] := rfl
    have noHandling : handlings [.offered order accepted] = [] := rfl
    have one : offers [.offered order accepted] = [(order, accepted)] := rfl
    constructor <;> simp only [consumptions_append, handlings_append, offers_append, noConsumption,
      noHandling, one, List.append_nil, List.map_append, List.filter_append, List.length_append]
    case ticks => exact ticks
    case reached => cases accepted <;> exact reached
    case orders => rw [orders]; simp [InlinePc.order]
    case seen => cases accepted <;> exact seen
    case sent => cases accepted <;> simp [InlineState.counted, sent]
    case dropped => cases accepted <;> simp [InlineState.counted, dropped]

theorem inlineAccounted (reach : (inlineLoop args).Reachable state history) :
    InlineAccounted args state history := by
  induction reach with
  | start => exact ⟨rfl, rfl, rfl, rfl, rfl, rfl⟩
  | next _ _ step ih => exact ih.step (inlineStep_inv step)

variable (args) in
theorem inline_round (seen : Observed) (at' : state.pc = .loopHead) (running : state.stop = false) :
    ∃ schedule after events, (inlineLoop args).runFrom state schedule = some (after, events) ∧
      after.pc = .loopHead ∧ after.stop = false ∧ handlings events = [seen] := by
  let ticked := { state.run with ticksSeen := state.run.ticksSeen + 1 }
  let order := (strategyStep args seen state.run.symbols state.run.nextOrderId).order
  let next : InlineLoop F :=
    ⟨match order with | some order => .tryPublish order | none => .loopHead, false, 0,
      (ticked.handled args seen 0).1⟩
  have looked : (inlineLoop args).runFrom state
      [.loopHead, .checkDeadline false, .tryConsume (some seen.tick), .handle 0 seen.nowNs] =
        some (next, [.consumed seen.tick, .handled seen]) := by
    obtain ⟨pc, stop, spin, run⟩ := state
    cases at'
    cases running
    rfl
  cases made : order with
  | none => exact ⟨_, next, _, looked, by simp only [next, made], rfl, rfl⟩
  | some order =>
    have offering : next.pc = .tryPublish order := by simp only [next, made]
    have published : (inlineLoop args).step next (.tryPublish true) =
        some ({ next with pc := .loopHead, run := next.run.counted true },
          [.offered order true]) := by
      simp only [inlineLoop, inlineStep, offering]
    exact ⟨_, _, _, System.runFrom_append looked (System.runFrom_one published), rfl, rfl, rfl⟩

/-- Whatever ticks it finds, the loop offers what its strategy generates over them. -/
theorem inline_generates (args : StrategyArgs F) (ticks : List Observed) :
    ∃ state history, (inlineLoop args).Reachable state history ∧ handlings history = ticks ∧
      (offers history).map Prod.fst = inlineOrders args ticks := by
  suffices run : ∃ state history, (inlineLoop args).Reachable state history ∧
      state.pc = .loopHead ∧ state.stop = false ∧ handlings history = ticks by
    obtain ⟨state, history, reach, at', -, handled⟩ := run
    have generated := (inlineAccounted reach).orders
    rw [at', handled] at generated
    exact ⟨state, history, reach, handled, by simpa [InlinePc.order] using generated.symm⟩
  induction ticks using List.reverseRecOn with
  | nil => exact ⟨_, [], .start, rfl, rfl, rfl⟩
  | append_singleton earlier seen ih =>
    obtain ⟨state, history, reach, at', running, handled⟩ := ih
    obtain ⟨schedule, after, events, ran, head, runs, one⟩ := inline_round args seen at' running
    refine ⟨after, history ++ events, reach.extend (System.allowedAlong_true _ _ _) ran, head,
      runs, ?_⟩
    rw [handlings_append, handled, one]

end Accounts

end TradingPipeline.Engine
