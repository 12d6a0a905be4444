import Mathlib.Algebra.Order.BigOperators.Group.Finset
import TradingPipeline.Engine.Rounds

/-! The shutdown of the multi-worker engine.

While the main thread joins, nobody takes orders from their channel, and on a deadline the
workers go on with their backlog. The shutdown comes to its end exactly when the orders that
are still to be sent fit into the channel.
-/

set_option autoImplicit false

namespace TradingPipeline.Engine

open Foundation Shmbus EngineEvent

section Demand

variable {F : Type} {n : Nat}

/-- The ticks that a worker will still handle, as long as the stop flag stays as it is. -/
def Worker.backlog (worker : Worker F) (stop : Bool) : List Observed :=
  let waiting := worker.channel.map WorkItem.seen
  match worker.pc with
  | .loopHead => if stop then [] else waiting
  -- past its test of the flag, it takes one more tick
  | .recvTimeout => if stop then waiting.take 1 else waiting
  | .handle item => item.seen :: (if stop then [] else waiting)
  | .send _ => if stop then [] else waiting
  | .returned => []

/-- The orders that a worker will still send. -/
def Worker.owes (args : StrategyArgs F) (worker : Worker F) (stop : Bool) : Nat :=
  worker.pc.order.length +
    ((strategy args).outputs (worker.symbols, worker.nextOrderId) (worker.backlog stop)).length

/-- The orders that the channel would have to hold. -/
def demand (args : StrategyArgs F) (state : EngineState F n) : Nat :=
  state.orders.length + ∑ id, (state.workers id).owes args state.stop

/-- The main thread has left its loop and has not joined all workers. -/
def MainPc.closing : MainPc n → Bool
  | .dropSenders | .join _ => true
  | _ => false

/-- Every action but the signal handler's is a step of some thread. -/
def OfThread (_ : EngineState F n) (action : EngineAction n) : Prop := action ≠ .interrupt

/-- The shutdown from this state on, whatever the threads and the signal handler do. -/
structure Finishes [NeZero n] (args : StrategyArgs F) (state : EngineState F n) : Prop where
  /-- While some worker has not returned, some thread can take a step. -/
  live : ∀ later, (runWithWorkers args).Leads (fun _ _ => True) state later →
    (∃ id, (later.workers id).pc ≠ .returned) →
    ∃ action, OfThread later action ∧ engineStep args later action ≠ none
  /-- The threads stop at the report and nowhere else. -/
  reports : ∀ later, (runWithWorkers args).Leads (fun _ _ => True) state later →
    (∀ action, OfThread later action → engineStep args later action = none) →
    later.main.pc = .finaliseReport
  /-- Once the senders are dropped, the threads take a bounded number of steps. -/
  ends : ∀ later, (runWithWorkers args).Leads (fun _ _ => True) state later →
    later.main.pc.sendersDropped = true → ∃ bound, ∀ schedule final events,
      (runWithWorkers args).runFrom later schedule = some (final, events) →
      schedule.countP (· ≠ .interrupt) ≤ bound

theorem owes_stop (args : StrategyArgs F) (worker : Worker F) (stop : Bool) :
    worker.owes args true ≤ worker.owes args stop := by
  have begins : worker.backlog true <+: worker.backlog stop := by
    cases stop
    · unfold Worker.backlog
      cases worker.pc with
      | loopHead | send => exact List.nil_prefix
      | recvTimeout => exact List.take_prefix _ _
      | handle item => exact ⟨_, rfl⟩
      | returned => exact List.prefix_refl _
    · exact List.prefix_refl _
  exact Nat.add_le_add_left
    ((strategy args).outputs_mono (worker.symbols, worker.nextOrderId) begins).length_le _

theorem sum_setWorker (state : EngineState F n) (id : Fin n) (worker : Worker F)
    (weigh : Worker F → Nat) :
    ∑ other, weigh ((state.setWorker id worker).workers other) + weigh (state.workers id) =
      ∑ other, weigh (state.workers other) + weigh worker := by
  rw [← Finset.sum_erase_add _ _ (Finset.mem_univ id),
    ← Finset.sum_erase_add Finset.univ (fun other => weigh (state.workers other))
      (Finset.mem_univ id), EngineState.setWorker_self]
  have same : ∑ other ∈ Finset.univ.erase id, weigh ((state.setWorker id worker).workers other) =
      ∑ other ∈ Finset.univ.erase id, weigh (state.workers other) := by
    refine Finset.sum_congr rfl fun other member => ?_
    rw [EngineState.setWorker_other _ _ _ _ (Finset.ne_of_mem_erase member)]
  omega

end Demand

section Steps

variable {F : Type} {n : Nat} [NeZero n] {args : StrategyArgs F} {state after : EngineState F n}
  {action : EngineAction n} {events history : List (EngineEvent n)}

theorem orders_bounded (reach : (runWithWorkers args).Reachable state history) :
    state.orders.length ≤ orderCapacity := by
  induction reach with
  | start => exact Nat.zero_le _
  | next _ _ step ih =>
    cases engineStep_inv step with
    | take _ orders | finalTake _ orders =>
      rw [orders, List.length_cons] at ih
      exact Nat.le_of_succ_le ih
    | send _ room => simpa using Nat.succ_le_of_lt room
    | _ => exact ih

omit [NeZero n] in
theorem WorkerMove.owes {id : Fin n} {pc : WorkerPc} (move : WorkerMove state id pc) :
    ({ state.workers id with pc := pc } : Worker F).owes args state.stop =
      (state.workers id).owes args state.stop := by
  unfold Worker.owes Worker.backlog
  cases move with
  | stop at' stop | proceed at' stop => simp [at', stop]
  | timeout at' empty | disconnected at' empty => simp [at', empty]

section Worker

variable (args) {worker : Worker F} (stop : Bool)

theorem received_owes {item : WorkItem} {rest : List WorkItem} (at' : worker.pc = .recvTimeout)
    (channel : worker.channel = item :: rest) :
    ({ worker with channel := rest, pc := .handle item } : Worker F).owes args stop =
      worker.owes args stop := by
  unfold Worker.owes Worker.backlog
  cases stop <;> simp [at', channel]

theorem handled_owes {item : WorkItem} (at' : worker.pc = .handle item) (nowNs : UInt64) :
    (worker.handled args item nowNs).owes args stop = worker.owes args stop := by
  have before : worker.owes args stop = ((strategyStep args item.seen worker.symbols
      worker.nextOrderId).order.toList ++
      (strategy args).outputs ((strategyStep args item.seen worker.symbols
        worker.nextOrderId).symbols, (strategyStep args item.seen worker.symbols
        worker.nextOrderId).nextOrderId)
        (if stop then [] else worker.channel.map WorkItem.seen)).length := by
    simp only [Worker.owes, Worker.backlog, at', order_handle, List.length_nil, Nat.zero_add]
    rfl
  rw [before, List.length_append, Worker.owes, handled_order]
  -- in either place that handling leads to, the same ticks are left
  cases emits : (strategyStep args item.seen worker.symbols worker.nextOrderId).order with
  | none => simp only [Worker.backlog, handled_loopHead args nowNs emits]; rfl
  | some order => simp only [Worker.backlog, handled_send args nowNs emits]; rfl

theorem sent_owes {order : OrderMsg} (at' : worker.pc = .send order) :
    ({ worker with pc := .loopHead } : Worker F).owes args stop + 1 = worker.owes args stop := by
  simp only [Worker.owes, Worker.backlog, at', order_send, order_loopHead, List.length_nil,
    List.length_singleton]
  omega

end Worker

/-- While the main thread closes down, the threads leave the demand as it is: a worker's
step passes its debt on to the channel and creates none. -/
theorem demand_step (closing : state.main.pc.closing = true) (thread : OfThread state action)
    (stepped : EngineStepped args state action after events) :
    demand args after = demand args state := by
  cases stepped with
  | interrupt => exact absurd rfl thread
  | mainMove | join => rfl
  | consume at' | deliver at' | drop at' | refuse at' | take at' | finalTake at' | publish at'
  | finalPublish at' =>
    rw [at'] at closing
    contradiction
  | @workerMove id nowNs pc move =>
    have sum := sum_setWorker state id { state.workers id with pc := pc }
      (Worker.owes args · state.stop)
    rw [move.owes] at sum
    exact congrArg (state.orders.length + ·) (Nat.add_right_cancel sum)
  | @receive id nowNs item rest at' channel =>
    have sum := sum_setWorker state id { state.workers id with channel := rest, pc := .handle item }
      (Worker.owes args · state.stop)
    rw [received_owes args state.stop at' channel] at sum
    exact congrArg (state.orders.length + ·) (Nat.add_right_cancel sum)
  | @handle id nowNs item at' =>
    have sum := sum_setWorker state id ((state.workers id).handled args item nowNs)
      (Worker.owes args · state.stop)
    rw [handled_owes args state.stop at'] at sum
    exact congrArg (state.orders.length + ·) (Nat.add_right_cancel sum)
  | @send id nowNs order at' room =>
    -- what the worker owes less, the channel holds more
    let queued : EngineState F n := { state with orders := state.orders ++ [(id, order)] }
    have sum := sum_setWorker queued id { state.workers id with pc := .loopHead }
      (Worker.owes args · state.stop)
    have paid := sent_owes args state.stop at'
    simp only [demand, EngineState.setWorker_orders, EngineState.setWorker_stop,
      List.length_append, List.length_singleton] at sum ⊢
    simp only [queued] at sum
    omega

theorem closing_step (left : state.main.pc.left = true)
    (stepped : EngineStepped args state action after events) :
    after.main.pc.left = true ∧
      (after.main.pc.closing = true → state.main.pc.closing = true) := by
  refine ⟨(stepped.left left).1, fun closing => ?_⟩
  cases stepped with
  | interrupt | handle | workerMove | receive | send => exact closing
  | finalTake | finalPublish => contradiction
  | join at' =>
    rw [at']
    rfl
  | mainMove move =>
    cases move with
    | dropSenders at' =>
      rw [at']
      rfl
    | joined | finished => contradiction
    | leave at' | enter at' | reached at' | proceed at' | nothing at' | drained at' =>
      rw [at'] at left
      contradiction
  | consume at' | deliver at' | drop at' | refuse at' | take at' | publish at' =>
    rw [at'] at left
    contradiction

omit [NeZero n] in
theorem demand_interrupt : demand args { state with stop := true } ≤ demand args state :=
  Nat.add_le_add_left
    (Finset.sum_le_sum fun id _ => owes_stop args (state.workers id) state.stop) _

end Steps

section Progress

variable {F : Type} {n : Nat} [NeZero n] {args : StrategyArgs F} {state after : EngineState F n}
  {action : EngineAction n} {events history : List (EngineEvent n)}

/-- What holds all through a shutdown that can finish. -/
structure Closes (args : StrategyArgs F) (state : EngineState F n) : Prop where
  reached : ∃ history, (runWithWorkers args).Reachable state history
  left : state.main.pc.left = true
  fits : state.main.pc.closing = true → demand args state ≤ orderCapacity

theorem Closes.step (closes : Closes args state)
    (step : engineStep args state action = some (after, events)) : Closes args after := by
  obtain ⟨⟨history, reach⟩, left, fits⟩ := closes
  have stepped := engineStep_inv step
  obtain ⟨stays, back⟩ := closing_step left stepped
  refine ⟨⟨_, reach.next trivial step⟩, stays, fun closing => ?_⟩
  by_cases thread : action = .interrupt
  · subst thread
    cases step
    exact demand_interrupt.trans (fits closing)
  · rw [demand_step (back closing) thread stepped]
    exact fits (back closing)

theorem Closes.leads (closes : Closes args state)
    (leads : (runWithWorkers args).Leads (fun _ _ => True) state after) : Closes args after := by
  induction leads with
  | refl => exact closes
  | tail _ step ih =>
    obtain ⟨_, _, _, taken⟩ := step
    exact ih.step taken

omit [NeZero n] in
theorem Joined.all_returned (joined : Joined state) (past : state.main.pc.joins = n)
    (id : Fin n) : (state.workers id).pc = .returned :=
  (joined.each id (by rw [past]; exact id.isLt)).1

/-- A worker that has not returned can go on: one that waits in `send` finds room, since
its own order is part of the demand. -/
theorem worker_enabled (fits : demand args state ≤ orderCapacity) {id : Fin n}
    (alive : (state.workers id).pc ≠ .returned) :
    engineStep args state (.worker id 0) ≠ none := by
  simp only [engineStep, workerStep]
  cases at' : (state.workers id).pc with
  | loopHead | handle => simp
  | recvTimeout => cases (state.workers id).channel <;> simp
  | returned => exact absurd at' alive
  | send order =>
    -- the order in its hand is part of the demand, so the channel has room for it
    have own : (state.workers id).owes args state.stop ≤
        ∑ other, (state.workers other).owes args state.stop :=
      Finset.single_le_sum (f := fun other => (state.workers other).owes args state.stop)
        (fun _ _ => Nat.zero_le _) (Finset.mem_univ id)
    have debt := sent_owes args state.stop at'
    have room : state.orders.length < orderCapacity := by
      unfold demand at fits
      omega
    simp [room]

theorem Closes.live (closes : Closes args state)
    (unreturned : ∃ id, (state.workers id).pc ≠ .returned) :
    ∃ action, OfThread state action ∧ engineStep args state action ≠ none := by
  obtain ⟨⟨history, reach⟩, left, fits⟩ := closes
  obtain ⟨id, alive⟩ := unreturned
  have past (joins : state.main.pc.joins = n) : False :=
    alive ((accounted reach).joined.all_returned joins id)
  cases at' : state.main.pc with
  | dropSenders | join =>
    rw [at'] at fits
    exact ⟨.worker id 0, nofun, worker_enabled (fits rfl) alive⟩
  | finalDrain | finalPublish | finaliseReport =>
    exact absurd (by rw [at']; rfl) past
  | loopHead | deadline | tryConsume | trySend | drain | publish =>
    rw [at'] at left
    contradiction

theorem Closes.reports (closes : Closes args state)
    (stuck : ∀ action, OfThread state action → engineStep args state action = none) :
    state.main.pc = .finaliseReport := by
  have main := stuck .main nofun
  have publish := stuck (.tryPublish true) nofun
  have returned (id : Fin n) : (state.workers id).pc = .returned := by
    by_contra alive
    obtain ⟨action, thread, enabled⟩ := closes.live ⟨id, alive⟩
    exact enabled (stuck action thread)
  have left := closes.left
  cases at' : state.main.pc with
  | finaliseReport => rfl
  | dropSenders => simp [engineStep, mainStep, at'] at main
  | finalDrain =>
    simp only [engineStep, mainStep, at'] at main
    split at main <;> contradiction
  | join next =>
    simp [engineStep, mainStep, at', returned] at main
    split at main <;> contradiction
  | finalPublish id order => simp [engineStep, at'] at publish
  | loopHead | deadline | tryConsume | trySend | drain | publish =>
    rw [at'] at left
    contradiction

/-! What the threads have still to do, at most, once the senders are dropped. -/

def WorkerPc.rank : WorkerPc → Nat
  | .returned => 0
  | .recvTimeout => 1
  | .loopHead => 2
  | .send _ => 5
  | .handle _ => 6

def MainPc.rank : MainPc n → Nat
  | .join next => n - next + 2
  | .finalPublish _ _ => 2
  | .finalDrain => 1
  | _ => 0

def Worker.work (worker : Worker F) : Nat := 6 * worker.channel.length + worker.pc.rank

/-- A queued order is worth two steps of the final drain. -/
def remaining (state : EngineState F n) : Nat :=
  state.main.pc.rank + 2 * state.orders.length + ∑ id, (state.workers id).work

omit [NeZero n] in
theorem remaining_setWorker (state : EngineState F n) (id : Fin n) (worker : Worker F) :
    remaining (state.setWorker id worker) + (state.workers id).work =
      remaining state + worker.work := by
  have sum := sum_setWorker state id worker Worker.work
  simp only [remaining, EngineState.setWorker_main, EngineState.setWorker_orders]
  omega

omit [NeZero n] in
theorem MainMove.remaining {pc : MainPc n} (move : MainMove state pc)
    (dropped : state.main.pc.sendersDropped = true) : pc.rank + 1 ≤ state.main.pc.rank := by
  cases move with
  | joined at' => rw [at']; simp [MainPc.rank]
  | finished at' => rw [at']; simp [MainPc.rank]
  | leave at' | enter at' | reached at' | proceed at' | nothing at' | drained at' | dropSenders at' =>
    rw [at'] at dropped
    contradiction

omit [NeZero n] in
theorem WorkerMove.remaining {id : Fin n} {pc : WorkerPc} (move : WorkerMove state id pc)
    (dropped : state.main.pc.sendersDropped = true) :
    ({ state.workers id with pc := pc } : Worker F).work + 1 ≤ (state.workers id).work := by
  unfold Worker.work
  cases move with
  | stop at' | proceed at' | disconnected at' => simp [at', WorkerPc.rank]
  | timeout _ _ senders =>
    rw [senders] at dropped
    contradiction

omit [NeZero n] in
theorem handled_work {id : Fin n} {item : WorkItem} (at' : (state.workers id).pc = .handle item)
    (nowNs : UInt64) :
    ((state.workers id).handled args item nowNs).work + 1 ≤ (state.workers id).work := by
  simp only [Worker.work, at', handled_channel]
  cases emits : (strategyStep args item.seen (state.workers id).symbols
      (state.workers id).nextOrderId).order with
  | none => simp [handled_loopHead args nowNs emits, WorkerPc.rank]
  | some order => simp [handled_send args nowNs emits, WorkerPc.rank]

omit [NeZero n] in
theorem remaining_worker {id : Fin n} {nowNs : UInt64} {worker : Worker F}
    (lower : worker.work + 1 ≤ (state.workers id).work) :
    remaining (state.setWorker id worker) +
      (if EngineAction.worker id nowNs = .interrupt then 0 else 1) ≤ remaining state := by
  have sum := remaining_setWorker state id worker
  rw [if_neg (by simp)]
  omega

theorem remaining_step (dropped : state.main.pc.sendersDropped = true)
    (stepped : EngineStepped args state action after events) :
    remaining after + (if action = .interrupt then 0 else 1) ≤ remaining state := by
  cases stepped with
  | interrupt => exact Nat.le_refl _
  | consume at' | deliver at' | drop at' | refuse at' | take at' | publish at' =>
    rw [at'] at dropped
    contradiction
  | @finalTake id order rest at' orders =>
    simp only [remaining, at', orders, MainPc.rank, List.length_cons, reduceCtorEq, if_false,
      EngineState.setPc_pc, EngineState.setPc_orders, EngineState.setPc_workers]
    omega
  | @finalPublish id order accepted at' =>
    simp only [remaining, publishStep, at', MainPc.rank, reduceCtorEq, if_false]
    omega
  | @join next at' within =>
    simp only [remaining, at', MainPc.rank, reduceCtorEq, if_false]
    omega
  | @mainMove action pc move =>
    have lower := move.remaining dropped
    have one : (if action = .interrupt then 0 else 1) ≤ 1 := by split <;> simp
    simp only [remaining, EngineState.setPc_pc, EngineState.setPc_orders, EngineState.setPc_workers]
    omega
  | workerMove move => exact remaining_worker (move.remaining dropped)
  | handle at' => exact remaining_worker (handled_work at' _)
  | receive at' channel =>
    refine remaining_worker ?_
    simp only [Worker.work, at', channel, WorkerPc.rank, List.length_cons]
    omega
  | @send id nowNs order at' room =>
    have sum := remaining_setWorker { state with orders := state.orders ++ [(id, order)] } id
      { state.workers id with pc := .loopHead }
    simp only [Worker.work, at', WorkerPc.rank, remaining, List.length_append,
      List.length_singleton] at sum ⊢
    rw [if_neg (by simp)]
    omega

theorem Closes.finishes (closes : Closes args state) : Finishes args state := by
  constructor
  case live => exact fun later leads => (closes.leads leads).live
  case reports => exact fun later leads => (closes.leads leads).reports
  case ends =>
    intro later _ dropped
    refine ⟨remaining later, fun schedule final events run => ?_⟩
    refine System.countP_le_of_run remaining (fun state => state.main.pc.sendersDropped = true) _
      ?_ dropped run
    intro state action after events dropped step
    have stepped := engineStep_inv step
    simpa using ⟨(stepped.senders dropped).1, remaining_step dropped stepped⟩

/-- The main thread joins, and the channel cannot take the orders still to come. -/
structure Overfull (args : StrategyArgs F) (state : EngineState F n) : Prop where
  reached : ∃ history, (runWithWorkers args).Reachable state history
  joining : state.main.pc.closing = true
  dropped : state.main.pc.sendersDropped = true
  exceeds : orderCapacity < demand args state

/-- The main thread cannot get past the joins: with all workers returned, the demand would
be what lies in the channel. -/
theorem Overfull.step (overfull : Overfull args state) (thread : OfThread state action)
    (step : engineStep args state action = some (after, events)) : Overfull args after := by
  obtain ⟨⟨history, reach⟩, joining, dropped, exceeds⟩ := overfull
  have stepped := engineStep_inv step
  have reached := reach.next trivial step
  have kept := demand_step joining thread stepped
  refine ⟨⟨_, reached⟩, ?_, (stepped.senders dropped).1, kept ▸ exceeds⟩
  by_contra finished
  have past : after.main.pc.joins = n := by
    have later := (stepped.senders dropped).1
    cases at' : after.main.pc with
    | finalDrain | finalPublish | finaliseReport => rfl
    | dropSenders | join => exact absurd (by rw [at']; rfl) finished
    | loopHead | deadline | tryConsume | trySend | drain | publish =>
      rw [at'] at later
      contradiction
  have returned := (accounted reached).joined.all_returned past
  have nothing : demand args after = after.orders.length := by
    simp [demand, Worker.owes, Worker.backlog, returned, Transducer.outputs]
  have bounded := orders_bounded reached
  omega

/-- A shutdown that is bound to finish has room for the orders still to come: else the
threads can be run until they are stuck, with the main thread still joining. -/
theorem Finishes.fits (reach : (runWithWorkers args).Reachable state history)
    (leaving : state.main.pc = .dropSenders) (finishes : Finishes args state) :
    demand args state ≤ orderCapacity := by
  by_contra exceeds
  have first : (runWithWorkers args).step state .main = some (state.setPc (.join 0), []) := by
    simp [runWithWorkers, engineStep, mainStep, leaving]
  have overfull : Overfull args (state.setPc (.join 0)) :=
    ⟨⟨_, reach.next trivial first⟩, rfl, rfl, Nat.lt_of_not_le exceeds⟩
  -- let the threads run until none can move: the main thread is still at a join
  obtain ⟨stuck, leads, overfull, quiet⟩ := System.exists_quiescent (M := runWithWorkers args)
    OfThread remaining (Overfull args)
    (fun overfull thread step => by
      have lower := remaining_step overfull.dropped (engineStep_inv step)
      rw [if_neg thread] at lower
      exact ⟨overfull.step thread step, lower⟩) _ overfull
  have whole := (leads.mono fun _ _ _ => trivial).head ⟨.main, [], trivial, first⟩
  have done := finishes.reports stuck whole quiet
  have joining := overfull.joining
  rw [done] at joining
  contradiction

/-- The shutdown finishes exactly when the orders still to be sent fit into the channel. -/
theorem shutdown_finishes_iff (reach : (runWithWorkers args).Reachable state history)
    (leaving : state.main.pc = .dropSenders) :
    Finishes args state ↔ demand args state ≤ orderCapacity := by
  constructor
  · exact Finishes.fits reach leaving
  · intro fits
    have closes : Closes args state := ⟨⟨_, reach⟩, by rw [leaving]; rfl, fun _ => fits⟩
    exact closes.finishes

end Progress

section Deadline

/-- With one order still to come at the deadline, the shutdown finishes. -/
theorem shutdown_finishes_order : ∃ state : EngineState ℚ 1,
    demand eagerArgs state = 1 ∧ Finishes eagerArgs state := by
  let found : Consumed := oneTick (.replicate 8 65)
  let round : List (EngineAction 1) :=
    [.main, .checkDeadline false, .tryConsume (some found), .main, .main]
  obtain ⟨state, history, reach, checked⟩ := System.exists_reach_of_run
    (runWithWorkers (n := 1) eagerArgs) (fun _ _ => True)
    (round ++ round ++ [.main, .checkDeadline true])
    (fun reached => reached.1.main.pc = .dropSenders ∧ demand eagerArgs reached.1 = 1)
    (System.allowedAlong_true _ _ _) (by decide +kernel)
  obtain ⟨leaving, one⟩ := of_decide_eq_true checked
  exact ⟨state, one, (shutdown_finishes_iff reach leaving).mpr (by rw [one]; decide)⟩

variable {state : EngineState ℚ 1} {history : List (EngineEvent 1)}

/-- The only worker waits in `send`, with a number of ticks in its channel that will all
yield orders. -/
structure Holding (worker : Worker ℚ) (symbol : Symbol) (count : Nat) : Prop where
  sending : ∃ order, worker.pc = .send order
  initialised : (worker.symbols symbol).initialised = true
  length : worker.channel.length = count
  same : ∀ item ∈ worker.channel, item.seen.tick.symbol = symbol

theorem eager_outputs (symbol : Symbol) (symbols : SymbolMap ℚ) (nextOrderId : UInt64)
    (ticks : List Observed) (initialised : (symbols symbol).initialised = true)
    (same : ∀ seen ∈ ticks, seen.tick.symbol = symbol) :
    ((strategy eagerArgs).outputs (symbols, nextOrderId) ticks).length = ticks.length := by
  induction ticks generalizing symbols nextOrderId with
  | nil => rfl
  | cons seen rest ih =>
    have here : seen.tick.symbol = symbol := same seen List.mem_cons_self
    subst here
    obtain ⟨order, emits, stays⟩ := eager_emits seen symbols nextOrderId initialised
    have tail := ih _ (strategyStep eagerArgs seen symbols nextOrderId).nextOrderId stays
      fun later member => same later (List.mem_cons_of_mem _ member)
    simp only [Transducer.outputs, strategy, emits, List.length_append, List.length_cons] at tail ⊢
    simp only [tail, Option.toList_some, List.length_singleton]
    omega

theorem fill_channel (symbol : Symbol) (count : Nat) (fits : count ≤ tickCapacity) :
    ∃ state history, (runWithWorkers (n := 1) eagerArgs).Reachable state history ∧ Ready state ∧
      Holding (state.workers 0) symbol count := by
  have routed : target symbol = (0 : Fin 1) := Subsingleton.elim _ _
  induction count with
  | zero =>
    obtain ⟨state, history, reach, ready, waiting, _⟩ := first_tick routed
    -- the worker stays before its send from now on
    obtain ⟨after, events, order, reach, ready, sending, empty, seen, _⟩ :=
      tick_emits routed reach ready waiting
    exact ⟨after, _, reach, ready, ⟨order, sending⟩, seen, by rw [empty]; rfl, by simp [empty]⟩
  | succ count ih =>
    obtain ⟨state, history, reach, ready, holding⟩ := ih (Nat.le_of_succ_le fits)
    obtain ⟨order, sending⟩ := holding.sending
    obtain ⟨after, _, reach, ready, workers, _⟩ := dispatch_round reach ready (oneTick symbol)
      routed (by rw [sending]; simp) (by rw [holding.length]; exact fits)
    refine ⟨after, _, reach, ready, ?_⟩
    rw [workers, Function.update_self]
    refine ⟨⟨order, sending⟩, holding.initialised, by simp [Worker.given, holding.length], ?_⟩
    intro item member
    rcases List.mem_append.mp member with earlier | last
    · exact holding.same item earlier
    · rw [List.mem_singleton.mp last]
      rfl

/-- At a deadline with 8193 orders still to come, the shutdown of one worker gets stuck. -/
theorem deadline_deadlock : ¬ ∀ (F : Type) (n : Nat) [NeZero n] (args : StrategyArgs F)
    (state : EngineState F n) history, (runWithWorkers args).Reachable state history →
    state.main.pc = .dropSenders → Finishes args state := by
  intro always
  let symbol : Symbol := .replicate 8 65
  obtain ⟨state, history, reach, ready, holding⟩ :=
    fill_channel symbol tickCapacity (Nat.le_refl _)
  have run : (runWithWorkers eagerArgs).runFrom state [.main, .checkDeadline true] =
      some (state.setPc .dropSenders, []) := by
    simp [System.runFrom, runWithWorkers, engineStep, mainStep, EngineState.setPc, ready.loopHead,
      ready.running]
  have left := reach.extend (System.allowedAlong_true _ _ _) run
  have fits := Finishes.fits left rfl (always ℚ 1 eagerArgs _ _ left rfl)
  obtain ⟨order, sending⟩ := holding.sending
  -- the order in hand, and one more for each tick in the channel
  have owes : (state.workers 0).owes eagerArgs false = 1 + tickCapacity := by
    rw [Worker.owes, Worker.backlog, sending, ← holding.length]
    dsimp only
    rw [if_neg (by simp), eager_outputs symbol _ _ _ holding.initialised]
    · simp
    · intro seen member
      obtain ⟨item, among, rfl⟩ := List.mem_map.mp member
      exact holding.same item among
  have exceeds : demand eagerArgs (state.setPc .dropSenders) = 1 + tickCapacity := by
    simp [demand, ready.collected, ready.running, owes]
  rw [exceeds] at fits
  exact absurd fits (by decide)

end Deadline

end TradingPipeline.Engine
