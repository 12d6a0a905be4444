import TradingPipeline.Engine.Accounts

/-! Rounds of the dispatcher and of a worker, as blocks to build long runs from. -/

set_option autoImplicit false

namespace TradingPipeline.Engine

open Foundation Shmbus EngineEvent

section Rounds

section Handled

variable {F : Type} (args : StrategyArgs F) {worker : Worker F} {item : WorkItem} (nowNs : UInt64)

theorem handled_send {order : OrderMsg}
    (emits : (strategyStep args item.seen worker.symbols worker.nextOrderId).order = some order) :
    (worker.handled args item nowNs).pc = .send order := by
  simp only [Worker.handled, emits]

theorem handled_loopHead
    (quiet : (strategyStep args item.seen worker.symbols worker.nextOrderId).order = none) :
    (worker.handled args item nowNs).pc = .loopHead := by
  simp only [Worker.handled, quiet]

end Handled

variable {F : Type} {n : Nat} [NeZero n] {args : StrategyArgs F} {state : EngineState F n}
  {history : List (EngineEvent n)}

/-- The dispatcher is at its loop head, the orders channel is empty and nobody has asked to
stop. -/
structure Ready (state : EngineState F n) : Prop where
  running : state.stop = false
  loopHead : state.main.pc = .loopHead
  collected : state.orders = []

/-- The worker after one more item has been put into its channel. -/
def Worker.given (worker : Worker F) (item : WorkItem) : Worker F :=
  { worker with channel := worker.channel ++ [item] }

/-- The dispatcher hands one tick to a worker whose channel has room. -/
theorem dispatch_round (reach : (runWithWorkers args).Reachable state history) (ready : Ready state)
    (found : Consumed) {id : Fin n} (routed : target found.seen.tick.symbol = id)
    (alive : (state.workers id).pc ≠ .returned)
    (room : (state.workers id).channel.length < tickCapacity) :
    ∃ after events, (runWithWorkers args).Reachable after (history ++ events) ∧ Ready after ∧
      after.workers = Function.update state.workers id
        ((state.workers id).given ⟨found.seen, found.enqueuedNs⟩) ∧
      emissions events = [] := by
  obtain ⟨running, loopHead, collected⟩ := ready
  obtain ⟨stop, main, workers, orders⟩ := state
  dsimp only at running loopHead collected alive room
  subst running collected routed
  -- the main thread checks the flag and the deadline, reads the tick, sends it, and finds no order
  have run : (runWithWorkers args).runFrom ⟨false, main, workers, []⟩
      [.main, .checkDeadline false, .tryConsume (some found), .main, .main] =
      some (⟨false, { main.consumed found with pc := .loopHead }, Function.update workers
          (target found.seen.tick.symbol) ((workers (target found.seen.tick.symbol)).given
            ⟨found.seen, found.enqueuedNs⟩), []⟩,
        [.consumed found.seen, .delivered (target found.seen.tick.symbol)
          ⟨found.seen, found.enqueuedNs⟩]) := by
    simp [System.runFrom, runWithWorkers, engineStep, mainStep, loopHead, EngineState.setPc,
      EngineState.setWorker, Main.consumed, alive, room, Worker.given]
  exact ⟨_, _, reach.extend (System.allowedAlong_true _ _ _) run, ⟨rfl, rfl, rfl⟩, rfl, rfl⟩

theorem handle_round (reach : (runWithWorkers args).Reachable state history) {id : Fin n}
    {item : WorkItem} {rest : List WorkItem} (running : state.stop = false)
    (loopHead : (state.workers id).pc = .loopHead)
    (channel : (state.workers id).channel = item :: rest) :
    (runWithWorkers args).Reachable
      (state.setWorker id ({ state.workers id with channel := rest }.handled args item 0))
      (history ++ handlingEvents id item.seen (strategyStep args item.seen
        (state.workers id).symbols (state.workers id).nextOrderId).order) := by
  obtain ⟨stop, main, workers, orders⟩ := state
  dsimp only at running loopHead channel
  subst running
  -- the worker checks the flag, receives the item and handles it
  have run : (runWithWorkers args).runFrom ⟨false, main, workers, orders⟩
      [.worker id 0, .worker id 0, .worker id 0] =
      some (⟨false, main, Function.update workers id
          ({ workers id with channel := rest }.handled args item 0), orders⟩,
        handlingEvents id item.seen (strategyStep args item.seen (workers id).symbols
          (workers id).nextOrderId).order) := by
    simp [System.runFrom, runWithWorkers, engineStep, workerStep, loopHead, channel,
      EngineState.setWorker, Worker.handled]
  exact reach.extend (System.allowedAlong_true _ _ _) run

theorem send_round (reach : (runWithWorkers args).Reachable state history) {id : Fin n}
    {order : OrderMsg} (at' : (state.workers id).pc = .send order)
    (room : state.orders.length < orderCapacity) :
    (runWithWorkers args).Reachable
      ({ state with orders := state.orders ++ [(id, order)] }.setWorker id
        { state.workers id with pc := .loopHead }) history := by
  have step : (runWithWorkers args).step state (.worker id 0) =
      some ({ state with orders := state.orders ++ [(id, order)] }.setWorker id
        { state.workers id with pc := .loopHead }, []) := by
    simp [runWithWorkers, engineStep, workerStep, at', room]
  simpa using reach.next trivial step

theorem collect_round (reach : (runWithWorkers args).Reachable state history)
    (running : state.stop = false) (loopHead : state.main.pc = .loopHead) {id : Fin n}
    {order : OrderMsg} (waiting : state.orders = [(id, order)]) :
    ∃ after, (runWithWorkers args).Reachable after (history ++ [.offered id order true]) ∧
      Ready after ∧ after.workers = state.workers := by
  obtain ⟨stop, main, workers, orders⟩ := state
  dsimp only at running loopHead waiting
  subst running waiting
  have run : (runWithWorkers args).runFrom ⟨false, main, workers, [(id, order)]⟩
      [.main, .checkDeadline false, .tryConsume none, .main, .tryPublish true, .main] =
      some (⟨false, { main with pc := .loopHead, ordersSent := main.ordersSent + 1 }, workers, []⟩,
        [.offered id order true]) := by
    simp [System.runFrom, runWithWorkers, engineStep, mainStep, loopHead, EngineState.setPc,
      publishStep]
  exact ⟨_, reach.extend (System.allowedAlong_true _ _ _) run, ⟨rfl, rfl, rfl⟩, rfl⟩

end Rounds

section Eager

variable {n : Nat} [NeZero n] {state : EngineState ℚ n} {history : List (EngineEvent n)}
  {symbol : Symbol} {id : Fin n}

/-- One tick of the given symbol. -/
def oneTick (symbol : Symbol) : Consumed := ⟨⟨quote symbol, 0⟩, 0, 0⟩

/-- A worker that waits for work and has seen the symbol before. -/
structure Waiting (worker : Worker ℚ) (symbol : Symbol) : Prop where
  loopHead : worker.pc = .loopHead
  empty : worker.channel = []
  initialised : (worker.symbols symbol).initialised = true

theorem first_tick (routed : target symbol = id) : ∃ state history,
    (runWithWorkers eagerArgs).Reachable state history ∧ Ready state ∧
      Waiting (state.workers id) symbol ∧ emissions history = [] := by
  have idle : (runWithWorkers (n := n) eagerArgs).Reachable _ _ := .start
  obtain ⟨given, events, reach, ready, workers, quiet⟩ := dispatch_round idle ⟨rfl, rfl, rfl⟩
    (oneTick symbol) routed (by simp [runWithWorkers, Worker.spawn])
    (by simp [runWithWorkers, Worker.spawn, tickCapacity])
  have worker : given.workers id =
      (Worker.spawn eagerArgs id).given ⟨⟨quote symbol, 0⟩, 0⟩ := by
    rw [workers, Function.update_self]
    rfl
  have handled := handle_round reach ready.running (by rw [worker]; rfl) (by rw [worker]; rfl)
  obtain ⟨none, seen⟩ := eager_first ⟨quote symbol, 0⟩ (given.workers id).symbols
    (given.workers id).nextOrderId (by rw [worker]; rfl)
  refine ⟨_, _, handled, ⟨ready.running, ready.loopHead, ready.collected⟩, ?_, ?_⟩
  · rw [EngineState.setWorker_self]
    exact ⟨handled_loopHead eagerArgs 0 none, rfl, seen⟩
  · rw [emissions_append, emissions_append, quiet, none]
    rfl

theorem tick_emits (routed : target symbol = id)
    (reach : (runWithWorkers eagerArgs).Reachable state history) (ready : Ready state)
    (waiting : Waiting (state.workers id) symbol) : ∃ after events order,
    (runWithWorkers eagerArgs).Reachable after (history ++ events) ∧ Ready after ∧
      (after.workers id).pc = .send order ∧ (after.workers id).channel = [] ∧
      ((after.workers id).symbols symbol).initialised = true ∧ emissions events = [(id, order)] := by
  obtain ⟨given, dispatched, reach, ready, workers, quiet⟩ := dispatch_round reach ready
    (oneTick symbol) routed (by rw [waiting.loopHead]; simp)
    (by rw [waiting.empty]; simp [tickCapacity])
  have worker : given.workers id =
      (state.workers id).given ⟨⟨quote symbol, 0⟩, 0⟩ := by
    rw [workers, Function.update_self]
    rfl
  have channel : (given.workers id).channel = [⟨⟨quote symbol, 0⟩, 0⟩] := by
    rw [worker, Worker.given, waiting.empty]
    rfl
  have handled := handle_round reach ready.running
    (by rw [worker]; exact waiting.loopHead) channel
  obtain ⟨order, emits, seen⟩ := eager_emits ⟨quote symbol, 0⟩ (given.workers id).symbols
    (given.workers id).nextOrderId (by rw [worker]; exact waiting.initialised)
  rw [List.append_assoc] at handled
  refine ⟨_, _, order, handled, ⟨ready.running, ready.loopHead, ready.collected⟩, ?_, ?_, ?_, ?_⟩
  · rw [EngineState.setWorker_self]
    exact handled_send eagerArgs 0 emits
  · rw [EngineState.setWorker_self]
    rfl
  · rw [EngineState.setWorker_self]
    exact seen
  · rw [emissions_append, quiet, emits]
    rfl

theorem next_tick (routed : target symbol = id)
    (reach : (runWithWorkers eagerArgs).Reachable state history) (ready : Ready state)
    (waiting : Waiting (state.workers id) symbol) : ∃ after events order,
    (runWithWorkers eagerArgs).Reachable after (history ++ events) ∧ Ready after ∧
      Waiting (after.workers id) symbol ∧ emissions events = [(id, order)] := by
  obtain ⟨holding, events, order, reach, ready, sending, empty, seen, emits⟩ :=
    tick_emits routed reach ready waiting
  have sent := send_round reach sending (by
    rw [ready.collected]
    exact Nat.succ_pos _)
  obtain ⟨after, offered, collected, same⟩ := collect_round sent ready.running ready.loopHead (by
    rw [EngineState.setWorker_orders, ready.collected]
    rfl)
  refine ⟨after, _, order, by simpa only [List.append_assoc] using offered, collected, ?_, ?_⟩
  · rw [same, EngineState.setWorker_self]
    exact ⟨rfl, empty, seen⟩
  · rw [emissions_append, emits]
    rfl

/-- A worker can be made to emit any number of orders while the others emit none. -/
theorem eager_run (routed : target symbol = id) (count : Nat) : ∃ state history,
    (runWithWorkers eagerArgs).Reachable state history ∧ Ready state ∧
      Waiting (state.workers id) symbol ∧ (emissions history).length = count ∧
      ∀ entry ∈ emissions history, entry.1 = id := by
  induction count with
  | zero =>
    obtain ⟨state, history, reach, ready, waiting, quiet⟩ := first_tick routed
    exact ⟨state, history, reach, ready, waiting, by rw [quiet]; rfl, by simp [quiet]⟩
  | succ count ih =>
    obtain ⟨state, history, reach, ready, waiting, length, tagged⟩ := ih
    obtain ⟨after, events, order, reach, ready, waiting, emits⟩ :=
      next_tick routed reach ready waiting
    refine ⟨after, _, reach, ready, waiting, ?_, ?_⟩
    · rw [emissions_append, emits, List.length_append, length, List.length_singleton]
    · intro entry member
      rw [emissions_append, emits, List.mem_append, List.mem_singleton] at member
      rcases member with earlier | rfl
      · exact tagged entry earlier
      · rfl

end Eager

end TradingPipeline.Engine
