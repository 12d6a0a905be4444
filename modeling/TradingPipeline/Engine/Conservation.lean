import Mathlib.Data.UInt
import TradingPipeline.Engine.Accounts

/-! Nothing is lost or counted twice in a run that reaches its report. -/

set_option autoImplicit false

namespace TradingPipeline.Engine

open Foundation Shmbus EngineEvent

/-- The balance of a finished run, in words that may wrap and, with fewer events than a word
counts, in numbers. -/
structure Conserved {F : Type} {n : Nat} (state : EngineState F n)
    (history : List (EngineEvent n)) : Prop where
  /-- The counters of every worker have been collected. -/
  collected : state.main.workerStats = List.ofFn fun id => (state.workers id).stats
  orders : (state.main.workerStats.map WorkerStats.orders).sum =
    state.main.ordersSent + state.main.ordersDropped
  orders_exact : (offers history).length < 2 ^ 64 →
    (state.main.workerStats.map fun stats => stats.orders.toNat).sum =
      state.main.ordersSent.toNat + state.main.ordersDropped.toNat
  /-- What a worker has emitted has been offered to the orders ring, once and in order. -/
  offered : ∀ id, lane id (offers history) = lane id (emissions history)
  ticks : .stopped ∉ history →
    state.main.ticksSeen =
      state.main.ticksDropped + (state.main.workerStats.map WorkerStats.ticks).sum
  ticks_exact : .stopped ∉ history → (consumptions history).length < 2 ^ 64 →
    state.main.ticksSeen.toNat = state.main.ticksDropped.toNat +
      (state.main.workerStats.map fun stats => stats.ticks.toNat).sum

section Words

theorem sum_ofNat (counts : List Nat) : (counts.map UInt64.ofNat).sum = .ofNat counts.sum := by
  induction counts with
  | nil => rfl
  | cons count rest ih => rw [List.map_cons, List.sum_cons, ih, List.sum_cons, UInt64.ofNat_add]

theorem toNat_count {count : Nat} (few : count < 2 ^ 64) : (UInt64.ofNat count).toNat = count :=
  UInt64.toNat_ofNat_of_lt' few

theorem sum_toNat {counts : List Nat} (few : counts.sum < 2 ^ 64) :
    (counts.map fun count => (UInt64.ofNat count).toNat).sum = counts.sum := by
  induction counts with
  | nil => rfl
  | cons count rest ih =>
    rw [List.sum_cons] at few
    rw [List.map_cons, List.sum_cons, List.sum_cons, toNat_count (by omega), ih (by omega)]

/-- Words that count few enough events together add up as numbers do. -/
theorem sum_words {α : Type} {entries : List α} {word : α → UInt64} {counts : List Nat}
    (same : entries.map word = counts.map .ofNat) (few : counts.sum < 2 ^ 64) :
    (entries.map fun entry => (word entry).toNat).sum = counts.sum := by
  have numbers := congrArg (List.map UInt64.toNat) same
  rw [List.map_map, List.map_map] at numbers
  calc (entries.map fun entry => (word entry).toNat).sum
      = (counts.map fun count => (UInt64.ofNat count).toNat).sum := congrArg List.sum numbers
    _ = counts.sum := sum_toNat few

end Words

section Conservation

variable {F : Type} {n : Nat} [NeZero n] {args : StrategyArgs F} {state : EngineState F n}
  {history : List (EngineEvent n)}

/-- How many events each worker has seen to. -/
def perWorker {α : Type} (entries : List (Fin n × α)) : List Nat :=
  List.ofFn fun id => (lane id entries).length

omit [NeZero n] in
theorem sum_perWorker {α : Type} (entries : List (Fin n × α)) :
    (perWorker entries).sum = entries.length := by
  rw [perWorker, List.sum_ofFn, sum_lane_length]

theorem collected_of_done (known : Accounted args state history)
    (done : state.main.pc = .finaliseReport) :
    (∀ id, (state.workers id).pc = .returned) ∧
      state.main.workerStats = List.ofFn fun id => (state.workers id).stats := by
  have joins : state.main.pc.joins = n := by rw [done]; rfl
  refine ⟨fun id => (known.joined.each id (by rw [joins]; exact id.isLt)).1, ?_⟩
  apply List.ext_getElem?
  intro position
  by_cases within : position < n
  · rw [(known.joined.each ⟨position, within⟩ (by rw [joins]; exact within)).2]
    simp [within]
  · have length := known.joined.collected
    rw [List.getElem?_eq_none (by omega), List.getElem?_eq_none (by simp; omega)]

theorem ticks_balance (known : Accounted args state history)
    (done : state.main.pc = .finaliseReport) (running : .stopped ∉ history) :
    (consumptions history).length = (drops history).length + (handlings history).length := by
  have notStopped : state.stop = false :=
    Bool.eq_false_iff.mpr fun stop => running (known.stop.mp stop)
  have none : refusals history = [] := by
    by_contra some
    exact absurd (known.kept.refused some).1 (by simp [notStopped])
  -- a worker that was not stopped has emptied its channel
  have handled (id : Fin n) : lane id (deliveries history) = lane id (handlings history) := by
    have gone := (collected_of_done known done).1 id
    have placed := known.ticks id
    rcases known.dismissed id gone with stop | ⟨_, empty⟩
    · simp [notStopped] at stop
    · simpa [gone, empty] using placed
  have balance := known.kept.balance
  rw [none, done] at balance
  simp only [MainPc.tick, List.length_nil, Nat.add_zero] at balance
  rw [balance, ← sum_lane_length (deliveries history), ← sum_lane_length (handlings history),
    Nat.add_comm]
  simp only [handled]

theorem run_conserves (reach : (runWithWorkers args).Reachable state history)
    (done : state.main.pc = .finaliseReport) : Conserved state history := by
  have known := accounted reach
  obtain ⟨gone, collected⟩ := collected_of_done known done
  have offered (id : Fin n) : lane id (offers history) = lane id (emissions history) := by
    have placed := known.orders id
    rw [known.reported done, done, gone id] at placed
    simpa [MainPc.order] using placed.symm
  have emitted : (perWorker (emissions history)).sum =
      (outcomes history).count true + (outcomes history).count false := by
    rw [← length_offers, ← sum_lane_length (offers history), perWorker, List.sum_ofFn]
    simp only [offered]
  have orders : state.main.workerStats.map WorkerStats.orders =
      (perWorker (emissions history)).map .ofNat := by
    rw [collected, perWorker, List.map_ofFn, List.map_ofFn]
    exact congrArg List.ofFn (funext known.counted.orders)
  have ticks : state.main.workerStats.map WorkerStats.ticks =
      (perWorker (handlings history)).map .ofNat := by
    rw [collected, perWorker, List.map_ofFn, List.map_ofFn]
    exact congrArg List.ofFn (funext known.counted.ticks)
  constructor
  case collected => exact collected
  case offered => exact offered
  case orders =>
    rw [orders, sum_ofNat, emitted, UInt64.ofNat_add, known.counted.sent, known.counted.refused]
  case orders_exact =>
    intro few
    rw [length_offers] at few
    rw [sum_words orders (emitted ▸ few), emitted, known.counted.sent, known.counted.refused,
      toNat_count (by omega), toNat_count (by omega)]
  case ticks =>
    intro running
    rw [ticks, sum_ofNat, sum_perWorker, known.counted.seen, known.counted.dropped,
      ticks_balance known done running, UInt64.ofNat_add]
  case ticks_exact =>
    intro running few
    have balance := ticks_balance known done running
    have handled : (perWorker (handlings history)).sum < 2 ^ 64 := by
      rw [sum_perWorker]
      omega
    rw [sum_words ticks handled, sum_perWorker, known.counted.seen, known.counted.dropped,
      toNat_count few, toNat_count (by omega), balance]

end Conservation

/-- After `bothEmit` the loop ends, the workers find their channels disconnected, and the
final drain offers the four orders. -/
def bothCounted : List (EngineAction 2) :=
  bothEmit ++ [.main, .checkDeadline true, .main] ++
    (List.replicate 2 [.worker ⟨0, Nat.two_pos⟩ 0, .worker ⟨1, Nat.one_lt_two⟩ 0]).flatten ++
    [.main, .main, .main] ++
    [true, false, true, true].flatMap (fun accepted => [.main, .tryPublish accepted]) ++ [.main]

/-- Two orders of each worker, of which the ring refuses one. -/
theorem run_conserves_order : ∃ state history,
    state.main.workerStats.map WorkerStats.orders = [2, 2] ∧ state.main.ordersSent = 3 ∧
      Conserved (F := ℚ) (n := 2) state history := by
  obtain ⟨state, history, reach, found⟩ := System.exists_reach_of_run
    (runWithWorkers (n := 2) eagerArgs) (fun _ _ => True) bothCounted
    (fun final => final.1.main.pc = .finaliseReport ∧
      final.1.main.workerStats.map WorkerStats.orders = [2, 2] ∧ final.1.main.ordersSent = 3)
    (System.allowedAlong_true _ _ _) (by decide +kernel)
  obtain ⟨done, orders, sent⟩ := of_decide_eq_true found
  exact ⟨state, history, orders, sent, run_conserves reach done⟩

end TradingPipeline.Engine
