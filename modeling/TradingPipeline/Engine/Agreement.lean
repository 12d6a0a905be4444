import TradingPipeline.Engine.Accounts
import TradingPipeline.Engine.Inline

/-! The workers generate, symbol by symbol, what the single-threaded engine generates. -/

set_option autoImplicit false

namespace TradingPipeline.Engine

open Foundation Shmbus EngineEvent

/-- The orders for one symbol, without their ids. -/
def ofSymbol (symbol : Symbol) (orders : List OrderMsg) : List OrderMsg :=
  (orders.map anonymous).filter fun order => order.symbol = symbol

/-- What the workers have generated for one symbol. -/
def generatedFor {n : Nat} (symbol : Symbol) (history : List (EngineEvent n)) : List OrderMsg :=
  ofSymbol symbol ((emissions history).map Prod.snd)

/-- What has been offered to the orders ring for one symbol. -/
def offeredFor {n : Nat} (symbol : Symbol) (history : List (EngineEvent n)) : List OrderMsg :=
  ofSymbol symbol ((offers history).map Prod.snd)

/-- Ticks that have gone into a worker's channel. -/
def delivered {n : Nat} (history : List (EngineEvent n)) : List Observed :=
  (deliveries history).map Prod.snd

/-- The worker has nothing left in its channel or in its hand. -/
def Drained {F : Type} {n : Nat} (state : EngineState F n) (id : Fin n) : Prop :=
  (state.workers id).channel = [] ∧ (state.workers id).pc.item = []

/-- How the workers agree with the single-threaded engine. -/
structure Agrees {F : Type} {n : Nat} [NeZero n] (args : StrategyArgs F) (state : EngineState F n)
    (history : List (EngineEvent n)) : Prop where
  begins : ∀ symbol, generatedFor symbol history <+: ofSymbol symbol (inlineOrders args (kept history))
  drained : ∀ symbol, Drained state (target symbol) →
    generatedFor symbol history = ofSymbol symbol (inlineOrders args (delivered history))
  offered : ∀ symbol, offeredFor symbol history <+: generatedFor symbol history
  /-- The ticks consumed and not dropped have been delivered, but for one at most: it is in
  the dispatcher's hand or, once the stop flag is set, was refused by a worker that is gone. -/
  held : kept history = delivered history ++ (refusals history ++ state.main.pc.tick) ∧
    (refusals history ++ state.main.pc.tick).length ≤ 1 ∧
    (refusals history ≠ [] → state.stop = true)

section Agreement

variable {F : Type} {n : Nat} [NeZero n] {args : StrategyArgs F} {state : EngineState F n}
  {history : List (EngineEvent n)}

theorem ofSymbol_eq (symbol : Symbol) (orders : List OrderMsg) :
    ofSymbol symbol orders = (orders.filter fun order => order.symbol = symbol).map anonymous :=
  List.filter_map ..

/-- For one symbol the single-threaded engine is a machine over the ticks of that symbol. -/
theorem inlineOrders_symbol (symbol : Symbol) (ticks : List Observed) :
    ofSymbol symbol (inlineOrders args ticks) = (symbolStrategy args).outputs (.default args)
      (ticks.filter fun seen => seen.tick.symbol = symbol) :=
  strategy_symbol ..

theorem generatedFor_eq (known : Accounted args state history) (symbol : Symbol) :
    generatedFor symbol history = (symbolStrategy args).outputs (.default args)
      ((lane (target symbol) (handlings history)).filter fun seen => seen.tick.symbol = symbol) := by
  have routed := lane_filter (target symbol : Fin n) (fun order : OrderMsg => order.symbol = symbol)
    (emissions history) fun entry member is => by
      rw [known.routed.orders entry member, of_decide_eq_true is]
  rw [generatedFor, ofSymbol_eq, ← routed, ← ofSymbol_eq, (known.worked (target symbol)).2]
  exact strategy_symbol ..

theorem lane_delivered (known : Accounted args state history) (symbol : Symbol) :
    (lane (target symbol) (deliveries history)).filter (fun seen => seen.tick.symbol = symbol) =
      (delivered history).filter fun seen => seen.tick.symbol = symbol :=
  lane_filter _ _ _ fun entry member is => by
    rw [known.routed.ticks entry member, of_decide_eq_true is]

/-- For any number of workers and any schedule. -/
theorem workers_agree (reach : (runWithWorkers args).Reachable state history) :
    Agrees args state history := by
  have known := accounted reach
  have places := known.kept.places
  constructor
  case begins =>
    intro symbol
    have handled : lane (target symbol : Fin n) (handlings history) <+:
        lane (target symbol) (deliveries history) :=
      ⟨_, (known.ticks (target symbol)).symm⟩
    have arrived : delivered history <+: kept history := ⟨_, places.symm⟩
    rw [generatedFor_eq known, inlineOrders_symbol]
    apply Transducer.outputs_mono
    refine (handled.filter _).trans ?_
    rw [lane_delivered known]
    exact arrived.filter _
  case drained =>
    intro symbol empty
    have all := known.ticks (target symbol)
    rw [empty.1, empty.2] at all
    simp only [List.map_nil, List.append_nil] at all
    rw [generatedFor_eq known, inlineOrders_symbol, ← lane_delivered known, all]
  case offered =>
    intro symbol
    have inOrder : lane (target symbol : Fin n) (offers history) <+:
        lane (target symbol) (emissions history) := ⟨_, (known.orders (target symbol)).symm⟩
    have routed := lane_filter (target symbol : Fin n) (fun order : OrderMsg => order.symbol = symbol)
    have emitted := routed (emissions history) fun entry member is => by
      rw [known.routed.orders entry member, of_decide_eq_true is]
    have offered := routed (offers history) fun entry member is => by
      -- what is offered was emitted by the same worker
      obtain ⟨owner, order⟩ := entry
      have member : (owner, order) ∈ emissions history := by
        rw [← mem_lane, known.orders owner]
        exact List.mem_append_left _ ((mem_lane _ _).mpr member)
      rw [known.routed.orders _ member, of_decide_eq_true is]
    rw [generatedFor, offeredFor, ofSymbol_eq, ofSymbol_eq, ← emitted, ← offered]
    exact (inOrder.filter _).map anonymous
  case held =>
    refine ⟨places, ?_, fun some => (known.kept.refused some).1⟩
    by_cases none : refusals history = []
    · rw [none, List.nil_append]
      unfold MainPc.tick
      split <;> simp
    · have left := (known.kept.refused none).2
      have emptyHanded : state.main.pc.tick = [] := by
        unfold MainPc.tick
        split
        · next item at' => rw [at'] at left; contradiction
        · rfl
      rw [emptyHanded, List.append_nil]
      exact known.kept.once

/-- Two workers, each with two orders for its symbol. -/
theorem workers_agree_order : ∃ state history,
    twoSymbols.map (fun symbol => (generatedFor symbol history).length) = [2, 2] ∧
      Agrees (n := 2) eagerArgs state history := by
  obtain ⟨state, history, reach, found⟩ := System.exists_reach_of_run
    (runWithWorkers (n := 2) eagerArgs) (fun _ _ => True) bothEmit
    (fun final => twoSymbols.map (fun symbol => (generatedFor symbol final.2).length) = [2, 2])
    (System.allowedAlong_true _ _ _) (by decide +kernel)
  exact ⟨state, history, of_decide_eq_true found, workers_agree reach⟩

/-- Agreement over all ticks consumed and not dropped. -/
structure AgreesFully (args : StrategyArgs F) (state : EngineState F n)
    (history : List (EngineEvent n)) : Prop where
  begins : ∀ symbol, generatedFor symbol history <+: ofSymbol symbol (inlineOrders args (kept history))
  drained : (∀ id, Drained state id) → ∀ symbol,
    generatedFor symbol history = ofSymbol symbol (inlineOrders args (kept history))
  offered : ∀ symbol, offeredFor symbol history <+: generatedFor symbol history

/-- The worker returns on the stop flag; the dispatcher, already past its own test of the
flag, consumes one more tick and finds the channel disconnected. -/
def refusedTick : List (EngineAction 1) :=
  let found (nowNs : UInt64) : Consumed := ⟨⟨quote (.replicate 8 65), nowNs⟩, 0, 0⟩
  let worker : EngineAction 1 := .worker (Fin.last 0) 0
  [.main, .checkDeadline false, .tryConsume (some (found 5)), .main, .main,
    worker, worker, worker, .main, .checkDeadline false, .interrupt, worker,
    .tryConsume (some (found 7)), .main, .main, .main, .main, .main]

/-- In a finished run with no tick dropped and nothing left in any channel, the refused tick
is missing from what the workers have seen. -/
theorem workers_miss_refused :
    ¬ ∀ (F : Type) (n : Nat) [NeZero n] (args : StrategyArgs F) state history,
      (runWithWorkers args).Reachable state history → AgreesFully (n := n) args state history := by
  intro agrees
  obtain ⟨state, history, reach, found⟩ := System.exists_reach_of_run
    (runWithWorkers (n := 1) eagerArgs) (fun _ _ => True) refusedTick
    (fun final => final.1.main.pc = .finaliseReport ∧ (final.1.workers 0).channel = [] ∧
      (final.1.workers 0).pc = .returned ∧ drops final.2 = [] ∧
      generatedFor (.replicate 8 65) final.2 ≠
        ofSymbol (.replicate 8 65) (inlineOrders eagerArgs (kept final.2)))
    (System.allowedAlong_true _ _ _) (by decide +kernel)
  obtain ⟨_, empty, gone, _, differ⟩ := of_decide_eq_true found
  refine differ ((agrees ℚ 1 eagerArgs state history reach).drained ?_ _)
  intro id
  obtain rfl : id = 0 := Subsingleton.elim _ _
  exact ⟨empty, by rw [gone]; rfl⟩

end Agreement

end TradingPipeline.Engine
