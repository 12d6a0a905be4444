import Mathlib.Algebra.Order.Ring.Unbundled.Rat
import TradingPipeline.Foundation.Transducer
import TradingPipeline.Shmbus.Message

/-! `strategy_step` and the routing hash of the trading engine.

The `f64` operations are a parameter. Integer arithmetic wraps, as in the release build.
-/

set_option autoImplicit false

namespace TradingPipeline.Engine

open Foundation Shmbus

/-- The `f64` operations and literals that `strategy_step` uses. -/
structure F64 (F : Type) where
  ofI64 : Int64 → F
  zero : F
  half : F
  one : F
  tenThousand : F
  million : F
  add : F → F → F
  sub : F → F → F
  mul : F → F → F
  div : F → F → F
  abs : F → F
  lt : F → F → Bool

structure SymbolState (F : Type) where
  emaPx : F
  lastOrderNs : UInt64
  initialised : Bool

/-- The arguments of `strategy_step` that a run fixes. -/
structure StrategyArgs (F : Type) where
  ops : F64 F
  alpha : F
  thresholdBps : F
  cooldownNs : UInt64
  qty : UInt32

/-- A consumed tick, with what `now_ns` returns when the strategy looks at it. -/
structure Observed where
  tick : MarketTick
  nowNs : UInt64
  deriving DecidableEq

section Strategy

variable {F : Type} (args : StrategyArgs F)

/-- `SymbolState::default()`. -/
def SymbolState.default : SymbolState F := ⟨args.ops.zero, 0, false⟩

/-- The hash map of symbol states. A missing entry reads as the default one, which is what
`entry(..).or_default()` makes of it. -/
abbrev SymbolMap (F : Type) := Symbol → SymbolState F

structure StrategyResult (F : Type) where
  order : Option OrderMsg
  devBps : F
  symbols : SymbolMap F
  nextOrderId : UInt64

/-- `(bid_px as f64 + ask_px as f64) * 0.5 / 1e6`. -/
def midPx (ops : F64 F) (tick : MarketTick) : F :=
  ops.div (ops.mul (ops.add (ops.ofI64 tick.bidPx) (ops.ofI64 tick.askPx)) ops.half) ops.million

def strategyStep (seen : Observed) (symbols : SymbolMap F) (nextOrderId : UInt64) :
    StrategyResult F :=
  let ops := args.ops
  let tick := seen.tick
  let mid := midPx ops tick
  let entry := symbols tick.symbol
  if entry.initialised = false then
    { order := none
      devBps := ops.zero
      symbols := Function.update symbols tick.symbol
        { entry with emaPx := mid, initialised := true }
      nextOrderId := nextOrderId }
  else
    let emaPx := ops.add (ops.mul args.alpha mid) (ops.mul (ops.sub ops.one args.alpha) entry.emaPx)
    let entry := { entry with emaPx := emaPx }
    let devBps := ops.mul (ops.div (ops.sub mid emaPx) emaPx) ops.tenThousand
    let now := seen.nowNs
    if ops.lt (ops.abs devBps) args.thresholdBps then
      ⟨none, devBps, Function.update symbols tick.symbol entry, nextOrderId⟩
    else if now - entry.lastOrderNs < args.cooldownNs then
      ⟨none, devBps, Function.update symbols tick.symbol entry, nextOrderId⟩
    else
      let side := if ops.lt ops.zero devBps then Side.sell else Side.buy
      let px := if side = .buy then tick.askPx else tick.bidPx
      let order : OrderMsg :=
        { orderId := nextOrderId + 1
          submitTsNs := now
          symbol := tick.symbol
          px := px
          qty := args.qty
          side := side.toU8
          pad := Vector.replicate 3 0 }
      ⟨some order, devBps,
        Function.update symbols tick.symbol { entry with lastOrderNs := now }, nextOrderId + 1⟩

/-- The strategy as a machine over consumed ticks: its state is the hash map and the last
order id. -/
def strategy : Transducer (SymbolMap F × UInt64) Observed OrderMsg where
  step state seen :=
    let result := strategyStep args seen state.1 state.2
    ((result.symbols, result.nextOrderId), result.order)

/-- All fields of an order except its id. -/
def anonymous (order : OrderMsg) : OrderMsg := { order with orderId := 0 }

/-- What the strategy does to the state of the tick's own symbol; the orders have no id. -/
def symbolStrategy : Transducer (SymbolState F) Observed OrderMsg where
  step entry seen :=
    let result := strategyStep args seen (fun _ => entry) 0
    (result.symbols seen.tick.symbol, result.order.map anonymous)

section Laws

variable (seen : Observed) (symbols : SymbolMap F) (nextOrderId : UInt64)

theorem strategyStep_symbols : (strategyStep args seen symbols nextOrderId).symbols =
    Function.update symbols seen.tick.symbol
      ((symbolStrategy args).step (symbols seen.tick.symbol) seen).1 := by
  unfold symbolStrategy strategyStep
  dsimp only
  split_ifs <;> simp only [Function.update_self]

theorem strategyStep_anonymous : (strategyStep args seen symbols nextOrderId).order.map anonymous =
    ((symbolStrategy args).step (symbols seen.tick.symbol) seen).2 := by
  unfold symbolStrategy strategyStep
  dsimp only
  split_ifs <;> rfl

/-- The order id advances on the emitting branch only, before it is used. -/
theorem strategyStep_orderId :
    (strategyStep args seen symbols nextOrderId).order = none ∧
      (strategyStep args seen symbols nextOrderId).nextOrderId = nextOrderId ∨
    ∃ order, (strategyStep args seen symbols nextOrderId).order = some order ∧
      order.orderId = nextOrderId + 1 ∧ order.symbol = seen.tick.symbol ∧
      (strategyStep args seen symbols nextOrderId).nextOrderId = nextOrderId + 1 := by
  unfold strategyStep
  dsimp only
  split
  · exact .inl ⟨rfl, rfl⟩
  · split
    · exact .inl ⟨rfl, rfl⟩
    · split
      · exact .inl ⟨rfl, rfl⟩
      · exact .inr ⟨_, rfl, rfl, rfl, rfl⟩

theorem strategyStep_symbol {order : OrderMsg}
    (emits : (strategyStep args seen symbols nextOrderId).order = some order) :
    order.symbol = seen.tick.symbol := by
  rcases strategyStep_orderId args seen symbols nextOrderId with
    ⟨none, _⟩ | ⟨other, is, _, symbol, _⟩
  · rw [none] at emits
    contradiction
  · rw [is, Option.some.injEq] at emits
    rw [← emits, symbol]

end Laws

/-- Apart from the ids of its orders, the strategy is one machine for each symbol. -/
theorem strategy_keyed (symbols : SymbolMap F) (nextOrderId : UInt64) (ticks : List Observed) :
    ((strategy args).outputs (symbols, nextOrderId) ticks).map anonymous =
      ((symbolStrategy args).keyed fun seen => seen.tick.symbol).outputs symbols ticks := by
  refine ((strategy args).outputs_image Prod.fst anonymous ?_ (symbols, nextOrderId) ticks).symm
  intro state seen
  simp only [Transducer.keyed, strategy, strategyStep_symbols, strategyStep_anonymous]

theorem strategy_symbol (symbols : SymbolMap F) (nextOrderId : UInt64) (ticks : List Observed)
    (symbol : Symbol) :
    (((strategy args).outputs (symbols, nextOrderId) ticks).map anonymous).filter
        (fun order => order.symbol = symbol) =
      (symbolStrategy args).outputs (symbols symbol)
        (ticks.filter fun seen => seen.tick.symbol = symbol) := by
  rw [strategy_keyed]
  apply Transducer.keyed_outputs
  intro entry seen order answer
  obtain ⟨emitted, emits, rfl⟩ := Option.map_eq_some_iff.mp answer
  have symbol := strategyStep_symbol args seen _ _ emits
  exact symbol

end Strategy

section Exact

/-- Exact arithmetic in place of `f64`. -/
def exactOps : F64 ℚ where
  ofI64 price := price.toInt
  zero := 0
  half := 1 / 2
  one := 1
  tenThousand := 10000
  million := 1000000
  add := (· + ·)
  sub := (· - ·)
  mul := (· * ·)
  div := (· / ·)
  abs x := |x|
  lt x y := decide (x < y)

/-- No threshold and no cooldown: every tick but the first of a symbol yields an order. -/
def eagerArgs : StrategyArgs ℚ where
  ops := exactOps
  alpha := 1 / 2
  thresholdBps := 0
  cooldownNs := 0
  qty := 100

/-- A quote of 1.00 to 1.02 for the given symbol. -/
def quote (symbol : Symbol) : MarketTick :=
  ⟨1, 0, 0, symbol, 1000000, 1020000, 1, 1, 0⟩

theorem eager_first (seen : Observed) (symbols : SymbolMap ℚ) (nextOrderId : UInt64)
    (fresh : (symbols seen.tick.symbol).initialised = false) :
    (strategyStep eagerArgs seen symbols nextOrderId).order = none ∧
      ((strategyStep eagerArgs seen symbols nextOrderId).symbols
        seen.tick.symbol).initialised = true := by
  unfold strategyStep
  simp [fresh]

theorem eager_emits (seen : Observed) (symbols : SymbolMap ℚ) (nextOrderId : UInt64)
    (initialised : (symbols seen.tick.symbol).initialised = true) :
    ∃ order, (strategyStep eagerArgs seen symbols nextOrderId).order = some order ∧
      ((strategyStep eagerArgs seen symbols nextOrderId).symbols
        seen.tick.symbol).initialised = true := by
  have noThreshold (x : ℚ) : exactOps.lt (exactOps.abs x) 0 = false := by
    simp [exactOps]
  have noCooldown (x : UInt64) : ¬ x < 0 := UInt64.not_lt_zero
  unfold strategyStep
  simp only [initialised, eagerArgs, noThreshold, noCooldown, Bool.true_eq_false, Bool.false_eq_true,
    if_false, Function.update_self]
  exact ⟨_, rfl, trivial⟩

end Exact

/-- Tiny FNV-1a. -/
def symbolHash (symbol : Symbol) : UInt64 :=
  symbol.toList.foldl (fun hash byte => (hash ^^^ byte.toUInt64) * 0x100000001b3)
    0xcbf29ce484222325

end TradingPipeline.Engine
