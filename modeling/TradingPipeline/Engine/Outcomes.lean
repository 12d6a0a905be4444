import TradingPipeline.Engine.Strategy

/-! The ways through `strategy_step`. -/

set_option autoImplicit false

namespace TradingPipeline.Engine

open Foundation Shmbus

section Outcomes

variable {F : Type} (args : StrategyArgs F)

/-- The average after a tick. -/
def nextEma (mid emaPx : F) : F :=
  let ops := args.ops
  ops.add (ops.mul args.alpha mid) (ops.mul (ops.sub ops.one args.alpha) emaPx)

/-- `dev_bps`. -/
def deviationBps (mid emaPx : F) : F :=
  let ops := args.ops
  ops.mul (ops.div (ops.sub mid emaPx) emaPx) ops.tenThousand

/-- The early return of the threshold test. -/
def below (devBps : F) : Bool := args.ops.lt (args.ops.abs devBps) args.thresholdBps

def orderFor (seen : Observed) (devBps : F) (orderId : UInt64) : OrderMsg :=
  let side := if args.ops.lt args.ops.zero devBps then Side.sell else Side.buy
  { orderId := orderId
    submitTsNs := seen.nowNs
    symbol := seen.tick.symbol
    px := if side = .buy then seen.tick.askPx else seen.tick.bidPx
    qty := args.qty
    side := side.toU8
    pad := Vector.replicate 3 0 }

theorem orderFor_side (seen : Observed) (devBps : F) (orderId : UInt64) :
    (args.ops.lt args.ops.zero devBps = true ∧
      (orderFor args seen devBps orderId).side = Side.sell.toU8 ∧
      (orderFor args seen devBps orderId).px = seen.tick.bidPx) ∨
    (args.ops.lt args.ops.zero devBps = false ∧
      (orderFor args seen devBps orderId).side = Side.buy.toU8 ∧
      (orderFor args seen devBps orderId).px = seen.tick.askPx) := by
  cases sells : args.ops.lt args.ops.zero devBps with
  | true => exact .inl ⟨rfl, by simp [orderFor, sells]⟩
  | false => exact .inr ⟨rfl, by simp [orderFor, sells]⟩

variable (seen : Observed)

/-- The average of a known symbol after the tick. -/
def updatedEma (entry : SymbolState F) : F := nextEma args (midPx args.ops seen.tick) entry.emaPx

/-- The deviation that the tick is tested with. -/
def testedBps (entry : SymbolState F) : F :=
  deviationBps args (midPx args.ops seen.tick) (updatedEma args seen entry)

/-- The tick gets as far as the subtraction of the last order's time. -/
def Subtracts (entry : SymbolState F) : Prop :=
  entry.initialised = true ∧ below args (testedBps args seen entry) = false

instance (entry : SymbolState F) : Decidable (Subtracts args seen entry) :=
  inferInstanceAs (Decidable (_ ∧ _))

/-- What becomes of the entry of the tick's symbol, and the order. -/
inductive StrategyOutcome (entry : SymbolState F) (nextOrderId : UInt64) :
    SymbolState F → Option OrderMsg → Prop where
  | first (fresh : entry.initialised = false) :
      StrategyOutcome entry nextOrderId
        { entry with emaPx := midPx args.ops seen.tick, initialised := true } none
  | quiet (known : entry.initialised = true)
      (still : below args (testedBps args seen entry) = true) :
      StrategyOutcome entry nextOrderId { entry with emaPx := updatedEma args seen entry } none
  | cooling (subtracts : Subtracts args seen entry)
      (soon : seen.nowNs - entry.lastOrderNs < args.cooldownNs) :
      StrategyOutcome entry nextOrderId { entry with emaPx := updatedEma args seen entry } none
  | order (subtracts : Subtracts args seen entry)
      (late : ¬ seen.nowNs - entry.lastOrderNs < args.cooldownNs) :
      StrategyOutcome entry nextOrderId
        { entry with emaPx := updatedEma args seen entry, lastOrderNs := seen.nowNs }
        (some (orderFor args seen (testedBps args seen entry) (nextOrderId + 1)))

theorem strategyStep_outcome (symbols : SymbolMap F) (nextOrderId : UInt64) :
    ∃ entry,
      (strategyStep args seen symbols nextOrderId).symbols =
        Function.update symbols seen.tick.symbol entry ∧
      StrategyOutcome args seen (symbols seen.tick.symbol) nextOrderId entry
        (strategyStep args seen symbols nextOrderId).order := by
  unfold strategyStep
  dsimp only
  split
  · next fresh => exact ⟨_, rfl, .first fresh⟩
  · next known =>
    have known := Bool.of_not_eq_false known
    split
    · next still => exact ⟨_, rfl, .quiet known still⟩
    · next moved =>
      have subtracts : Subtracts args seen (symbols seen.tick.symbol) :=
        ⟨known, Bool.of_not_eq_true moved⟩
      split
      · next soon => exact ⟨_, rfl, .cooling subtracts soon⟩
      · next late => exact ⟨_, rfl, .order subtracts late⟩

end Outcomes

end TradingPipeline.Engine
