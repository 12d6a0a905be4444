import TradingPipeline.Engine.Outcomes
import TradingPipeline.Foundation.Extended
import TradingPipeline.Foundation.Smoothing

/-! The average price in exact arithmetic.

Prices are finite and the average divides by constants only, so it stays finite, whatever
the deviation becomes.
-/

set_option autoImplicit false

namespace TradingPipeline.Engine

open Foundation Shmbus

section Exact

variable {K : Type} [Field K] [LinearOrder K]

/-- Exact arithmetic with the IEEE rules for division by zero. -/
def extendedOps (K : Type) [Field K] [LinearOrder K] : F64 (Extended K) where
  ofI64 price := .finite (price.toInt : K)
  zero := .finite 0
  half := .finite (1 / 2)
  one := .finite 1
  tenThousand := .finite 10000
  million := .finite 1000000
  add := .add
  sub := .sub
  mul := .mul
  div := .div
  abs := .abs
  lt := Extended.lt

/-- The arguments of `strategy_step` with exact numbers. -/
def extendedArgs (alpha thresholdBps : K) (cooldownNs : UInt64) (qty : UInt32) :
    StrategyArgs (Extended K) where
  ops := extendedOps K
  alpha := .finite alpha
  thresholdBps := .finite thresholdBps
  cooldownNs := cooldownNs
  qty := qty

omit [LinearOrder K] in
/-- The share that a number of basis points is. -/
def shareOf (bps : K) : K := bps / 10000

omit [LinearOrder K] in
/-- The mid price of a tick. -/
def exactMid (K : Type) [Field K] (tick : MarketTick) : K :=
  ((tick.bidPx.toInt : K) + (tick.askPx.toInt : K)) * (1 / 2) / 1000000

/-- What the entry of a symbol says about the average of its prices. -/
def Averages (entry : SymbolState (Extended K)) : Option K → Prop
  | none => entry.initialised = false
  | some average => entry.initialised = true ∧ entry.emaPx = .finite average

variable [IsStrictOrderedRing K] {alpha thresholdBps : K} {cooldownNs : UInt64} {qty : UInt32}

theorem midPx_extended (tick : MarketTick) :
    midPx (extendedOps K) tick = .finite (exactMid K tick) := by
  have million : (1000000 : K) ≠ 0 := by norm_num
  exact Extended.div_finite _ million

theorem updatedEma_extended (seen : Observed) {entry : SymbolState (Extended K)} {average : K}
    (is : entry.emaPx = .finite average) :
    updatedEma (extendedArgs alpha thresholdBps cooldownNs qty) seen entry =
      .finite (smooth alpha (exactMid K seen.tick) average) := by
  have mid : midPx (extendedArgs alpha thresholdBps cooldownNs qty).ops seen.tick =
      .finite (exactMid K seen.tick) := midPx_extended seen.tick
  rw [updatedEma, nextEma, mid, is]
  simp [extendedArgs, extendedOps, smooth]

theorem Averages.outcome {entry next : SymbolState (Extended K)} {average : Option K}
    {seen : Observed} {nextOrderId : UInt64} {answer : Option OrderMsg}
    (averages : Averages entry average)
    (outcome : StrategyOutcome (extendedArgs alpha thresholdBps cooldownNs qty) seen entry
      nextOrderId next answer) :
    Averages next (some (smoothStep alpha average (exactMid K seen.tick))) := by
  cases average with
  | none =>
    -- an entry that is not initialised has no average
    cases outcome with
    | first fresh => exact ⟨rfl, midPx_extended seen.tick⟩
    | quiet known => exact absurd (averages.symm.trans known) (by simp)
    | cooling subtracts => exact absurd (averages.symm.trans subtracts.1) (by simp)
    | order subtracts => exact absurd (averages.symm.trans subtracts.1) (by simp)
  | some average =>
    obtain ⟨known, is⟩ := averages
    cases outcome with
    | first fresh => exact absurd (fresh.symm.trans known) (by simp)
    | quiet | cooling | order => exact ⟨known, updatedEma_extended seen is⟩

/-- The mids of a symbol's ticks. -/
def midsOf (K : Type) [Field K] (symbol : Symbol) (ticks : List Observed) : List K :=
  (ticks.filter fun seen => seen.tick.symbol = symbol).map fun seen => exactMid K seen.tick

/-- Over a run the average of a symbol is what smoothing makes of its mids. -/
theorem Averages.run {state : SymbolMap (Extended K) × UInt64} {average : Option K}
    {symbol : Symbol} (averages : Averages (state.1 symbol) average) (ticks : List Observed) :
    Averages (((strategy (extendedArgs alpha thresholdBps cooldownNs qty)).after state ticks).1 symbol)
      (smoothed alpha average (midsOf K symbol ticks)) := by
  induction ticks generalizing state average with
  | nil => exact averages
  | cons seen rest ih =>
    rw [Transducer.after_cons]
    obtain ⟨entry, symbols, outcome⟩ := strategyStep_outcome
      (extendedArgs alpha thresholdBps cooldownNs qty) seen state.1 state.2
    have step :
        ((strategy (extendedArgs alpha thresholdBps cooldownNs qty)).step state seen).1.1 symbol =
          Function.update state.1 seen.tick.symbol entry symbol := congrFun symbols symbol
    -- a tick of another symbol updates another entry
    by_cases about : seen.tick.symbol = symbol
    · subst about
      rw [Function.update_self] at step
      have moved := averages.outcome outcome
      rw [← step] at moved
      simpa [midsOf, smoothed] using ih moved
    · rw [Function.update_of_ne (Ne.symm about)] at step
      rw [← step] at averages
      simpa [midsOf, about] using ih averages

end Exact

end TradingPipeline.Engine
