import Mathlib.Algebra.Order.Field.Rat
import TradingPipeline.Engine.Averages
import TradingPipeline.Engine.Cooldown

/-! What an order says about the signal.

The deviation is divided by the average. With a positive average it has the sign of the
deviation. A negative average turns the side of the order round, and where the average and the
mid are both zero the deviation is `NaN`, which no threshold stops.
-/

set_option autoImplicit false

namespace TradingPipeline.Engine

open Foundation Shmbus

section Signal

variable {K : Type} [Field K] [LinearOrder K]

/-- An order that the mid and the updated average account for. -/
structure Justified (thresholdBps : K) (tick : MarketTick) (ema : K) (order : OrderMsg) : Prop where
  deviates : shareOf thresholdBps * |ema| ≤ |exactMid K tick - ema|
  sell : order.side = Side.sell.toU8 ∧ order.px = tick.bidPx ↔ ema < exactMid K tick
  buy : order.side = Side.buy.toU8 ∧ order.px = tick.askPx ↔ exactMid K tick < ema
  apart : exactMid K tick ≠ ema

/-- The sign of the average, or the lack of one, misleads the test. -/
def Misleads (thresholdBps mid ema : K) : Prop :=
  ema = 0 ∧ mid = 0 ∨ ema < 0 ∧ shareOf thresholdBps * |ema| ≤ |mid - ema|

instance (thresholdBps mid ema : K) : Decidable (Misleads thresholdBps mid ema) :=
  inferInstanceAs (Decidable (_ ∨ _))

/-- Whatever order the step emits is justified by the average that it leaves. -/
def OrderJustified (args : StrategyArgs (Extended K)) (thresholdBps : K)
    (state : SymbolMap (Extended K) × UInt64) (seen : Observed) : Prop :=
  let result := (strategy args).step state seen
  ∀ order, result.2 = some order →
    (result.1.1 seen.tick.symbol).emaPx.Satisfies fun ema =>
      Justified thresholdBps seen.tick ema order

/-- A tick of a known symbol, no sooner than the cooldown allows, moves the average to where it
misleads the test. -/
def Misled (args : StrategyArgs (Extended K)) (alpha thresholdBps : K)
    (state : SymbolMap (Extended K) × UInt64) (seen : Observed) : Prop :=
  let entry := state.1 seen.tick.symbol
  let mid := exactMid K seen.tick
  entry.initialised = true ∧ ¬ seen.nowNs - entry.lastOrderNs < args.cooldownNs ∧
    entry.emaPx.Satisfies fun ema => Misleads thresholdBps mid (smooth alpha mid ema)

instance (args : StrategyArgs (Extended K)) (alpha thresholdBps : K)
    (state : SymbolMap (Extended K) × UInt64) (seen : Observed) :
    Decidable (Misled args alpha thresholdBps state seen) :=
  inferInstanceAs (Decidable (_ ∧ _ ∧ Extended.Satisfies _ _))

variable [IsStrictOrderedRing K] {alpha thresholdBps : K} {cooldownNs : UInt64} {qty : UInt32}

section Deviation

variable {mid ema : K}

omit [IsStrictOrderedRing K] in
theorem deviationBps_of_ne (args : StrategyArgs (Extended K)) (ops : args.ops = extendedOps K)
    (nonzero : ema ≠ 0) :
    deviationBps args (.finite mid) (.finite ema) = .finite ((mid - ema) / ema * 10000) := by
  simp only [deviationBps, ops, extendedOps, Extended.sub_finite, Extended.div_finite _ nonzero,
    Extended.mul_finite]

theorem deviationBps_zero (args : StrategyArgs (Extended K)) (ops : args.ops = extendedOps K) :
    deviationBps args (.finite mid) (.finite 0) =
      if mid = 0 then .nan else .infinite (mid < 0) := by
  have positive : (0 : K) < 10000 := by norm_num
  simp only [deviationBps, ops, extendedOps, Extended.sub_finite, sub_zero, Extended.div_finite_zero]
  split
  · rfl
  · simp [Extended.mul, positive.ne', positive.not_gt]

theorem quotient_lt_iff (nonzero : ema ≠ 0) :
    |(mid - ema) / ema * 10000| < thresholdBps ↔ |mid - ema| < shareOf thresholdBps * |ema| := by
  have size : 0 < |ema| := abs_pos.mpr nonzero
  have positive : (0 : K) < 10000 := by norm_num
  rw [shareOf, abs_mul, abs_div, abs_of_pos positive, ← lt_div_iff₀ positive, div_lt_iff₀ size]

theorem quotient_pos_iff (positive : 0 < ema) : 0 < (mid - ema) / ema * 10000 ↔ ema < mid := by
  have scale : (0 : K) < 10000 := by norm_num
  rw [mul_pos_iff_of_pos_right scale, div_pos_iff_of_pos_right positive, sub_pos]

theorem quotient_pos_iff_of_neg (negative : ema < 0) :
    0 < (mid - ema) / ema * 10000 ↔ mid < ema := by
  have scale : (0 : K) < 10000 := by norm_num
  rw [mul_pos_iff_of_pos_right scale, div_pos_iff]
  constructor
  · rintro (⟨_, positive⟩ | ⟨less, _⟩)
    · exact absurd positive negative.not_gt
    · exact sub_neg.mp less
  · intro less
    exact .inr ⟨sub_neg.mpr less, negative⟩

end Deviation

section Orders

variable {args : StrategyArgs (Extended K)} {seen : Observed} {devBps : Extended K} {orderId : UInt64}
  {ema : K}

omit [IsStrictOrderedRing K] in
theorem justified_of_side (deviates : shareOf thresholdBps * |ema| ≤ |exactMid K seen.tick - ema|)
    (apart : exactMid K seen.tick ≠ ema)
    (sells : args.ops.lt args.ops.zero devBps = true ↔ ema < exactMid K seen.tick) :
    Justified thresholdBps seen.tick ema (orderFor args seen devBps orderId) := by
  have sides : Side.buy.toU8 ≠ Side.sell.toU8 := by decide
  rcases orderFor_side args seen devBps orderId with
    ⟨sold, side, px⟩ | ⟨bought, side, px⟩
  · have above := sells.mp sold
    refine ⟨deviates, ⟨fun _ => above, fun _ => ⟨side, px⟩⟩, ?_, apart⟩
    rw [side]
    exact ⟨fun wrong => absurd wrong.1.symm sides, fun less => absurd less above.not_gt⟩
  · have below' : exactMid K seen.tick < ema := by
      refine lt_of_le_of_ne (not_lt.mp fun above => ?_) apart
      rw [sells.mpr above] at bought
      contradiction
    refine ⟨deviates, ?_, ⟨fun _ => below', fun _ => ⟨side, px⟩⟩, apart⟩
    rw [side]
    exact ⟨fun wrong => absurd wrong.1 sides, fun more => absurd more below'.not_gt⟩

omit [IsStrictOrderedRing K] in
theorem not_justified_of_side
    (sells : args.ops.lt args.ops.zero devBps = true ↔ exactMid K seen.tick < ema) :
    ¬ Justified thresholdBps seen.tick ema (orderFor args seen devBps orderId) := by
  rintro ⟨_, sell, buy, apart⟩
  rcases orderFor_side args seen devBps orderId with
    ⟨sold, side⟩ | ⟨bought, side⟩
  · exact absurd (sell.mp side) (sells.mp sold).not_gt
  · have less := buy.mp side
    rw [sells.mpr less] at bought
    contradiction

theorem below_of_misleads (ops : args.ops = extendedOps K)
    (threshold : args.thresholdBps = .finite thresholdBps)
    (misleads : Misleads thresholdBps (exactMid K seen.tick) ema) :
    below args (deviationBps args (.finite (exactMid K seen.tick)) (.finite ema)) = false := by
  rcases misleads with ⟨zero, nothing⟩ | ⟨negative, deviates⟩
  · rw [zero, deviationBps_zero args ops, if_pos nothing, below, ops]
    rfl
  · rw [deviationBps_of_ne args ops negative.ne, below, ops, threshold]
    rw [← not_lt, ← quotient_lt_iff negative.ne] at deviates
    exact decide_eq_false deviates

/-- An order that has passed the threshold is justified unless the average misleads. -/
theorem justified_iff (ops : args.ops = extendedOps K)
    (threshold : args.thresholdBps = .finite thresholdBps) (positive : 0 < thresholdBps)
    (passes : below args (deviationBps args (.finite (exactMid K seen.tick)) (.finite ema)) = false) :
    Justified thresholdBps seen.tick ema (orderFor args seen
        (deviationBps args (.finite (exactMid K seen.tick)) (.finite ema)) orderId) ↔
      ¬ Misleads thresholdBps (exactMid K seen.tick) ema := by
  have share : 0 < shareOf thresholdBps := div_pos positive (by norm_num)
  by_cases zero : ema = 0
  · subst zero
    rw [deviationBps_zero args ops] at passes ⊢
    -- over a zero average the quotient is infinite, with the sign of the mid
    by_cases nothing : exactMid K seen.tick = 0
    · exact ⟨fun justified => absurd nothing justified.apart,
        fun fair => absurd (.inl ⟨rfl, nothing⟩) fair⟩
    · rw [if_neg nothing]
      constructor
      · rintro _ (⟨_, same⟩ | ⟨negative, _⟩)
        · exact nothing same
        · exact absurd negative (lt_irrefl 0)
      · intro _
        refine justified_of_side (by simp) nothing ?_
        rw [ops]
        simp only [extendedOps, Extended.lt, Bool.not_eq_true', decide_eq_false_iff_not, not_lt]
        exact ⟨fun le => lt_of_le_of_ne le (Ne.symm nothing), le_of_lt⟩
  · rw [deviationBps_of_ne args ops zero] at passes ⊢
    have deviates : shareOf thresholdBps * |ema| ≤ |exactMid K seen.tick - ema| := by
      rw [← not_lt, ← quotient_lt_iff zero]
      simpa [below, ops, threshold, extendedOps] using passes
    have apart : exactMid K seen.tick ≠ ema := by
      intro same
      rw [same, sub_self, abs_zero] at deviates
      exact absurd deviates (mul_pos share (abs_pos.mpr zero)).not_ge
    have sells :
        args.ops.lt args.ops.zero (.finite ((exactMid K seen.tick - ema) / ema * 10000)) = true ↔
          0 < (exactMid K seen.tick - ema) / ema * 10000 := by
      rw [ops]
      exact decide_eq_true_iff
    -- a negative average turns the sign of the quotient around
    rcases lt_or_gt_of_ne zero with negative | positive
    · rw [quotient_pos_iff_of_neg negative] at sells
      exact ⟨fun justified => absurd justified (not_justified_of_side sells),
        fun fair => absurd (.inr ⟨negative, deviates⟩) fair⟩
    · rw [quotient_pos_iff positive] at sells
      refine ⟨?_, fun _ => justified_of_side deviates apart sells⟩
      rintro _ (⟨same, _⟩ | ⟨negative, _⟩)
      · exact zero same
      · exact absurd negative positive.not_gt

end Orders

section Runs

variable {state : SymbolMap (Extended K) × UInt64} {seen : Observed}

theorem orderJustified_iff (positive : 0 < thresholdBps) {average : Option K}
    (averages : Averages (state.1 seen.tick.symbol) average) :
    OrderJustified (extendedArgs alpha thresholdBps cooldownNs qty) thresholdBps state seen ↔
      ¬ Misled (extendedArgs alpha thresholdBps cooldownNs qty) alpha thresholdBps state seen := by
  obtain ⟨entry, symbols, outcome⟩ := strategyStep_outcome
    (extendedArgs alpha thresholdBps cooldownNs qty) seen state.1 state.2
  unfold OrderJustified Misled
  simp only [strategy, symbols, Function.update_self]
  generalize (strategyStep (extendedArgs alpha thresholdBps cooldownNs qty) seen state.1
    state.2).order = answer at outcome
  cases average with
  | none =>
    have fresh : (state.1 seen.tick.symbol).initialised = false := averages
    -- the first tick of a symbol sets its average and emits nothing
    cases outcome with
    | first => simp [fresh]
    | quiet known => exact absurd (fresh.symm.trans known) (by simp)
    | cooling subtracts => exact absurd (fresh.symm.trans subtracts.1) (by simp)
    | order subtracts => exact absurd (fresh.symm.trans subtracts.1) (by simp)
  | some average =>
    obtain ⟨known, is⟩ := averages
    have tested : testedBps (extendedArgs alpha thresholdBps cooldownNs qty) seen
        (state.1 seen.tick.symbol) =
        deviationBps (extendedArgs alpha thresholdBps cooldownNs qty)
          (.finite (exactMid K seen.tick))
          (.finite (smooth alpha (exactMid K seen.tick) average)) := by
      rw [testedBps, updatedEma_extended seen is]
      exact congrArg (deviationBps _ · _) (midPx_extended seen.tick)
    have updated : updatedEma (extendedArgs alpha thresholdBps cooldownNs qty) seen
        (state.1 seen.tick.symbol) =
        .finite (smooth alpha (exactMid K seen.tick) average) := updatedEma_extended seen is
    simp only [known, is, Extended.Satisfies, true_and]
    cases outcome with
    | first fresh => exact absurd (fresh.symm.trans known) (by simp)
    | quiet _ still =>
      rw [tested] at still
      constructor
      · intro _ misled
        rw [below_of_misleads rfl rfl misled.2] at still
        contradiction
      · intro _ order emitted
        contradiction
    | cooling _ soon =>
      constructor
      · exact fun _ misled => misled.1 soon
      · intro _ order emitted
        contradiction
    | order subtracts late =>
      have passes := subtracts.2
      rw [tested] at passes ⊢
      simp only [Option.some.injEq, forall_eq', updated]
      rw [justified_iff rfl rfl positive passes]
      exact not_congr ⟨fun misleads => ⟨late, misleads⟩, fun both => both.2⟩

theorem averages_step (averages : ∀ symbol, ∃ average, Averages (state.1 symbol) average)
    (symbol : Symbol) :
    ∃ average, Averages (((strategy (extendedArgs alpha thresholdBps cooldownNs qty)).step
      state seen).1.1 symbol) average := by
  obtain ⟨average, is⟩ := averages symbol
  exact ⟨_, is.run [seen]⟩

end Runs

end Signal

/-- All orders of a run are justified by the updated averages exactly when no tick that the
cooldown lets through moves the average of a known symbol below zero with a deviation that passes
the threshold, or to zero with a mid of zero. -/
theorem orders_justified_iff {alpha thresholdBps : ℚ} (positive : 0 < thresholdBps)
    (cooldownNs : UInt64) (qty : UInt32) (ticks : List Observed) (nextOrderId : UInt64) :
    let args := extendedArgs alpha thresholdBps cooldownNs qty
    (strategy args).Along (OrderJustified args thresholdBps) (emptySymbols args, nextOrderId) ticks ↔
      (strategy args).Along (fun state seen => ¬ Misled args alpha thresholdBps state seen)
        (emptySymbols args, nextOrderId) ticks := by
  intro args
  have begun : ∀ symbol, ∃ average, Averages ((emptySymbols args : SymbolMap _) symbol) average :=
    fun _ => ⟨none, rfl⟩
  constructor <;> intro along <;>
    refine along.imp (fun state => ∀ symbol, ∃ average, Averages (state.1 symbol) average)
      (fun state seen averages => averages_step averages) (fun state seen averages => ?_) begun
  · obtain ⟨average, is⟩ := averages seen.tick.symbol
    exact (orderJustified_iff positive is).mp
  · obtain ⟨average, is⟩ := averages seen.tick.symbol
    exact (orderJustified_iff positive is).mpr

/-- A quote of the given price on both sides. -/
def flatQuote (px : Int64) : MarketTick := { quote (.replicate 8 65) with bidPx := px, askPx := px }

/-- The price rises from 1.00 to 2.00, and the tick sells. -/
theorem orders_justified_iff_rise :
    let args : StrategyArgs (Extended ℚ) := extendedArgs (1 / 2) 5 0 100
    let ticks : List Observed := [⟨flatQuote 1000000, 0⟩, ⟨flatQuote 2000000, 0⟩]
    ((strategy args).outputs (emptySymbols args, 0) ticks).map OrderMsg.side = [Side.sell.toU8] ∧
      (strategy args).Along (OrderJustified args 5) (emptySymbols args, 0) ticks :=
  ⟨by decide +kernel, (orders_justified_iff (by norm_num) 0 100 _ 0).mpr (by decide +kernel)⟩

/-- With both prices zero the mid is the average, and the tick buys. -/
theorem orders_misled : ¬ ∀ (alpha thresholdBps : ℚ) (cooldownNs : UInt64) (qty : UInt32)
    (ticks : List Observed) (nextOrderId : UInt64), 0 < alpha → alpha ≤ 1 → 0 < thresholdBps →
    let args := extendedArgs alpha thresholdBps cooldownNs qty
    (strategy args).Along (OrderJustified args thresholdBps) (emptySymbols args, nextOrderId)
      ticks := by
  intro justified
  have along := justified (1 / 2) 5 0 100 [⟨flatQuote 0, 0⟩, ⟨flatQuote 0, 0⟩] 0 (by norm_num)
    (by norm_num) (by norm_num)
  let args : StrategyArgs (Extended ℚ) := extendedArgs (1 / 2) 5 0 100
  let state := ((strategy args).step (emptySymbols args, 0) ⟨flatQuote 0, 0⟩).1
  have second : OrderJustified args 5 state ⟨flatQuote 0, 0⟩ := along.2.1
  have averages : Averages (state.1 (flatQuote 0).symbol) (some (0 : ℚ)) := by
    constructor
    · rfl
    · decide +kernel
  exact (orderJustified_iff (by norm_num) averages).mp second (by decide +kernel)

end TradingPipeline.Engine
