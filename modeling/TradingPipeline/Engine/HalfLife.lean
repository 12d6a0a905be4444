import Mathlib.Analysis.SpecialFunctions.Pow.Real
import TradingPipeline.Engine.Averages
import TradingPipeline.Engine.Cooldown

/-! The half-life of the average price, in real arithmetic. -/

set_option autoImplicit false

namespace TradingPipeline.Engine

open Foundation Shmbus

noncomputable section

/-- `ema_alpha`. -/
def emaAlpha (halflifeTicks : ℝ) : ℝ :=
  if halflifeTicks ≤ 0 then 1 else 1 - Real.exp (-(Real.log (2 : ℕ)) / halflifeTicks)

theorem emaAlpha_pos (halflifeTicks : ℝ) : 0 < emaAlpha halflifeTicks := by
  unfold emaAlpha
  split
  · exact one_pos
  · next positive =>
    have half : 0 < Real.log (2 : ℕ) := Real.log_pos (by norm_num)
    rw [sub_pos, Real.exp_lt_one_iff, neg_div]
    exact neg_neg_of_pos (div_pos half (not_le.mp positive))

theorem emaAlpha_le_one (halflifeTicks : ℝ) : emaAlpha halflifeTicks ≤ 1 := by
  unfold emaAlpha
  split
  · exact le_refl 1
  · exact sub_le_self 1 (Real.exp_pos _).le

theorem one_sub_emaAlpha_pow {halflifeTicks : ℝ} (positive : 0 < halflifeTicks) (count : Nat) :
    (1 - emaAlpha halflifeTicks) ^ count = (2 : ℝ) ^ (-(count : ℝ) / halflifeTicks) := by
  rw [emaAlpha, if_neg positive.not_ge, sub_sub_cancel, ← Real.exp_nat_mul,
    Real.rpow_def_of_pos two_pos, Nat.cast_ofNat]
  congr 1
  ring

/-- The strategy with the smoothing factor of `--ema-halflife`. -/
def halflifeArgs (halflifeTicks thresholdBps : ℝ) (cooldownNs : UInt64) (qty : UInt32) :
    StrategyArgs (Extended ℝ) :=
  extendedArgs (emaAlpha halflifeTicks) thresholdBps cooldownNs qty

section Runs

variable (args : StrategyArgs (Extended ℝ)) (ticks : List Observed) (nextOrderId : UInt64)
  (symbol : Symbol)

/-- The average that `strategy_step` keeps for the symbol after the ticks. -/
def emaAfter : Extended ℝ :=
  (((strategy args).after (emptySymbols args, nextOrderId) ticks).1 symbol).emaPx

end Runs

end

section HalfLife

variable {halflifeTicks thresholdBps : ℝ} {cooldownNs : UInt64} {qty : UInt32}
  {ticks further : List Observed} {nextOrderId : UInt64} {symbol : Symbol} {ema : ℝ}

theorem emaAfter_eq
    (is : smoothed (emaAlpha halflifeTicks) none (midsOf ℝ symbol ticks) = some ema) :
    emaAfter (halflifeArgs halflifeTicks thresholdBps cooldownNs qty) ticks nextOrderId symbol =
      .finite ema := by
  let args := halflifeArgs halflifeTicks thresholdBps cooldownNs qty
  let start : SymbolMap (Extended ℝ) × UInt64 := (emptySymbols args, nextOrderId)
  have fresh : Averages (start.1 symbol) (none : Option ℝ) := rfl
  have run : Averages (((strategy args).after start ticks).1 symbol)
      (smoothed (emaAlpha halflifeTicks) none (midsOf ℝ symbol ticks)) := fresh.run ticks
  rw [is] at run
  exact run.2

theorem midsOf_append : midsOf ℝ symbol (ticks ++ further) =
    midsOf ℝ symbol ticks ++ midsOf ℝ symbol further := by
  rw [midsOf, List.filter_append, List.map_append, midsOf, midsOf]

theorem distance_decays (positive : 0 < halflifeTicks)
    (is : smoothed (emaAlpha halflifeTicks) none (midsOf ℝ symbol ticks) = some ema) {price : ℝ}
    (constant : ∀ mid ∈ midsOf ℝ symbol further, mid = price) :
    ∃ later, smoothed (emaAlpha halflifeTicks) none (midsOf ℝ symbol (ticks ++ further)) =
        some later ∧
      |later - price| =
        (2 : ℝ) ^ (-((midsOf ℝ symbol further).length : ℝ) / halflifeTicks) * |ema - price| := by
  obtain ⟨later, run, distance⟩ := smoothed_replicate (emaAlpha halflifeTicks) price ema
    (midsOf ℝ symbol further).length
  refine ⟨later, ?_, ?_⟩
  · rw [midsOf_append, List.eq_replicate_of_mem constant]
    rw [smoothed, List.foldl_append]
    rw [smoothed] at is
    rw [is]
    exact run
  · rw [distance, one_sub_emaAlpha_pow positive, abs_mul,
      abs_of_pos (Real.rpow_pos_of_pos two_pos _)]

/-- The average of a symbol is a weighted average of its mids, whatever other symbols do. With a
positive half-life, so many ticks at a constant mid halve its distance from that mid, whole or in
parts. -/
theorem ema_halflife (halflifeTicks thresholdBps : ℝ) (cooldownNs : UInt64) (qty : UInt32)
    (nextOrderId : UInt64) (ticks : List Observed) (symbol : Symbol)
    (seen : midsOf ℝ symbol ticks ≠ []) :
    let args := halflifeArgs halflifeTicks thresholdBps cooldownNs qty
    0 < emaAlpha halflifeTicks ∧ emaAlpha halflifeTicks ≤ 1 ∧
    ∃ ema, emaAfter args ticks nextOrderId symbol = .finite ema ∧
      IsAverage ema (midsOf ℝ symbol ticks) ∧
      (∀ low high, (∀ mid ∈ midsOf ℝ symbol ticks, low ≤ mid ∧ mid ≤ high) →
        low ≤ ema ∧ ema ≤ high) ∧
      (∀ others orderId, midsOf ℝ symbol others = midsOf ℝ symbol ticks →
        emaAfter args others orderId symbol = .finite ema) ∧
      (0 < halflifeTicks → ∀ further price, (∀ mid ∈ midsOf ℝ symbol further, mid = price) →
        ∃ later, emaAfter args (ticks ++ further) nextOrderId symbol = .finite later ∧
          |later - price| =
            (2 : ℝ) ^ (-((midsOf ℝ symbol further).length : ℝ) / halflifeTicks) * |ema - price| ∧
          (halflifeTicks = (midsOf ℝ symbol further).length →
            |later - price| = |ema - price| / 2)) := by
  intro args
  have positive := emaAlpha_pos halflifeTicks
  have le := emaAlpha_le_one halflifeTicks
  obtain ⟨ema, is, average⟩ := isAverage_smoothed positive.le le seen
  refine ⟨positive, le, ema, emaAfter_eq is, average, fun low high => average.between, ?_, ?_⟩
  · intro others orderId same
    exact emaAfter_eq (same ▸ is)
  · intro positive further price constant
    -- each further tick at the price takes the same share off the distance
    obtain ⟨later, run, distance⟩ := distance_decays positive is constant
    refine ⟨later, emaAfter_eq run, distance, fun whole => ?_⟩
    rw [distance, ← whole, neg_div, div_self positive.ne', Real.rpow_neg_one]
    ring

/-- A tick of one symbol and one of another, with a half-life of one tick. -/
theorem ema_halflife_one :
    let seen : Observed := ⟨quote (.replicate 8 65), 0⟩
    let other : Observed := ⟨quote (.replicate 8 66), 0⟩
    ∃ ema, emaAfter (halflifeArgs 1 5 0 100) [seen, other] 0 (.replicate 8 65) = .finite ema ∧
      ∃ later, emaAfter (halflifeArgs 1 5 0 100) ([seen, other] ++ [seen]) 0 (.replicate 8 65) =
        .finite later ∧ |later - exactMid ℝ seen.tick| = |ema - exactMid ℝ seen.tick| / 2 := by
  intro seen other
  have one : midsOf ℝ (.replicate 8 65) [seen, other] = [exactMid ℝ seen.tick] := by
    rw [midsOf,
      show ([seen, other].filter fun seen => seen.tick.symbol = .replicate 8 65) = [seen] by decide]
    rfl
  have next : midsOf ℝ (.replicate 8 65) [seen] = [exactMid ℝ seen.tick] := by
    rw [midsOf, show ([seen].filter fun seen => seen.tick.symbol = .replicate 8 65) = [seen] by
      decide]
    rfl
  obtain ⟨_, _, ema, is, _, _, _, decays⟩ := ema_halflife 1 5 0 100 0 [seen, other]
    (.replicate 8 65) (by simp [one])
  obtain ⟨later, run, _, halves⟩ := decays one_pos [seen] (exactMid ℝ seen.tick) (by simp [next])
  exact ⟨ema, is, later, run, halves (by simp [next])⟩

end HalfLife

end TradingPipeline.Engine
