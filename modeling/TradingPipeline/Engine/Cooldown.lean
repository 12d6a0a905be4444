import Mathlib.Data.List.Chain
import TradingPipeline.Engine.Outcomes

/-! The cooldown between the orders of a symbol.

The time since the last order is an unchecked subtraction of two readings of the wall clock.
As long as it does not wrap, the test spaces the orders of every symbol.
-/

set_option autoImplicit false

namespace TradingPipeline.Engine

open Foundation Shmbus

section Cooldown

variable {F : Type} (args : StrategyArgs F)

/-- Before the first tick. -/
def emptySymbols : SymbolMap F := fun _ => .default args

/-- Where `now - entry.last_order_ns` is evaluated, it is the difference of the numbers. -/
def NoUnderflow (state : SymbolMap F × UInt64) (seen : Observed) : Prop :=
  let entry := state.1 seen.tick.symbol
  Subtracts args seen entry →
    ((seen.nowNs - entry.lastOrderNs).toNat : Int) = seen.nowNs.toNat - entry.lastOrderNs.toNat

/-- A tick that deviates is not met at a time before the symbol's last order. -/
def ClockAhead (state : SymbolMap F × UInt64) (seen : Observed) : Prop :=
  let entry := state.1 seen.tick.symbol
  Subtracts args seen entry → entry.lastOrderNs ≤ seen.nowNs

instance (state : SymbolMap F × UInt64) (seen : Observed) : Decidable (ClockAhead args state seen) :=
  inferInstanceAs (Decidable (_ → _))

/-- The cooldown lies between the two times. -/
def Spaced (earlier later : Nat) : Prop := earlier + args.cooldownNs.toNat ≤ later

/-- The times of a symbol's orders. -/
def orderTimes (symbol : Symbol) (orders : List OrderMsg) : List Nat :=
  (orders.filter fun order => order.symbol = symbol).map fun order => order.submitTsNs.toNat

section Steps

variable (state : SymbolMap F × UInt64) (seen : Observed)

theorem noUnderflow_iff : NoUnderflow args state seen ↔ ClockAhead args state seen := by
  unfold NoUnderflow ClockAhead
  refine imp_congr_right fun _ => ?_
  have now := seen.nowNs.toNat_lt
  have last := (state.1 seen.tick.symbol).lastOrderNs.toNat_lt
  rw [UInt64.toNat_sub, UInt64.le_iff_toNat_le]
  constructor
  · intro exact'
    omega
  · intro le
    omega

theorem spaced_of_late {entry : SymbolState F} (le : entry.lastOrderNs ≤ seen.nowNs)
    (late : ¬ seen.nowNs - entry.lastOrderNs < args.cooldownNs) :
    Spaced args entry.lastOrderNs.toNat seen.nowNs.toNat := by
  have now := seen.nowNs.toNat_lt
  rw [UInt64.le_iff_toNat_le] at le
  rw [UInt64.lt_iff_toNat_lt, UInt64.toNat_sub] at late
  unfold Spaced
  omega

theorem strategy_times :
    ((strategy args).step state seen).2 = none ∧
      (∀ symbol, (((strategy args).step state seen).1.1 symbol).lastOrderNs =
        (state.1 symbol).lastOrderNs) ∨
    ∃ order, ((strategy args).step state seen).2 = some order ∧
      order.symbol = seen.tick.symbol ∧ order.submitTsNs = seen.nowNs ∧
      Subtracts args seen (state.1 seen.tick.symbol) ∧
      ¬ seen.nowNs - (state.1 seen.tick.symbol).lastOrderNs < args.cooldownNs ∧
      ∀ symbol, (((strategy args).step state seen).1.1 symbol).lastOrderNs =
        if symbol = seen.tick.symbol then seen.nowNs else (state.1 symbol).lastOrderNs := by
  obtain ⟨entry, symbols, outcome⟩ := strategyStep_outcome args seen state.1 state.2
  simp only [strategy, symbols]
  have others (symbol : Symbol) (other : symbol ≠ seen.tick.symbol) :
      Function.update state.1 seen.tick.symbol entry symbol = state.1 symbol :=
    Function.update_of_ne other _ _
  -- only an order writes the time of the last order, and only in its own entry
  generalize (strategyStep args seen state.1 state.2).order = answer at outcome ⊢
  cases outcome with
  | first | quiet | cooling =>
    refine .inl ⟨rfl, fun symbol => ?_⟩
    by_cases same : symbol = seen.tick.symbol
    · rw [same, Function.update_self]
    · rw [others symbol same]
  | order subtracts late =>
    refine .inr ⟨_, rfl, rfl, rfl, subtracts, late, fun symbol => ?_⟩
    by_cases same : symbol = seen.tick.symbol
    · rw [same, Function.update_self, if_pos rfl]
    · rw [others symbol same, if_neg same]

end Steps

theorem spaced_of_clockAhead {state : SymbolMap F × UInt64} {ticks : List Observed}
    (ahead : (strategy args).Along (ClockAhead args) state ticks) (symbol : Symbol) :
    ((state.1 symbol).lastOrderNs.toNat ::
      orderTimes symbol ((strategy args).outputs state ticks)).IsChain (Spaced args) := by
  induction ticks generalizing state with
  | nil => exact List.isChain_singleton _
  | cons seen rest ih =>
    obtain ⟨here, later⟩ := ahead
    have tail := ih later
    rw [Transducer.outputs]
    rcases strategy_times args state seen with
      ⟨none', times⟩ | ⟨order, emits, about, time, subtracts, late, times⟩
    · rw [times] at tail
      rw [none']
      exact tail
    · rw [emits]
      rw [times] at tail
      -- an order on another symbol leaves the times of this one alone
      by_cases same : symbol = seen.tick.symbol
      · rw [if_pos same] at tail
        have listed : orderTimes symbol ((some order).toList ++
            (strategy args).outputs ((strategy args).step state seen).1 rest) =
            seen.nowNs.toNat :: orderTimes symbol
              ((strategy args).outputs ((strategy args).step state seen).1 rest) := by
          simp [orderTimes, about, time, same]
        rw [listed]
        refine .cons_cons ?_ tail
        rw [same]
        exact spaced_of_late args seen (here subtracts) late
      · rw [if_neg same] at tail
        have other : order.symbol ≠ symbol := about ▸ Ne.symm same
        simpa [orderTimes, other] using tail

/-- Whatever the readings of the clock are, the subtraction never wraps and the cooldown lies
between any two successive orders of a symbol exactly when no tick that deviates is met at a time
before its symbol's last order. -/
theorem cooldown_kept_iff (ticks : List Observed) (nextOrderId : UInt64) :
    ((strategy args).Along (NoUnderflow args) (emptySymbols args, nextOrderId) ticks ∧
      ∀ symbol, (orderTimes symbol
        ((strategy args).outputs (emptySymbols args, nextOrderId) ticks)).IsChain (Spaced args)) ↔
    (strategy args).Along (ClockAhead args) (emptySymbols args, nextOrderId) ticks := by
  constructor
  · rintro ⟨exact', _⟩
    exact exact'.imp (fun _ => True) (fun _ _ _ => trivial)
      (fun state seen _ => (noUnderflow_iff args state seen).mp) trivial
  · intro ahead
    constructor
    · exact ahead.imp (fun _ => True) (fun _ _ _ => trivial)
        (fun state seen _ => (noUnderflow_iff args state seen).mpr) trivial
    · intro symbol
      exact (spaced_of_clockAhead args ahead symbol).tail

/-- A clock that never steps back is ahead of all last orders. -/
theorem clockAhead_of_monotone {state : SymbolMap F × UInt64} {ticks : List Observed}
    (monotone : ticks.Pairwise fun earlier later => earlier.nowNs ≤ later.nowNs)
    (begun : ∀ symbol, ∀ seen ∈ ticks, (state.1 symbol).lastOrderNs ≤ seen.nowNs) :
    (strategy args).Along (ClockAhead args) state ticks := by
  induction ticks generalizing state with
  | nil => trivial
  | cons seen rest ih =>
    rw [List.pairwise_cons] at monotone
    refine ⟨fun _ => begun _ seen List.mem_cons_self, ih monotone.2 ?_⟩
    intro symbol later member
    have before := begun symbol later (List.mem_cons_of_mem seen member)
    rcases strategy_times args state seen with ⟨_, times⟩ | ⟨_, _, _, _, _, _, times⟩
    · rw [times]
      exact before
    · rw [times]
      split
      · exact monotone.1 later member
      · exact before

end Cooldown

/-- Every tick but the first of a symbol deviates, and orders are at least 10 ns apart. -/
def coolingArgs : StrategyArgs ℚ := { eagerArgs with cooldownNs := 10 }

/-- The clock is set back between the second and the third tick. -/
def clockSetBack : List Observed :=
  [0, 100, 50].map fun nowNs => ⟨quote (.replicate 8 65), nowNs⟩

/-- The subtraction wraps to a time that no cooldown reaches, and an order follows the one of
the second tick with an earlier time. -/
theorem cooldown_missed : ¬ ∀ (F : Type) (args : StrategyArgs F) (ticks : List Observed)
    (nextOrderId : UInt64),
    (strategy args).Along (NoUnderflow args) (emptySymbols args, nextOrderId) ticks ∧
      ∀ symbol, (orderTimes symbol
        ((strategy args).outputs (emptySymbols args, nextOrderId) ticks)).IsChain (Spaced args) := by
  intro kept
  have spaced := (kept ℚ coolingArgs clockSetBack 0).2 (.replicate 8 65)
  have times : orderTimes (.replicate 8 65)
      ((strategy coolingArgs).outputs (emptySymbols coolingArgs, 0) clockSetBack) = [100, 50] := by
    decide +kernel
  rw [times, List.isChain_pair] at spaced
  have apart : ¬ 100 + coolingArgs.cooldownNs.toNat ≤ 50 := by decide
  exact apart spaced

end TradingPipeline.Engine
