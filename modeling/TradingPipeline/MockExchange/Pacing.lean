import Mathlib.Algebra.Algebra.Defs
import Mathlib.Data.Rat.Floor
import TradingPipeline.Foundation.Pacing
import TradingPipeline.MockExchange.Loop

/-! The publishing rate is bounded, whatever the clock does between the statements. -/

set_option autoImplicit false

namespace TradingPipeline.MockExchange

open Foundation Shmbus

section Starts

variable {K : Type}

/-- The times at which rounds of publishing start. -/
def startTimes (history : List (ExchangeEvent K)) : List Nat :=
  history.filterMap fun
    | .started clock => some clock
    | .sent _ _ _ => none

@[simp] theorem startTimes_nil : startTimes ([] : List (ExchangeEvent K)) = [] := rfl

@[simp] theorem startTimes_started (clock : Nat) :
    startTimes [(.started clock : ExchangeEvent K)] = [clock] := rfl

@[simp] theorem startTimes_sent (idx : Nat) (mid : K) (tick : MarketTick) :
    startTimes [.sent idx mid tick] = [] := rfl

theorem startTimes_append (history events : List (ExchangeEvent K)) :
    startTimes (history ++ events) = startTimes history ++ startTimes events :=
  List.filterMap_append

end Starts

variable {K : Type} [Field K] [LinearOrder K]

section Schedule

variable (setup : Setup K)

/-- The rounds that are over, and when the next one is due. -/
abbrev Rounds (starts : List Nat) (due : Nat) : Prop :=
  Paced setup.perTickDur resyncAfter setup.nextDue starts due

/-- The last of the rounds has been started, when it was due, and is not over. -/
def Begun (starts : List Nat) (due clock : Nat) : Prop :=
  ∃ earlier start, starts = earlier ++ [start] ∧ Rounds setup earlier due ∧ due ≤ start ∧
    start ≤ clock

/-- How the starts, `next_due` and the clock are related at each statement. -/
def OnSchedule (exchange : Exchange K) (starts : List Nat) : Prop :=
  match exchange.pc with
  | .loopHead | .checkDeadline =>
    Rounds setup starts exchange.nextDue ∧ exchange.nextDue ≤ exchange.clock
  | .publish _ | .advance => Begun setup starts exchange.nextDue exchange.clock
  | .readClock => ∃ due, Begun setup starts due exchange.clock ∧
      exchange.nextDue = due + setup.perTickDur
  | .sleep dur =>
    Rounds setup starts exchange.nextDue ∧ exchange.nextDue ≤ exchange.clock + dur
  | .asleep wakes => Rounds setup starts exchange.nextDue ∧ exchange.nextDue ≤ wakes
  | .returned => ∃ due, Rounds setup starts due

end Schedule

section Steps

variable {setup : Setup K} {exchange after : Exchange K} {starts : List Nat} {due clock : Nat}
  {events : List (ExchangeEvent K)}

theorem Begun.mono (begun : Begun setup starts due clock) {later : Nat} (le : clock ≤ later) :
    Begun setup starts due later := by
  obtain ⟨earlier, start, same, rounds, ready, before⟩ := begun
  exact ⟨earlier, start, same, rounds, ready, before.trans le⟩

theorem Begun.close (begun : Begun setup starts due clock) {next : Nat}
    (later : due + setup.perTickDur ≤ next) (near : clock ≤ next + resyncAfter) :
    Rounds setup starts next := by
  obtain ⟨earlier, start, rfl, rounds, ready, before⟩ := begun
  exact .round rounds ready later (before.trans near)

theorem Begun.exists_rounds (begun : Begun setup starts due clock) :
    ∃ next, Rounds setup starts next :=
  ⟨max (due + setup.perTickDur) clock,
    begun.close (le_max_left _ _) (le_add_right (le_max_right _ _))⟩

theorem OnSchedule.elapse (on : OnSchedule setup exchange starts) (ns : Nat) :
    OnSchedule setup { exchange with clock := exchange.clock + ns } starts := by
  unfold OnSchedule at on ⊢
  cases at' : exchange.pc with
  | loopHead | checkDeadline =>
    simp only [at'] at on ⊢
    exact ⟨on.1, Nat.le_add_right_of_le on.2⟩
  | publish | advance =>
    simp only [at'] at on ⊢
    exact on.mono (Nat.le_add_right _ _)
  | readClock =>
    simp only [at'] at on ⊢
    obtain ⟨due, begun, same⟩ := on
    exact ⟨due, begun.mono (Nat.le_add_right _ _), same⟩
  | sleep =>
    simp only [at'] at on ⊢
    exact ⟨on.1, by omega⟩
  | asleep | returned =>
    simp only [at'] at on ⊢
    exact on

theorem OnSchedule.exists_rounds (on : OnSchedule setup exchange starts) :
    ∃ due, Rounds setup starts due := by
  unfold OnSchedule at on
  cases at' : exchange.pc with
  | loopHead | checkDeadline | sleep | asleep =>
    simp only [at'] at on
    exact ⟨_, on.1⟩
  | publish | advance =>
    simp only [at'] at on
    exact on.exists_rounds
  | readClock =>
    simp only [at'] at on
    obtain ⟨due, begun, _⟩ := on
    exact begun.exists_rounds
  | returned =>
    simp only [at'] at on
    exact on

/-- Sleep and resync are both told by the clock that was read after the round. -/
theorem OnSchedule.move (on : OnSchedule setup exchange starts) {pc : ExchangePc}
    (move : ExchangeMove exchange pc) : OnSchedule setup (exchange.setPc pc) starts := by
  cases move with
  | stopped at' | deadline at' =>
    simp only [OnSchedule, at'] at on
    exact ⟨_, on.1⟩
  | enter at' =>
    simp only [OnSchedule, at'] at on
    exact on
  | finished at' =>
    simp only [OnSchedule, at'] at on
    exact on
  | early at' early =>
    simp only [OnSchedule, at'] at on
    obtain ⟨due, begun, same⟩ := on
    refine ⟨begun.close same.ge ?_, ?_⟩
    · exact le_add_right early.le
    · change exchange.nextDue ≤ exchange.clock + (exchange.nextDue - exchange.clock)
      omega
  | late at' reached little =>
    simp only [OnSchedule, at'] at on
    obtain ⟨due, begun, same⟩ := on
    exact ⟨begun.close same.ge little, reached⟩
  | sleep at' =>
    simp only [OnSchedule, at'] at on
    exact on
  | woken at' awake =>
    simp only [OnSchedule, at'] at on
    exact ⟨on.1, on.2.trans awake⟩

variable [FloorRing K]

theorem OnSchedule.step (on : OnSchedule setup exchange starts)
    (stepped : ExchangeStepped setup exchange after events) :
    OnSchedule setup after (starts ++ startTimes events) := by
  cases stepped with
  | elapse ns =>
    rw [startTimes_nil, List.append_nil]
    exact on.elapse ns
  | interrupt =>
    rw [startTimes_nil, List.append_nil]
    exact on
  | move move =>
    rw [startTimes_nil, List.append_nil]
    exact on.move move
  | round at' =>
    simp only [OnSchedule, at'] at on
    exact ⟨starts, exchange.clock, rfl, on.1, on.2, le_rfl⟩
  | publish at' _ _ _ _ _ goesOn =>
    simp only [OnSchedule, at'] at on
    rw [startTimes_sent, List.append_nil]
    rcases goesOn with rfl | rfl
    · exact on.exists_rounds
    · exact on
  | advance at' =>
    simp only [OnSchedule, at'] at on
    rw [startTimes_nil, List.append_nil]
    exact ⟨_, on, rfl⟩
  | resync at' behind =>
    simp only [OnSchedule, at'] at on
    obtain ⟨due, begun, same⟩ := on
    rw [startTimes_nil, List.append_nil]
    refine ⟨begun.close ?_ (Nat.le_add_right _ _), le_rfl⟩
    change due + setup.perTickDur ≤ exchange.clock
    omega

end Steps

section Runs

variable [IsStrictOrderedRing K] [FloorRing K] {setup : Setup K} {state : Exchange K}
  {history : List (ExchangeEvent K)}

theorem onSchedule_start (setup : Setup K) : OnSchedule setup (exchange setup).start [] := by
  by_cases none' : symbolNames setup.symbols = []
  · simp only [OnSchedule, exchange, if_pos none']
    exact ⟨setup.nextDue, .idle⟩
  · simp only [OnSchedule, exchange, if_neg none']
    exact ⟨.idle, le_rfl⟩

theorem onSchedule_of_reachable (reach : (exchange setup).Reachable state history) :
    OnSchedule setup state (startTimes history) := by
  refine reach.invariant (fun state history => OnSchedule setup state (startTimes history))
    (onSchedule_start setup) ?_
  intro state history action after events _ on _ step
  rw [startTimes_append]
  exact on.step (exchangeStep_inv step)

/-- No round starts before its place in the schedule, and between any two rounds all periods but
one have passed, up to 50 ms. -/
theorem rate_bounded (reach : (exchange setup).Reachable state history) :
    (∀ k s : Nat, (startTimes history)[k]? = some s →
      setup.nextDue + k * setup.perTickDur ≤ s) ∧
    ∀ a b first second : Nat, a < b → (startTimes history)[a]? = some first →
      (startTimes history)[b]? = some second →
        ((b : Int) - a - 1) * setup.perTickDur - 50000000 ≤ second - first := by
  obtain ⟨due, rounds⟩ := (onSchedule_of_reachable reach).exists_rounds
  constructor
  · intro k s is
    exact rounds.start_ge is
  · intro a b first second less begins ends
    have window := rounds.window less begins ends
    have gap : (((b - a - 1 : Nat) : Nat) : Int) = b - a - 1 := by omega
    rw [← gap]
    simp only [smul_eq_mul, resyncAfter] at window
    have cast : ((first + (b - a - 1) * setup.perTickDur : Nat) : Int) ≤ (second + 50000000 : Nat) :=
      Int.ofNat_le.mpr window
    push_cast at cast ⊢
    omega

end Runs

/-- One symbol at a thousand ticks a second. -/
def quietSetup : Setup ℚ where
  symbols := ['A']
  draws := fun _ => ⟨0, le_rfl, by norm_num⟩
  count := 0
  perTickDur := 1000000
  deadline := none
  nextDue := 0

/-- Two rounds start, the first one late and the second one after a sleep. -/
def twoRounds : List (ExchangeAction ℚ) :=
  [.main, .elapse 300, .main, .publish ⟨0, le_rfl, by norm_num⟩ 0 0 0] ++
    List.replicate 4 .main ++ [.elapse 1000000] ++ List.replicate 3 .main

theorem rate_bounded_twice : ∃ history : List (ExchangeEvent ℚ),
    startTimes history = [300, 1000300] ∧
    (∀ k s : Nat, (startTimes history)[k]? = some s →
      quietSetup.nextDue + k * quietSetup.perTickDur ≤ s) ∧
    ∀ a b first second : Nat, a < b → (startTimes history)[a]? = some first →
      (startTimes history)[b]? = some second →
        ((b : Int) - a - 1) * quietSetup.perTickDur - 50000000 ≤ second - first := by
  obtain ⟨state, history, reach, checked⟩ := (exchange quietSetup).exists_reach_of_run
    (fun _ _ => True) twoRounds (fun result => startTimes result.2 = [300, 1000300])
    (System.allowedAlong_true _ _ _) (by decide +kernel)
  exact ⟨history, of_decide_eq_true checked, rate_bounded reach⟩

end TradingPipeline.MockExchange
