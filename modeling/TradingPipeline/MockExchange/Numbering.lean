import TradingPipeline.Foundation.Cursor
import TradingPipeline.MockExchange.Pacing

/-! The ticks are numbered without a gap, and the symbols take turns. -/

set_option autoImplicit false

namespace TradingPipeline.MockExchange

open Foundation Shmbus

section Sent

variable {K : Type}

/-- The ticks that went to the socket, each with the index of its symbol. -/
def sentTicks (history : List (ExchangeEvent K)) : List (Nat × MarketTick) :=
  history.filterMap fun
    | .started _ => none
    | .sent idx _ tick => some (idx, tick)

@[simp] theorem sentTicks_nil : sentTicks ([] : List (ExchangeEvent K)) = [] := rfl

@[simp] theorem sentTicks_started (clock : Nat) :
    sentTicks [(.started clock : ExchangeEvent K)] = [] := rfl

@[simp] theorem sentTicks_sent (idx : Nat) (mid : K) (tick : MarketTick) :
    sentTicks [.sent idx mid tick] = [(idx, tick)] := rfl

@[simp] theorem sentTicks_append (history events : List (ExchangeEvent K)) :
    sentTicks (history ++ events) = sentTicks history ++ sentTicks events :=
  List.filterMap_append

theorem mem_sentTicks {history : List (ExchangeEvent K)} {idx : Nat} {tick : MarketTick} :
    (idx, tick) ∈ sentTicks history ↔ ∃ mid, .sent idx mid tick ∈ history := by
  rw [sentTicks, List.mem_filterMap]
  constructor
  · rintro ⟨event, member, is⟩
    cases event with
    | started => contradiction
    | sent other mid tick => cases is; exact ⟨mid, member⟩
  · rintro ⟨mid, member⟩
    exact ⟨_, member, rfl⟩

end Sent

variable {K : Type} [Field K] [LinearOrder K]

/-- What can end the loop, once it has sent so many ticks. -/
inductive Ended (setup : Setup K) (exchange : Exchange K) (sent : Nat) : Prop where
  | nothing (none : symbolNames setup.symbols = [])
  | stopped (stop : exchange.stop = true)
  | late {deadline : Nat} (set : deadline ∈ setup.deadline) (passed : deadline ≤ exchange.clock)
  | counted (limited : 0 < setup.count) (all : sent = setup.count.toNat)

/-- The ticks as the receivers may count on them. -/
structure Numbered (setup : Setup K) (exchange : Exchange K)
    (history : List (ExchangeEvent K)) : Prop where
  /-- Sequence numbers start at one, and the symbols take turns. -/
  places : ∀ place idx tick, (sentTicks history)[place]? = some (idx, tick) →
    tick.seqNum = .ofNat (place + 1) ∧ idx = place % (symbolNames setup.symbols).length ∧
      (symbolNames setup.symbols)[idx]? = some tick.symbol
  total : exchange.sentTotal = .ofNat (sentTicks history).length
  limit : 0 < setup.count → (sentTicks history).length ≤ setup.count.toNat
  /-- A run that ends before its time has sent every tick of `--count`. -/
  ended : exchange.pc = .returned → Ended setup exchange (sentTicks history).length

/-- Whose turn it is. -/
def Turn (names sent : Nat) : ExchangePc → Prop
  | .publish idx => idx ≤ names ∧ ∃ rounds, sent = names * rounds + idx
  | .returned => True
  | _ => ∃ rounds, sent = names * rounds

/-- How a state of the loop is numbered. -/
structure Numbering (setup : Setup K) (exchange : Exchange K)
    (history : List (ExchangeEvent K)) : Prop extends Numbered setup exchange history where
  names : exchange.symbols.map SymState.name = symbolNames setup.symbols
  seq : exchange.seq = .ofNat (sentTicks history).length
  turn : Turn (symbolNames setup.symbols).length (sentTicks history).length exchange.pc
  running : 0 < setup.count → exchange.pc ≠ .returned →
    (sentTicks history).length < setup.count.toNat

section Steps

variable {setup : Setup K} {exchange after : Exchange K} {action : ExchangeAction K}
  {history events : List (ExchangeEvent K)}

/-- The tests that a step has passed. -/
structure Tested (setup : Setup K) (exchange after : Exchange K) : Prop where
  finished : ∀ idx, exchange.pc = .publish idx → after.pc = .advance →
    exchange.symbols.length ≤ idx
  returned : exchange.pc ≠ .returned → after.pc = .returned →
    after.stop = true ∨ (∃ deadline ∈ setup.deadline, deadline ≤ after.clock) ∨
      0 < setup.count ∧ setup.count ≤ after.sentTotal
  goesOn : after.pc ≠ .returned → after.sentTotal ≠ exchange.sentTotal →
    ¬ (0 < setup.count ∧ setup.count ≤ after.sentTotal)

theorem mainStep_tested (step : mainStep setup exchange = some (after, events)) :
    Tested setup exchange after := by
  unfold mainStep at step
  split at step
  · next at' =>
    cases step
    by_cases stop : exchange.stop = true
    · exact ⟨by simp [at'], fun _ _ => .inl stop, fun _ counts => absurd rfl counts⟩
    · exact ⟨by simp [at'], by simp [Exchange.setPc, stop], fun _ counts => absurd rfl counts⟩
  · next at' =>
    split at step
    · next passed =>
      cases step
      exact ⟨by simp [at'], fun _ _ => .inr (.inl passed), fun _ counts => absurd rfl counts⟩
    · cases step
      exact ⟨by simp [at'], by simp [Exchange.setPc], fun _ counts => absurd rfl counts⟩
  · next idx at' =>
    split at step
    · next ended =>
      cases step
      refine ⟨fun other same _ => ?_, by simp [Exchange.setPc], fun _ counts => absurd rfl counts⟩
      rw [at'] at same
      cases same
      exact ended
    · contradiction
  · next at' =>
    cases step
    exact ⟨by simp [at'], by simp, fun _ counts => absurd rfl counts⟩
  · next at' =>
    cases step
    have kept : exchange.paceStep.sentTotal = exchange.sentTotal ∧
        exchange.paceStep.pc ≠ .returned := by
      unfold Exchange.paceStep
      dsimp only
      split
      · exact ⟨rfl, nofun⟩
      · split <;> exact ⟨rfl, nofun⟩
    exact ⟨by simp [at'], fun _ gone => absurd gone kept.2, fun _ counts => absurd kept.1 counts⟩
  · next at' =>
    cases step
    exact ⟨by simp [at'], by simp [Exchange.setPc], fun _ counts => absurd rfl counts⟩
  · next at' =>
    split at step
    · cases step
      exact ⟨by simp [at'], by simp [Exchange.setPc], fun _ counts => absurd rfl counts⟩
    · contradiction
  · contradiction

section Publishing

variable [FloorRing K]

theorem publishStep_tested {draw : Draw K} {ts : UInt64} {bidSz askSz : Fin 900}
    (step : publishStep setup exchange draw ts bidSz askSz = some (after, events)) :
    Tested setup exchange after := by
  unfold publishStep at step
  split at step
  · split at step
    · contradiction
    · cases step
      constructor
      case finished => intro idx _; dsimp only; split <;> nofun
      case returned =>
        intro _
        dsimp only
        split
        · next all => exact fun _ => .inr (.inr all)
        · nofun
      case goesOn =>
        intro running _
        dsimp only at running ⊢
        intro all
        exact running (if_pos all)
  · contradiction

theorem exchangeStep_tested (step : exchangeStep setup exchange action = some (after, events)) :
    Tested setup exchange after := by
  cases action with
  | elapse ns =>
    cases step
    exact ⟨by simp_all, fun running gone => absurd gone running, fun _ counts => absurd rfl counts⟩
  | interrupt =>
    cases step
    exact ⟨by simp_all, fun running gone => absurd gone running, fun _ counts => absurd rfl counts⟩
  | main => exact mainStep_tested step
  | publish draw ts bidSz askSz => exact publishStep_tested step

end Publishing

theorem Ended.mono {sent : Nat} (ended : Ended setup exchange sent)
    (stop : exchange.stop = true → after.stop = true) (clock : exchange.clock ≤ after.clock) :
    Ended setup after sent := by
  cases ended with
  | nothing none => exact .nothing none
  | stopped stopped => exact .stopped (stop stopped)
  | late set passed => exact .late set (passed.trans clock)
  | counted limited all => exact .counted limited all

theorem toNat_total {sent : Nat} (within : sent ≤ setup.count.toNat) :
    (UInt64.ofNat sent).toNat = sent :=
  UInt64.toNat_ofNat_of_lt' (within.trans_lt setup.count.toNat_lt)

theorem Tested.ended (tested : Tested setup exchange after) {sent : Nat}
    (running : exchange.pc ≠ .returned) (gone : after.pc = .returned)
    (total : after.sentTotal = .ofNat sent) (limit : 0 < setup.count → sent ≤ setup.count.toNat) :
    Ended setup after sent := by
  rcases tested.returned running gone with stop | ⟨deadline, set, passed⟩ | ⟨limited, all⟩
  · exact .stopped stop
  · exact .late set passed
  · have within := limit limited
    rw [total, UInt64.le_iff_toNat_le, toNat_total within] at all
    exact .counted limited (within.antisymm all)

theorem Numbering.quiet (numbering : Numbering setup exchange history)
    (symbols : after.symbols = exchange.symbols) (seq : after.seq = exchange.seq)
    (total : after.sentTotal = exchange.sentTotal) (silent : sentTicks events = [])
    (turn : Turn (symbolNames setup.symbols).length (sentTicks history).length after.pc)
    (running : after.pc ≠ .returned → exchange.pc ≠ .returned)
    (ended : after.pc = .returned → Ended setup after (sentTicks history).length) :
    Numbering setup after (history ++ events) := by
  have same : sentTicks (history ++ events) = sentTicks history := by
    rw [sentTicks_append, silent, List.append_nil]
  constructor
  case toNumbered =>
    refine ⟨?_, ?_, ?_, ?_⟩ <;> rw [same]
    · exact numbering.places
    · exact total.trans numbering.total
    · exact numbering.limit
    · exact ended
  case names => rw [symbols, numbering.names]
  case seq => rw [seq, numbering.seq, same]
  case turn => rwa [same]
  case running =>
    intro limited goesOn
    rw [same]
    exact numbering.running limited (running goesOn)

theorem ExchangeMove.turn {pc : ExchangePc} (move : ExchangeMove exchange pc) {names sent : Nat}
    (turn : Turn names sent exchange.pc)
    (passed : ∀ idx, exchange.pc = .publish idx → pc = .advance → names ≤ idx) :
    Turn names sent pc := by
  cases move with
  | stopped | deadline => trivial
  | enter at' | early at' | late at' | sleep at' | woken at' => rwa [at'] at turn
  | @finished idx at' =>
    rw [at'] at turn
    obtain ⟨within, rounds, rfl⟩ := turn
    have last := passed idx at' rfl
    refine ⟨rounds + 1, ?_⟩
    rw [Nat.mul_succ, within.antisymm last]

theorem ExchangeMove.running {pc : ExchangePc} (move : ExchangeMove exchange pc) :
    exchange.pc ≠ .returned := by
  cases move with
  | stopped at' | enter at' | deadline at' | finished at' | early at' | late at' | sleep at'
  | woken at' => rw [at']; nofun

theorem map_name_set {symbols : List (SymState K)} {idx : Nat} {sym : SymState K}
    (here : symbols[idx]? = some sym) (draw : Draw K) :
    (symbols.set idx (sym.next draw)).map SymState.name = symbols.map SymState.name := by
  obtain ⟨inside, rfl⟩ := List.getElem?_eq_some_iff.mp here
  have listed : idx < (symbols.map SymState.name).length := by rwa [List.length_map]
  have name : (symbols[idx].next draw).name = (symbols.map SymState.name)[idx] := by
    rw [List.getElem_map]
    rfl
  rw [List.map_set, name, List.set_getElem_self]

variable [FloorRing K]

theorem Numbering.step (numbering : Numbering setup exchange history)
    (tested : Tested setup exchange after)
    (stepped : ExchangeStepped setup exchange after events) :
    Numbering setup after (history ++ events) := by
  have length : exchange.symbols.length = (symbolNames setup.symbols).length := by
    rw [← numbering.names, List.length_map]
  cases stepped with
  | elapse ns =>
    exact numbering.quiet rfl rfl rfl rfl numbering.turn id fun gone =>
      (numbering.ended gone).mono id (Nat.le_add_right _ _)
  | interrupt =>
    exact numbering.quiet rfl rfl rfl rfl numbering.turn id fun gone =>
      (numbering.ended gone).mono (fun _ => rfl) le_rfl
  | move move =>
    have turn := move.turn numbering.turn fun idx at' goes =>
      length ▸ tested.finished idx at' goes
    exact numbering.quiet rfl rfl rfl rfl turn (fun _ => move.running) fun gone =>
      tested.ended move.running gone numbering.total numbering.limit
  | round at' =>
    have turn := numbering.turn
    rw [at'] at turn
    exact numbering.quiet rfl rfl rfl rfl ⟨Nat.zero_le _, turn⟩ (fun _ => by simp [at']) nofun
  | advance at' | resync at' =>
    have turn := numbering.turn
    rw [at'] at turn
    exact numbering.quiet rfl rfl rfl rfl turn (fun _ => by simp [at']) nofun
  | @publish idx sym at' here draw ts bidSz askSz pc goesOn =>
    have running : exchange.pc ≠ .returned := by simp [at']
    have turn := numbering.turn
    rw [at'] at turn
    obtain ⟨-, rounds, sent⟩ := turn
    have inside : idx < (symbolNames setup.symbols).length :=
      length ▸ (List.getElem?_eq_some_iff.mp here).1
    have more (mid : K) (tick : MarketTick) :
        (sentTicks (history ++ [.sent idx mid tick])).length = (sentTicks history).length + 1 := by
      simp
    have total : exchange.sentTotal + 1 = .ofNat ((sentTicks history).length + 1) := by
      rw [numbering.total]
      exact Cursor.ofNat_succ _
    have limit : 0 < setup.count → (sentTicks history).length + 1 ≤ setup.count.toNat :=
      fun limited => numbering.running limited running
    constructor
    case toNumbered =>
      refine ⟨?_, ?_, ?_, ?_⟩
      · intro place other tick is
        rw [sentTicks_append, sentTicks_sent] at is
        rcases Nat.lt_or_ge place (sentTicks history).length with earlier | last
        · rw [List.getElem?_append_left earlier] at is
          exact numbering.places place other tick is
        · rw [List.getElem?_append_right last, List.getElem?_singleton] at is
          obtain ⟨here', made⟩ := Option.ite_none_right_eq_some.mp is
          obtain rfl : place = (sentTicks history).length := by omega
          cases made
          refine ⟨?_, ?_, ?_⟩
          · change exchange.seq + 1 = _
            rw [numbering.seq]
            exact Cursor.ofNat_succ _
          · rw [sent, Nat.mul_add_mod, Nat.mod_eq_of_lt inside]
          · rw [← numbering.names, List.getElem?_map, here]
            rfl
      · rw [more]
        exact total
      · rw [more]
        exact limit
      · rw [more]
        exact fun gone => tested.ended running gone total limit
    case names => exact (map_name_set here draw).trans numbering.names
    case seq =>
      rw [more]
      change exchange.seq + 1 = _
      rw [numbering.seq]
      exact Cursor.ofNat_succ _
    case turn =>
      rw [more]
      rcases goesOn with rfl | rfl
      · trivial
      · exact ⟨inside, rounds, by rw [sent, Nat.add_assoc]⟩
    case running =>
      intro limited goes
      rw [more]
      have counts : exchange.sentTotal + 1 ≠ exchange.sentTotal := by simp
      have fewer := tested.goesOn goes counts
      have within := limit limited
      simp only [limited, true_and, total, UInt64.not_le, UInt64.lt_iff_toNat_lt,
        toNat_total within] at fewer
      exact fewer

end Steps

section Runs

variable [IsStrictOrderedRing K] {setup : Setup K} {state : Exchange K}
  {history : List (ExchangeEvent K)}

theorem names_symStates (setup : Setup K) :
    setup.symStates.map SymState.name = symbolNames setup.symbols := by
  apply List.ext_getElem? fun idx => ?_
  rw [Setup.symStates, List.getElem?_map, List.getElem?_mapIdx, Option.map_map]
  exact Option.map_id'

variable [FloorRing K]

theorem numbering_start (setup : Setup K) : Numbering setup (exchange setup).start [] where
  places _ _ _ is := by simp at is
  total := rfl
  limit _ := Nat.zero_le _
  ended gone := by
    by_cases none : symbolNames setup.symbols = []
    · exact .nothing none
    · simp [exchange, none] at gone
  names := names_symStates setup
  seq := rfl
  turn := by
    by_cases none : symbolNames setup.symbols = []
    · simp only [exchange, if_pos none]
      trivial
    · simp only [exchange, if_neg none]
      exact ⟨0, rfl⟩
  running limited _ := UInt64.lt_iff_toNat_lt.mp limited

theorem numbering_of_reachable (reach : (exchange setup).Reachable state history) :
    Numbering setup state history := by
  refine reach.invariant (Numbering setup) (numbering_start setup) ?_
  intro state history action after events _ numbering _ step
  exact numbering.step (exchangeStep_tested step) (exchangeStep_inv step)

/-- The k-th tick of every run carries the sequence number k + 1 for the symbol whose turn it is,
and `--count` is the number of ticks that an undisturbed run sends. -/
theorem ticks_numbered (reach : (exchange setup).Reachable state history) :
    Numbered setup state history :=
  (numbering_of_reachable reach).toNumbered

/-- Three ticks of two symbols, at most. -/
def countedSetup : Setup ℚ := { quietSetup with symbols := ['A', ',', 'B'], count := 3 }

theorem ticks_numbered_three : ∃ (state : Exchange ℚ) (history : List (ExchangeEvent ℚ)),
    (sentTicks history).map Prod.fst = [0, 1, 0] ∧ state.pc = .returned ∧
      Numbered countedSetup state history := by
  let publish : ExchangeAction ℚ := .publish ⟨0, le_rfl, by norm_num⟩ 0 0 0
  -- a round for both symbols, a sleep, and the round in which the count is reached
  obtain ⟨state, history, reach, checked⟩ := (exchange countedSetup).exists_reach_of_run
    (fun _ _ => True) ([.main, .main, publish, publish] ++ List.replicate 4 .main ++
      [.elapse 1000000, .main, .main, .main, publish])
    (fun result => (sentTicks result.2).map Prod.fst = [0, 1, 0] ∧ result.1.pc = .returned)
    (System.allowedAlong_true _ _ _) (by decide +kernel)
  obtain ⟨turns, gone⟩ := of_decide_eq_true checked
  exact ⟨state, history, turns, gone, ticks_numbered reach⟩

end Runs

end TradingPipeline.MockExchange
