import TradingPipeline.Foundation.Transition
import TradingPipeline.MockExchange.Quotes

/-! The publishing loop of the mock exchange.

Between any two statements of the loop the clock may move on, and the stop flag may be set. Times
are nanoseconds without a bound: a sum that overflows an `Instant` panics and ends the run there.
-/

set_option autoImplicit false

namespace TradingPipeline.MockExchange

open Foundation Shmbus

inductive ExchangePc where
  | loopHead
  | checkDeadline
  /-- In the `for` loop, at the symbol with this index. -/
  | publish (idx : Nat)
  | advance
  | readClock
  /-- Before the call of `thread::sleep`. -/
  | sleep (dur : Nat)
  | asleep (wakes : Nat)
  | returned
  deriving DecidableEq

/-- What the loop finds when it is entered. -/
structure Setup (K : Type) [Field K] [LinearOrder K] where
  symbols : List Char
  /-- What `rng` yields for the anchors. -/
  draws : Nat → Draw K
  count : UInt64
  perTickDur : Nat
  deadline : Option Nat
  /-- The first `next_due`, which is the time at that moment. -/
  nextDue : Nat

structure Exchange (K : Type) [Field K] [LinearOrder K] where
  pc : ExchangePc
  stop : Bool
  clock : Nat
  symbols : List (SymState K)
  seq : UInt64
  sentTotal : UInt64
  nextDue : Nat

inductive ExchangeAction (K : Type) [Field K] [LinearOrder K] where
  /-- Time passes. -/
  | elapse (ns : Nat)
  /-- The handler of ctrl-c sets the flag. -/
  | interrupt
  /-- A statement of the loop that draws no random number. -/
  | main
  /-- One turn of the `for` loop, with what `rng` and `now_ns` yield. -/
  | publish (draw : Draw K) (ts : UInt64) (bidSz askSz : Fin 900)

inductive ExchangeEvent (K : Type) where
  /-- A round of publishing starts. -/
  | started (clock : Nat)
  /-- A tick goes to the socket for the symbol with this index, at this mid price. -/
  | sent (idx : Nat) (mid : K) (tick : MarketTick)

/-- `Duration::from_millis(50)`. -/
def resyncAfter : Nat := 50000000

variable {K : Type} [Field K] [LinearOrder K]

namespace Exchange

def setPc (exchange : Exchange K) (pc : ExchangePc) : Exchange K := { exchange with pc := pc }

/-- The pacing, with `now` read from the clock. -/
def paceStep (exchange : Exchange K) : Exchange K :=
  let now := exchange.clock
  if now < exchange.nextDue then exchange.setPc (.sleep (exchange.nextDue - now))
  else if resyncAfter < now - exchange.nextDue then
    { exchange with pc := .loopHead, nextDue := now }
  else exchange.setPc .loopHead

end Exchange

/-- The loop's next statement outside of the `for` loop. -/
def mainStep (setup : Setup K) (exchange : Exchange K) :
    Option (Exchange K × List (ExchangeEvent K)) :=
  match exchange.pc with
  | .loopHead =>
    some (exchange.setPc (if exchange.stop then .returned else .checkDeadline), [])
  | .checkDeadline =>
    if ∃ d ∈ setup.deadline, d ≤ exchange.clock then some (exchange.setPc .returned, [])
    else some (exchange.setPc (.publish 0), [.started exchange.clock])
  | .publish idx =>
    -- the iterator is at its end
    if exchange.symbols.length ≤ idx then some (exchange.setPc .advance, []) else none
  | .advance =>
    some ({ exchange with pc := .readClock, nextDue := exchange.nextDue + setup.perTickDur }, [])
  | .readClock => some (exchange.paceStep, [])
  | .sleep dur => some (exchange.setPc (.asleep (exchange.clock + dur)), [])
  | .asleep wakes => if wakes ≤ exchange.clock then some (exchange.setPc .loopHead, []) else none
  | .returned => none

variable [FloorRing K]

/-- One turn of the `for` loop. -/
def publishStep (setup : Setup K) (exchange : Exchange K) (draw : Draw K) (ts : UInt64)
    (bidSz askSz : Fin 900) : Option (Exchange K × List (ExchangeEvent K)) :=
  match exchange.pc with
  | .publish idx =>
    match exchange.symbols[idx]? with
    | none => none
    | some sym =>
      let sym := sym.next draw
      let seq := exchange.seq + 1
      let sentTotal := exchange.sentTotal + 1
      some ({ exchange with
        pc := if 0 < setup.count ∧ setup.count ≤ sentTotal then .returned else .publish (idx + 1)
        symbols := exchange.symbols.set idx sym
        seq := seq
        sentTotal := sentTotal }, [.sent idx sym.mid (sym.tick seq ts bidSz askSz)])
  | _ => none

def exchangeStep (setup : Setup K) (exchange : Exchange K) :
    ExchangeAction K → Option (Exchange K × List (ExchangeEvent K))
  | .elapse ns => some ({ exchange with clock := exchange.clock + ns }, [])
  | .interrupt => some ({ exchange with stop := true }, [])
  | .main => mainStep setup exchange
  | .publish draw ts bidSz askSz => publishStep setup exchange draw ts bidSz askSz

/-- Moves of the loop that touch nothing but its program counter. -/
inductive ExchangeMove (exchange : Exchange K) : ExchangePc → Prop where
  | stopped (at' : exchange.pc = .loopHead) : ExchangeMove exchange .returned
  | enter (at' : exchange.pc = .loopHead) : ExchangeMove exchange .checkDeadline
  | deadline (at' : exchange.pc = .checkDeadline) : ExchangeMove exchange .returned
  | finished {idx : Nat} (at' : exchange.pc = .publish idx) : ExchangeMove exchange .advance
  | early (at' : exchange.pc = .readClock) (early : exchange.clock < exchange.nextDue) :
      ExchangeMove exchange (.sleep (exchange.nextDue - exchange.clock))
  | late (at' : exchange.pc = .readClock) (due : exchange.nextDue ≤ exchange.clock)
      (little : exchange.clock ≤ exchange.nextDue + resyncAfter) : ExchangeMove exchange .loopHead
  | sleep {dur : Nat} (at' : exchange.pc = .sleep dur) :
      ExchangeMove exchange (.asleep (exchange.clock + dur))
  | woken {wakes : Nat} (at' : exchange.pc = .asleep wakes) (awake : wakes ≤ exchange.clock) :
      ExchangeMove exchange .loopHead

/-- Everything that one step can do. -/
inductive ExchangeStepped (setup : Setup K) (exchange : Exchange K) :
    Exchange K → List (ExchangeEvent K) → Prop where
  | elapse (ns : Nat) :
      ExchangeStepped setup exchange { exchange with clock := exchange.clock + ns } []
  | interrupt : ExchangeStepped setup exchange { exchange with stop := true } []
  | move {pc : ExchangePc} (move : ExchangeMove exchange pc) :
      ExchangeStepped setup exchange (exchange.setPc pc) []
  | round (at' : exchange.pc = .checkDeadline) :
      ExchangeStepped setup exchange (exchange.setPc (.publish 0)) [.started exchange.clock]
  | publish {idx : Nat} {sym : SymState K} (at' : exchange.pc = .publish idx)
      (here : exchange.symbols[idx]? = some sym) (draw : Draw K) (ts : UInt64)
      (bidSz askSz : Fin 900) {pc : ExchangePc}
      (goesOn : pc = .returned ∨ pc = .publish (idx + 1)) :
      ExchangeStepped setup exchange
        { exchange with
          pc := pc
          symbols := exchange.symbols.set idx (sym.next draw)
          seq := exchange.seq + 1
          sentTotal := exchange.sentTotal + 1 }
        [.sent idx (sym.next draw).mid ((sym.next draw).tick (exchange.seq + 1) ts bidSz askSz)]
  | advance (at' : exchange.pc = .advance) :
      ExchangeStepped setup exchange
        { exchange with pc := .readClock, nextDue := exchange.nextDue + setup.perTickDur } []
  | resync (at' : exchange.pc = .readClock)
      (behind : exchange.nextDue + resyncAfter < exchange.clock) :
      ExchangeStepped setup exchange
        { exchange with pc := .loopHead, nextDue := exchange.clock } []

section Inversion

variable {setup : Setup K} {exchange after : Exchange K} {events : List (ExchangeEvent K)}

theorem paceStep_inv (at' : exchange.pc = .readClock) :
    ExchangeStepped setup exchange exchange.paceStep [] := by
  unfold Exchange.paceStep
  dsimp only
  split
  · next early => exact .move (.early at' early)
  · next due =>
    split
    · next behind => exact .resync at' (by omega)
    · next little => exact .move (.late at' (by omega) (by omega))

theorem mainStep_inv (step : mainStep setup exchange = some (after, events)) :
    ExchangeStepped setup exchange after events := by
  unfold mainStep at step
  split at step
  · next at' =>
    cases step
    split
    · exact .move (.stopped at')
    · exact .move (.enter at')
  · next at' =>
    split at step
    · cases step; exact .move (.deadline at')
    · cases step; exact .round at'
  · next at' =>
    split at step
    · cases step; exact .move (.finished at')
    · contradiction
  · next at' => cases step; exact .advance at'
  · next at' => cases step; exact paceStep_inv at'
  · next at' => cases step; exact .move (.sleep at')
  · next at' =>
    split at step
    · next awake => cases step; exact .move (.woken at' awake)
    · contradiction
  · contradiction

theorem publishStep_inv {draw : Draw K} {ts : UInt64} {bidSz askSz : Fin 900}
    (step : publishStep setup exchange draw ts bidSz askSz = some (after, events)) :
    ExchangeStepped setup exchange after events := by
  unfold publishStep at step
  split at step
  · next at' =>
    split at step
    · contradiction
    · next here =>
      cases step
      refine .publish at' here draw ts bidSz askSz ?_
      split
      · exact .inl rfl
      · exact .inr rfl
  · contradiction

theorem exchangeStep_inv {action : ExchangeAction K}
    (step : exchangeStep setup exchange action = some (after, events)) :
    ExchangeStepped setup exchange after events := by
  cases action with
  | elapse ns => cases step; exact .elapse ns
  | interrupt => cases step; exact .interrupt
  | main => exact mainStep_inv step
  | publish draw ts bidSz askSz => exact publishStep_inv step

end Inversion

section System

variable [IsStrictOrderedRing K]

/-- The symbols before the first round. -/
def Setup.symStates (setup : Setup K) : List (SymState K) :=
  (symbolNames setup.symbols).mapIdx fun idx name => .new name (.drawn (setup.draws idx))

/-- The loop. Without a symbol `main` fails before it. -/
def exchange (setup : Setup K) : System (Exchange K) (ExchangeAction K) (ExchangeEvent K) where
  start :=
    { pc := if symbolNames setup.symbols = [] then .returned else .loopHead
      stop := false
      clock := setup.nextDue
      symbols := setup.symStates
      seq := 0
      sentTotal := 0
      nextDue := setup.nextDue }
  step := exchangeStep setup

end System

end TradingPipeline.MockExchange
