import TradingPipeline.Engine.Accounts
import TradingPipeline.Engine.Inline

/-! The trading engine as the bus sees it, in either of its modes. -/

set_option autoImplicit false

namespace TradingPipeline.Bus

open Foundation Shmbus Engine

/-- A program that consumes ticks and offers orders. It is in one call at a time, and takes what
the call answers with one action. -/
structure Client (S A E : Type) where
  system : System S A E
  /-- The order that `try_publish_order` has been called with. -/
  offering : S → Option OrderMsg
  /-- It is in `try_consume`. -/
  polling : S → Bool
  /-- The action takes no answer. -/
  own : A → Bool
  /-- The action that takes what `try_publish` answers. -/
  published : Bool → A
  /-- The action takes this answer of `try_consume`; it may carry readings of the clock. -/
  takes : Option MarketTick → A → Bool
  consumption : E → Option MarketTick
  offer : E → Option (OrderMsg × Bool)

namespace Client

variable {S A E : Type} (client : Client S A E)

def consumptions (history : List E) : List MarketTick := history.filterMap client.consumption

/-- What it has offered, with what it was told. -/
def offers (history : List E) : List (OrderMsg × Bool) := history.filterMap client.offer

/-- The orders that it was told are in the ring. -/
def accepted (history : List E) : List OrderMsg :=
  (client.offers history).filterMap fun (order, accepted) => if accepted then some order else none

/-- Calls are entered and left as the interface says. -/
structure Lawful : Prop where
  start : client.offering client.system.start = none
  own : ∀ {state action after events}, client.own action = true →
    client.system.step state action = some (after, events) →
    (client.offering state = none ∨ client.offering after = client.offering state) ∧
      client.consumptions events = [] ∧ client.offers events = []
  published : ∀ {state accepted after events},
    client.system.step state (client.published accepted) = some (after, events) →
    ∃ order, client.offering state = some order ∧ client.offering after = none ∧
      client.consumptions events = [] ∧ client.offers events = [(order, accepted)]
  takes : ∀ {state found action after events}, client.takes found action = true →
    client.system.step state action = some (after, events) →
    client.offering state = none ∧ client.offering after = none ∧
      client.consumptions events = found.toList ∧ client.offers events = []

@[simp] theorem consumptions_nil : client.consumptions [] = [] := rfl

section Append

variable (first second : List E)

@[simp] theorem consumptions_append :
    client.consumptions (first ++ second) = client.consumptions first ++ client.consumptions second :=
  List.filterMap_append

@[simp] theorem offers_append :
    client.offers (first ++ second) = client.offers first ++ client.offers second :=
  List.filterMap_append

@[simp] theorem accepted_append :
    client.accepted (first ++ second) = client.accepted first ++ client.accepted second := by
  rw [accepted, offers_append, List.filterMap_append]
  rfl

end Append

theorem accepted_of_offers {events : List E} {offers : List (OrderMsg × Bool)}
    (is : client.offers events = offers) : client.accepted events =
      offers.filterMap fun (order, accepted) => if accepted then some order else none := by
  rw [accepted, is]

end Client

section Inline

variable {F : Type} (args : StrategyArgs F)

/-- `run_inline`. -/
def inlineClient : Client (InlineLoop F) InlineAction InlineEvent where
  system := inlineLoop args
  offering state := state.pc.order
  polling state := state.pc = .tryConsume
  own
    | .tryConsume _ | .tryPublish _ => false
    | _ => true
  published := .tryPublish
  takes
    | found, .tryConsume answer => answer = found
    | _, _ => false
  consumption
    | .consumed tick => some tick
    | _ => none
  offer
    | .offered order accepted => some (order, accepted)
    | _ => none

theorem inline_offering {state : InlineLoop F} {pc : InlinePc} (at' : state.pc = pc) :
    (inlineClient args).offering state = pc.order := congrArg InlinePc.order at'

theorem inlineClient_lawful : (inlineClient args).Lawful := by
  constructor
  case start => rfl
  case own =>
    intro state action after events own step
    cases inlineStep_inv step with
    | interrupt => exact ⟨.inr rfl, rfl, rfl⟩
    | move move => exact ⟨.inl move.hands.2.1, rfl, rfl⟩
    | nothing | consume | publish => contradiction
    | handle at' => exact ⟨.inl (inline_offering args at'), rfl, rfl⟩
  case published =>
    intro state accepted after events step
    have step : inlineStep args state (.tryPublish accepted) = some (after, events) := step
    cases inlineStep_inv step with
    | move _ _ silent => exact absurd rfl (silent accepted)
    | publish at' => exact ⟨_, inline_offering args at', rfl, rfl, rfl⟩
  case takes =>
    intro state found action after events takes step
    cases inlineStep_inv step with
    | interrupt | handle | publish => contradiction
    | @move action _ _ own =>
      cases action with
      | tryConsume found => exact absurd rfl (own found)
      | interrupt | loopHead | checkDeadline | handle | tryPublish => contradiction
    | nothing at' =>
      obtain rfl : none = found := of_decide_eq_true takes
      exact ⟨inline_offering args at', rfl, rfl, rfl⟩
    | @consume tick at' =>
      obtain rfl : some tick = found := of_decide_eq_true takes
      exact ⟨inline_offering args at', rfl, rfl, rfl⟩

end Inline

section Workers

variable {F : Type} {n : Nat} [NeZero n] (args : StrategyArgs F)

/-- `run_with_workers`; the dispatcher makes all calls. -/
def workersClient : Client (EngineState F n) (EngineAction n) (EngineEvent n) where
  system := runWithWorkers args
  offering state := state.main.pc.order.head?.map Prod.snd
  polling state := state.main.pc = .tryConsume
  own
    | .tryConsume _ | .tryPublish _ => false
    | _ => true
  published := .tryPublish
  takes
    | found, .tryConsume answer => (answer.map fun consumed => consumed.seen.tick) = found
    | _, _ => false
  consumption
    | .consumed seen => some seen.tick
    | _ => none
  offer
    | .offered _ order accepted => some (order, accepted)
    | _ => none

theorem workers_handling_silent (id : Fin n) (seen : Observed) (order : Option OrderMsg) :
    (workersClient args).consumptions (handlingEvents id seen order) = [] ∧
      (workersClient args).offers (handlingEvents id seen order) = [] := by
  cases order <;> exact ⟨rfl, rfl⟩

theorem workers_offering {state : EngineState F n} {pc : MainPc n} (at' : state.main.pc = pc) :
    (workersClient args).offering state = pc.order.head?.map Prod.snd :=
  congrArg (fun pc => pc.order.head?.map Prod.snd) at'

theorem workersClient_lawful : (workersClient args : Client (EngineState F n) _ _).Lawful := by
  constructor
  case start => rfl
  case own =>
    intro state action after events own step
    cases engineStep_inv step with
    | consume | publish | finalPublish => contradiction
    | interrupt | workerMove | receive | send => exact ⟨.inr rfl, rfl, rfl⟩
    | @handle id nowNs item =>
      exact ⟨.inr rfl, workers_handling_silent args id item.seen (strategyStep args item.seen
        (state.workers id).symbols (state.workers id).nextOrderId).order⟩
    | mainMove move =>
      have empty : state.main.pc.order = [] := move.hands.2.1
      exact ⟨.inl (by simp [workersClient, empty]), rfl, rfl⟩
    | deliver at' | drop at' | refuse at' | take at' | finalTake at' | join at' =>
      exact ⟨.inl (workers_offering args at'), rfl, rfl⟩
  case published =>
    intro state accepted after events step
    simp only [workersClient, runWithWorkers, engineStep] at step
    split at step
    · next at' =>
      cases step
      exact ⟨_, workers_offering args at', rfl, rfl, rfl⟩
    · next at' =>
      cases step
      exact ⟨_, workers_offering args at', rfl, rfl, rfl⟩
    · contradiction
  case takes =>
    intro state found action after events takes step
    cases action with
    | interrupt | main | checkDeadline | tryPublish | worker => contradiction
    | tryConsume answer =>
      simp only [workersClient, runWithWorkers, engineStep, Option.ite_none_right_eq_some] at step
      obtain ⟨at', step⟩ := step
      obtain rfl : (answer.map fun consumed => consumed.seen.tick) = found := of_decide_eq_true takes
      cases answer <;> cases step <;> exact ⟨workers_offering args at', rfl, rfl, rfl⟩

end Workers

end TradingPipeline.Bus
