import TradingPipeline.Feedhandler.Completions
import TradingPipeline.Shmbus.RingInvariant

/-! The tick pipeline: the feedhandler's event loop, the ticks ring, and the engine that
consumes it.

The loop, the kernel, `try_publish` and `try_consume` take their steps in any order; the loop
waits for `try_publish` as a caller does.
-/

set_option autoImplicit false

namespace TradingPipeline.Feedhandler

open Foundation Shmbus HandlerEvent

structure PipelineState where
  handler : Handler
  ring : RingState

inductive PipelineAction where
  | handler (action : HandlerAction)
  /-- Enter `try_publish`. -/
  | callPublish
  | producerStep
  | tryConsume (out : Payload)
  | consumerStep
  deriving DecidableEq

inductive PipelineEvent where
  | handler (event : HandlerEvent)
  | ring (event : RingEvent)
  /-- The engine has read a tick from its buffer. -/
  | decoded (tick : MarketTick)
  deriving DecidableEq

/-- `ptr::read` of a tick from the buffer that `try_consume` has filled. -/
def decode (payload : Payload) : MarketTick := .read payload.toList

/-- What `try_publish` returns in this step, if it does. -/
def publishOutcome (shown : List RingEvent) : Option Bool :=
  shown.findSome? fun | .publishReturn accepted => some accepted | _ => none

/-- A step of the ring that the event loop takes no part in. -/
def ringMove (state : PipelineState) (action : RingAction) :
    Option (PipelineState × List PipelineEvent) :=
  (ringStep state.ring action).map fun (ring, shown) =>
    ({ state with ring := ring }, shown.map .ring ++
      (RingEvent.returnedPayloads shown).map fun payload => .decoded (decode payload))

/-- The outcome of `try_publish` comes from the ring. -/
def internal : HandlerAction → Bool
  | .published _ => false
  | _ => true

def pipelineStep (state : PipelineState) :
    PipelineAction → Option (PipelineState × List PipelineEvent)
  | .handler action =>
    if internal action then
      (handlerStep state.handler action).map fun (handler, noted) =>
        ({ state with handler := handler }, noted.map .handler)
    else none
  | .callPublish =>
    match state.handler.pc with
    | .publish _ _ bytes => ringMove state (.tryPublish bytes)
    | _ => none
  | .producerStep =>
    match ringStep state.ring .producerStep with
    | none => none
    | some (ring, shown) =>
      match publishOutcome shown with
      | none => some ({ state with ring := ring }, shown.map .ring)
      | some accepted =>
        (handlerStep state.handler (.published accepted)).map fun (handler, noted) =>
          (⟨handler, ring⟩, shown.map .ring ++ noted.map .handler)
  | .tryConsume out => ringMove state (.tryConsume out)
  | .consumerStep => ringMove state .consumerStep

/-- The feedhandler and the engine, attached to a fresh ticks ring. -/
def pipeline (memory : SpscRing) : System PipelineState PipelineAction PipelineEvent where
  start := ⟨feedhandler.start, (spsc memory).start⟩
  step := pipelineStep

namespace PipelineEvent

def ofHandler (history : List PipelineEvent) : List HandlerEvent :=
  history.filterMap fun | .handler event => some event | _ => none

def ofRing (history : List PipelineEvent) : List RingEvent :=
  history.filterMap fun | .ring event => some event | _ => none

/-- The ticks that the engine has decoded. -/
def decodings (history : List PipelineEvent) : List MarketTick :=
  history.filterMap fun | .decoded tick => some tick | _ => none

section Append

variable (first second : List PipelineEvent)

@[simp] theorem ofHandler_append : ofHandler (first ++ second) = ofHandler first ++ ofHandler second :=
  List.filterMap_append

@[simp] theorem ofRing_append : ofRing (first ++ second) = ofRing first ++ ofRing second :=
  List.filterMap_append

@[simp] theorem decodings_append : decodings (first ++ second) = decodings first ++ decodings second :=
  List.filterMap_append

end Append

section Embedded

variable (noted : List HandlerEvent) (shown : List RingEvent) (ticks : List MarketTick)

@[simp] theorem ofHandler_handler : ofHandler (noted.map .handler) = noted := by
  simp [ofHandler, List.filterMap_map]

@[simp] theorem ofHandler_ring : ofHandler (shown.map .ring) = [] := by
  simp [ofHandler, List.filterMap_map]

@[simp] theorem ofRing_handler : ofRing (noted.map .handler) = [] := by
  simp [ofRing, List.filterMap_map]

@[simp] theorem ofRing_ring : ofRing (shown.map .ring) = shown := by
  simp [ofRing, List.filterMap_map]

@[simp] theorem decodings_handler : decodings (noted.map .handler) = [] := by
  simp [decodings, List.filterMap_map]

@[simp] theorem decodings_ring : decodings (shown.map .ring) = [] := by
  simp [decodings, List.filterMap_map]

end Embedded
end PipelineEvent

open PipelineEvent

/-- The slot of a published tick decodes to the tick: the zeroes behind its bytes and the
bytes of its padding belong to no field. -/
theorem decode_zeroPad (tick : MarketTick) (padding : Vector UInt8 4) :
    decode (zeroPad (tick.bytes padding)) = tick := by
  have length := tick.length_bytes padding
  have payload : (zeroPad (tick.bytes padding)).toList =
      tick.bytes padding ++ List.replicate (slotPayload - MarketTick.size) 0 := by
    apply List.ext_getElem
    · rw [Vector.length_toList, List.length_append, length, List.length_replicate]
      rfl
    · intro position bound inside
      by_cases within : position < (tick.bytes padding).length
      · simp [zeroPad, within]
      · simp [zeroPad, List.getElem_append, within]
  rw [decode, payload, MarketTick.read_bytes]

section Coupling

/-- The ticks that the ring should carry. -/
def ticks (history : List HandlerEvent) : List MarketTick :=
  (undropped history).map fun tick => stampedTick tick.1 tick.2

/-- The place in `try_publish` lies before the seq store. -/
def PublishPc.unsent (bytes : List UInt8) : PublishPc → Prop
  | .idle => True
  | .loadTail message | .copy message _ | .storeSeq message => message = bytes
  | .storeHead => False

/-- Where the event loop and the ring stand to each other: what the ring has published
against what it should carry. -/
inductive Coupled : HandlerPc → PublishPc → List MarketTick → List MarketTick → Prop where
  | apart {pc : HandlerPc} {sent : List MarketTick} (outside : pc.publishing = 0) :
      Coupled pc .idle sent sent
  | before {done : Batch} {idx : Fin recvBatch} {bytes : List UInt8} {place : PublishPc}
      {sent : List MarketTick} (unsent : PublishPc.unsent bytes place) :
      Coupled (.publish done idx bytes) place sent (sent ++ [decode (zeroPad bytes)])
  | after {done : Batch} {idx : Fin recvBatch} {bytes : List UInt8} {sent : List MarketTick} :
      Coupled (.publish done idx bytes) .storeHead sent sent

variable {pc : HandlerPc} {sent due : List MarketTick} {ring memory : SpscRing}
  {producer moved : RingProducer} {shown : List RingEvent}

theorem Coupled.begins {place : PublishPc} (coupled : Coupled pc place sent due) : sent <+: due := by
  cases coupled with
  | apart | after => exact List.prefix_refl _
  | before => exact List.prefix_append _ _

theorem Coupled.call {done : Batch} {idx : Fin recvBatch} {bytes : List UInt8}
    (coupled : Coupled (.publish done idx bytes) .idle sent due) :
    Coupled (.publish done idx bytes) (.loadTail bytes) sent due := by
  cases coupled with
  | apart outside => exact absurd outside (show (1 : UInt64) ≠ 0 by decide)
  | before => exact .before rfl

theorem Coupled.producerStep (coupled : Coupled pc producer.pc sent due)
    (step : producer.step ring = some (memory, moved, shown)) :
    publishOutcome shown = none ∧
      Coupled pc moved.pc (sent ++ (RingEvent.publishedPayloads shown).map decode) due ∨
    ∃ accepted, publishOutcome shown = some accepted ∧ RingEvent.publishedPayloads shown = [] ∧
      moved.pc = .idle ∧ sent = if accepted then due else due.dropLast := by
  cases RingProducer.step_inv step with
  | full =>
    cases coupled with
    | before => exact .inr ⟨false, rfl, rfl, rfl, by simp⟩
  | room =>
    cases coupled with
    | before unsent => exact .inl ⟨rfl, by simpa [RingEvent.publishedPayloads] using .before unsent⟩
  | copy | copied =>
    cases coupled with
    | before unsent =>
      refine .inl ⟨rfl, ?_⟩
      rw [show RingEvent.publishedPayloads [] = [] from rfl, List.map_nil, List.append_nil]
      exact .before unsent
  | @storeSeq _ bytes =>
    cases coupled with
    | before unsent =>
      obtain rfl : bytes = _ := unsent
      exact .inl ⟨rfl, .after⟩
  | storeHead =>
    -- the head store returns `true`, and the message has been published before it
    cases coupled with
    | before => contradiction
    | after => exact .inr ⟨true, rfl, rfl, rfl, rfl⟩

theorem producer_quiet (step : producer.step ring = some (memory, moved, shown)) :
    RingEvent.returnedPayloads shown = [] := by
  cases RingProducer.step_inv step <;> rfl

theorem ticks_counted (history : List HandlerEvent) (accepted : Bool) :
    ticks (history ++ [.published accepted]) =
      if accepted then ticks history else (ticks history).dropLast := by
  cases accepted with
  | true => simp [ticks, undropped]
  | false => simp [ticks, List.map_dropLast]

theorem consumer_quiet {state after : RingState} {action : RingAction} {shown : List RingEvent}
    (side : action = .consumerStep ∨ ∃ out, action = .tryConsume out)
    (step : ringStep state action = some (after, shown)) :
    after.producer = state.producer ∧ RingEvent.publishedPayloads shown = [] := by
  cases ringStep_inv step with
  | tryPublish | producerStep | producerCrash | producerNew | consumerCrash | consumerNew =>
    rcases side with same | ⟨out, same⟩ <;> contradiction
  | tryConsume => exact ⟨rfl, rfl⟩
  | consumerStep move =>
    refine ⟨rfl, ?_⟩
    cases RingConsumer.step_inv move <;> rfl

section HandlerSteps

variable {handler after : Handler} {action : HandlerAction} {noted history : List HandlerEvent}
  {place : PublishPc}

theorem Coupled.outside (coupled : Coupled pc place sent due) (outside : pc.publishing = 0) :
    place = .idle ∧ sent = due := by
  cases coupled with
  | apart => exact ⟨rfl, rfl⟩
  | before | after => exact absurd outside (show (1 : UInt64) ≠ 0 by decide)

/-- What any other step of the loop or the kernel does to it: only the step that decodes a
datagram adds a tick, and leads into `try_publish`. -/
theorem Coupled.handlerStep (coupled : Coupled handler.pc place sent (ticks history))
    (placed : Placed handler history) (inside : internal action = true)
    (stepped : HandlerStepped handler action after noted) :
    Coupled after.pc place sent (ticks (history ++ noted)) := by
  cases stepped with
  | published => contradiction
  | order | timeout => rwa [List.append_nil]
  | @complete idx delivery =>
    have same : ticks (history ++ [.completed idx delivery]) = ticks history := by
      simp [ticks, undropped]
    rw [same]
    cases delivery <;> exact coupled
  | arm at' | collect at' | repost at' =>
    rw [at'] at coupled
    obtain ⟨rfl, rfl⟩ := coupled.outside rfl
    rw [List.append_nil]
    exact .apart rfl
  | move move =>
    have outside : handler.pc.publishing = 0 := by
      cases move with
      | leave at' | enter at' | woken at' | interrupted at' | waitFailed at' | finished at'
      | submitFailed at' | drained at' =>
        rw [at']
        rfl
    obtain ⟨rfl, rfl⟩ := coupled.outside outside
    rw [List.append_nil]
    exact .apart (move.publishing.trans outside)
  | @handle idx result done nowNs padding at' =>
    rw [at'] at coupled
    obtain ⟨rfl, rfl⟩ := coupled.outside rfl
    have outcome := placed.handled at' nowNs padding
    generalize handler.handleStep idx result done nowNs padding = made at outcome ⊢
    cases outcome with
    | failed found =>
      obtain ⟨errno, found⟩ := found
      have same : ticks (history ++ [.handled idx (.error errno) .failed]) = ticks history := by
        simp [ticks, undropped]
      rw [found, same]
      exact .apart rfl
    | @bad bytes found =>
      have same : ticks (history ++ [.handled idx (.data bytes) .bad]) = ticks history := by
        simp [ticks, undropped]
      rw [found, same]
      exact .apart rfl
    | @stamped bytes found =>
      have more : ticks (history ++ [.handled idx (.data bytes) (.stamped nowNs)]) =
          ticks history ++ [decode (zeroPad ((stampedTick bytes nowNs).bytes padding))] := by
        rw [ticks, undropped_stamped, List.map_append, decode_zeroPad]
        rfl
      rw [found, more]
      exact .before trivial

end HandlerSteps
end Coupling

section Pipeline

variable {memory : SpscRing} {state after : PipelineState} {action : PipelineAction}
  {events history : List PipelineEvent}

/-- How a state of the pipeline is composed. -/
structure Piped (memory : SpscRing) (state : PipelineState) (history : List PipelineEvent) :
    Prop where
  handler : feedhandler.Reachable state.handler (ofHandler history)
  ring : (spsc memory).Reach SafeCrash state.ring (ofRing history)
  coupled : ∃ producer, state.ring.producer = some producer ∧
    Coupled state.handler.pc producer.pc
      ((RingEvent.publishedPayloads (ofRing history)).map decode) (ticks (ofHandler history))
  decoded : decodings history =
    (RingEvent.returnedPayloads (ofRing history)).map decode

theorem Piped.ringMove (call : RingAction) (piped : Piped memory state history)
    (lives : call ≠ .producerCrash) (move : ringMove state call = some (after, events))
    (coupled : ∀ ring shown, ringStep state.ring call = some (ring, shown) →
      ∃ producer, ring.producer = some producer ∧ Coupled state.handler.pc producer.pc
        ((RingEvent.publishedPayloads (ofRing history ++ shown)).map decode)
        (ticks (ofHandler history))) : Piped memory after (history ++ events) := by
  obtain ⟨⟨ring, shown⟩, taken, made⟩ := Option.map_eq_some_iff.mp move
  cases made
  have onRing : ofRing (history ++ (shown.map .ring ++
      (RingEvent.returnedPayloads shown).map fun payload => .decoded (decode payload))) =
      ofRing history ++ shown := by
    simp [ofRing, List.filterMap_map]
  have onHandler : ofHandler (history ++ (shown.map .ring ++
      (RingEvent.returnedPayloads shown).map fun payload => .decoded (decode payload))) =
      ofHandler history := by
    simp [ofHandler, List.filterMap_map]
  have decodes : decodings (history ++ (shown.map .ring ++
      (RingEvent.returnedPayloads shown).map fun payload => .decoded (decode payload))) =
      decodings history ++ (RingEvent.returnedPayloads shown).map decode := by
    simp [decodings, List.filterMap_map]
  constructor
  case handler => rw [onHandler]; exact piped.handler
  case ring => rw [onRing]; exact piped.ring.next (fun crash => absurd crash lives) taken
  case coupled => rw [onRing, onHandler]; exact coupled ring shown taken
  case decoded =>
    rw [decodes, onRing, piped.decoded, RingEvent.returnedPayloads_append, List.map_append]

theorem Piped.consumerMove (call : RingAction) (piped : Piped memory state history)
    (side : call = .consumerStep ∨ ∃ out, call = .tryConsume out)
    (move : Feedhandler.ringMove state call = some (after, events)) :
    Piped memory after (history ++ events) := by
  obtain ⟨producer, attached, coupled⟩ := piped.coupled
  have lives : call ≠ .producerCrash := by
    rcases side with rfl | ⟨out, rfl⟩ <;> simp
  apply piped.ringMove call lives move
  intro ring shown taken
  obtain ⟨same, quiet⟩ := consumer_quiet side taken
  refine ⟨producer, same.trans attached, ?_⟩
  rw [RingEvent.publishedPayloads_append, quiet, List.append_nil]
  exact coupled

theorem Piped.handlerMove {action : HandlerAction} {handler : Handler} {noted : List HandlerEvent}
    (piped : Piped memory state history) (inside : internal action = true)
    (taken : handlerStep state.handler action = some (handler, noted)) :
    Piped memory { state with handler := handler } (history ++ noted.map .handler) := by
  obtain ⟨producer, attached, coupled⟩ := piped.coupled
  have placed := (known piped.handler).placed
  have kept := coupled.handlerStep placed inside (handlerStep_inv taken)
  have step : feedhandler.step state.handler action = some (handler, noted) := taken
  constructor
  case handler => simpa using piped.handler.next trivial step
  case ring => simpa using piped.ring
  case coupled => exact ⟨producer, attached, by simpa using kept⟩
  case decoded => simpa using piped.decoded

theorem Piped.callPublish {done : Batch} {idx : Fin recvBatch} {bytes : List UInt8}
    (piped : Piped memory state history) (at' : state.handler.pc = .publish done idx bytes)
    (move : Feedhandler.ringMove state (.tryPublish bytes) = some (after, events)) :
    Piped memory after (history ++ events) := by
  obtain ⟨producer, attached, coupled⟩ := piped.coupled
  apply piped.ringMove (.tryPublish bytes) (by simp) move
  intro ring shown taken
  rw [at'] at coupled ⊢
  simp only [ringStep, attached, Option.map_eq_some_iff, RingProducer.tryPublish,
    Option.ite_none_right_eq_some, Option.some.injEq] at taken
  obtain ⟨called, ⟨⟨idle, _⟩, rfl⟩, made⟩ := taken
  cases made
  rw [idle] at coupled
  exact ⟨_, rfl, by simpa [RingEvent.publishedPayloads] using coupled.call⟩

/-- A step of the producer. When the call returns, the loop counts what it answers. -/
theorem Piped.producerMove (piped : Piped memory state history)
    (step : pipelineStep state .producerStep = some (after, events)) :
    Piped memory after (history ++ events) := by
  obtain ⟨producer, attached, coupled⟩ := piped.coupled
  simp only [pipelineStep] at step
  split at step
  · contradiction
  · next ring shown taken =>
    have safe : SafeCrash state.ring .producerStep := by simp [SafeCrash]
    have reach := piped.ring.next safe taken
    simp only [ringStep, attached, Option.map_eq_some_iff] at taken
    obtain ⟨⟨memory, moved, shown⟩, move, made⟩ := taken
    cases made
    have decoded := producer_quiet move
    rcases coupled.producerStep move with
      ⟨outcome, coupled⟩ | ⟨accepted, outcome, quiet, idle, sent⟩
    · rw [outcome] at step
      cases step
      constructor
      case handler => simpa using piped.handler
      case ring => simpa using reach
      case coupled => exact ⟨moved, rfl, by simpa using coupled⟩
      case decoded => simpa [decoded] using piped.decoded
    · rw [outcome] at step
      obtain ⟨⟨handler, noted⟩, counted, made⟩ := Option.map_eq_some_iff.mp step
      cases made
      have returns : handler.pc.publishing = 0 ∧ noted = [.published accepted] := by
        simp only [handlerStep] at counted
        split at counted
        · cases counted
          exact ⟨rfl, rfl⟩
        · contradiction
      have same : ticks (ofHandler history ++ noted) =
          (RingEvent.publishedPayloads (ofRing history)).map decode := by
        rw [returns.2, ticks_counted, sent]
      have step : feedhandler.step state.handler (.published accepted) = some (handler, noted) :=
        counted
      constructor
      case handler => simpa using piped.handler.next trivial step
      case ring => simpa using reach
      case coupled =>
        refine ⟨moved, rfl, ?_⟩
        rw [idle]
        simpa [quiet, same] using Coupled.apart returns.1
      case decoded => simpa [decoded] using piped.decoded

theorem Piped.step (piped : Piped memory state history)
    (step : pipelineStep state action = some (after, events)) :
    Piped memory after (history ++ events) := by
  cases action with
  | handler action =>
    simp only [pipelineStep, Option.ite_none_right_eq_some, Option.map_eq_some_iff] at step
    obtain ⟨inside, ⟨handler, noted⟩, taken, made⟩ := step
    cases made
    exact piped.handlerMove inside taken
  | callPublish =>
    simp only [pipelineStep] at step
    split at step
    · next at' => exact piped.callPublish at' step
    · contradiction
  | producerStep => exact piped.producerMove step
  | tryConsume out => exact piped.consumerMove (.tryConsume out) (.inr ⟨out, rfl⟩) step
  | consumerStep => exact piped.consumerMove .consumerStep (.inl rfl) step

theorem piped (reach : (pipeline memory).Reachable state history) : Piped memory state history := by
  induction reach with
  | start =>
    constructor
    case handler => exact .start
    case ring => exact .start
    case coupled => exact ⟨_, rfl, .apart rfl⟩
    case decoded => rfl
  | next _ _ step ih => exact ih.step step

/-- What the pipeline makes of the completions. -/
structure Intact (state : PipelineState) (history : List PipelineEvent) : Prop where
  /-- The loop handles the completions in the order of the queue, with the bytes that the
  kernel delivered. -/
  order : handlings (ofHandler history) <+: completions (ofHandler history)
  verdicts : ∀ idx delivery verdict, .handled idx delivery verdict ∈ ofHandler history →
    verdict.Fits delivery
  decoded : decodings history <+:
    (undropped (ofHandler history)).map fun tick => stampedTick tick.1 tick.2
  carries : ∀ tick ∈ undropped (ofHandler history),
    MarketTick.Carries tick.1 tick.2 (stampedTick tick.1 tick.2)
  dropped : state.handler.publishDrops = .ofNat ((ofHandler history).count (.published false))
  received : state.handler.pc = .loopHead →
    state.handler.recvCount + state.handler.publishDrops + state.handler.badPackets =
      .ofNat (datagrams (ofHandler history)).length
  measured : state.handler.pc = .loopHead →
    state.handler.wireLat.count = state.handler.recvCount + state.handler.publishDrops

/-- In every run the engine decodes what the feedhandler has received and not dropped. -/
theorem pipeline_intact (reach : (pipeline memory).Reachable state history) :
    Intact state history := by
  obtain ⟨handler, ring, ⟨producer, attached, coupled⟩, decoded⟩ := piped reach
  obtain ⟨placed, tallied, sending⟩ := known handler
  constructor
  case order => exact placed.order
  case verdicts => exact sending.verdicts
  case decoded =>
    rw [decoded]
    exact ((returned_begins ring).map decode).trans coupled.begins
  case carries => exact fun tick member => MarketTick.carries_read tick.2 (sending.whole tick member)
  case dropped => exact tallied.dropped
  case received =>
    intro loopHead
    have received := tallied.received
    rw [loopHead] at received
    simpa [HandlerPc.publishing] using received
  case measured =>
    intro loopHead
    have measured := tallied.measured
    rw [loopHead] at measured
    simpa [HandlerPc.publishing] using measured

/-- A datagram of 70 bytes goes through, and one of 3 bytes is counted as bad. -/
theorem pipeline_intact_datagram : ∃ state history,
    decodings history = [stampedTick (List.replicate 70 7) 9] ∧
      state.handler.badPackets = 1 ∧ Intact state history := by
  let receive : List PipelineAction :=
    [.handler (.recvCompletes 5 (.data (.replicate 70 7))), .handler (.recvCompletes 2 (.data [1, 2, 3])),
      .handler (.loopHead false), .handler (.armTimeout true), .handler (.submitAndWait .ok),
      .handler .completionQueue, .handler (.handle 9 (.replicate 4 0)), .callPublish]
  let finish : List PipelineAction :=
    [.handler (.submitRecv true), .handler (.handle 9 (.replicate 4 0)), .handler (.submitRecv true),
      .handler (.handle 9 (.replicate 4 0)), .handler (.tryConsumeOrder false)]
  -- a whole datagram and a short one complete, and the engine consumes the first
  obtain ⟨state, history, reach, checked⟩ := System.exists_reach_of_run (pipeline .zeroed)
    (fun _ _ => True)
    (receive ++ List.replicate (slotPayload + 3) .producerStep ++ finish ++
      .tryConsume (zeroPad []) :: List.replicate (slotPayload + 2) .consumerStep)
    (fun reached => decodings reached.2 = [stampedTick (List.replicate 70 7) 9] ∧
      reached.1.handler.badPackets = 1)
    (System.allowedAlong_true _ _ _) (by decide +kernel)
  obtain ⟨decoded, bad⟩ := of_decide_eq_true checked
  exact ⟨state, history, decoded, bad, pipeline_intact reach⟩

end Pipeline

end TradingPipeline.Feedhandler
