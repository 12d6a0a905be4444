import TradingPipeline.Foundation.Transition
import TradingPipeline.Shmbus.Latency
import TradingPipeline.Shmbus.Message

/-! The event loop of the feedhandler and its io_uring operations.

A step is one action of the main thread or one completion by the kernel. A posted `Recv`
completes at most once, at any later time: it writes into its buffer and appends an entry
to the completion queue. The buffers are posted again one by one while the entries of a
batch are being handled.
-/

set_option autoImplicit false

namespace TradingPipeline.Feedhandler

open Foundation Shmbus

/-- `RECV_BATCH`. -/
abbrev recvBatch : Nat := 32

/-- `BUF_SIZE`. -/
abbrev bufSize : Nat := 128

abbrev Buffer := Vector UInt8 bufSize

/-- How a `Recv` ends: with the bytes of a datagram, or with an error number. -/
inductive Delivery where
  | data (bytes : List UInt8)
  | error (errno : Nat)
  deriving DecidableEq

/-- A datagram is cut to the buffer, and error numbers are positive. -/
def Delivery.possible : Delivery → Bool
  | .data bytes => bytes.length ≤ bufSize
  | .error errno => 0 < errno

/-- An entry of the completion queue; the timeout is told by its `user_data`. -/
inductive Completion where
  | timeout
  | recv (idx : Fin recvBatch) (result : Int)
  deriving DecidableEq

/-- What the loop notes of a completion that it handles. -/
inductive Verdict where
  | failed
  | bad
  /-- Decoded, and stamped with the time of receipt. -/
  | stamped (recvTsNs : UInt64)
  deriving DecidableEq

abbrev Batch := List (Fin recvBatch × Int)

/-- The batch that the loop makes of the queue: timeouts only wake it. -/
def recvs (completions : List Completion) : Batch :=
  completions.filterMap fun
    | .timeout => none
    | .recv idx result => some (idx, result)

inductive HandlerPc where
  | loopHead
  | armTimeout
  | submitAndWait
  | completionQueue
  | handle (done : Batch)
  /-- In `try_publish`, with the bytes of the tick. -/
  | publish (done : Batch) (idx : Fin recvBatch) (bytes : List UInt8)
  | submitRecv (done : Batch) (idx : Fin recvBatch)
  | drainOrders
  | returned
  deriving DecidableEq

structure Handler where
  pc : HandlerPc
  buffers : Fin recvBatch → Buffer
  /-- The buffers that the kernel may still write to. -/
  posted : Fin recvBatch → Bool
  /-- Timeouts handed to the kernel that have not completed. -/
  timeouts : Nat
  completions : List Completion
  recvCount : UInt64
  publishDrops : UInt64
  badPackets : UInt64
  orderCount : UInt64
  wireLat : LatencyHistogram

inductive WaitResult where
  | ok
  | interrupted
  | error
  deriving DecidableEq

inductive HandlerAction where
  /-- The loop goes on, unless the stop flag is set or the deadline has passed. -/
  | loopHead (leave : Bool)
  /-- Push the timeout; a full submission queue refuses it, which the code ignores. -/
  | armTimeout (pushed : Bool)
  /-- The wait for a completion. A wait that a signal cuts short after something was submitted can
  also return `Ok` without one, which is left out here. -/
  | submitAndWait (result : WaitResult)
  | completionQueue
  | handle (nowNs : UInt64) (padding : Vector UInt8 4)
  | published (accepted : Bool)
  | submitRecv (ok : Bool)
  | tryConsumeOrder (found : Bool)
  | recvCompletes (idx : Fin recvBatch) (delivery : Delivery)
  | timeoutCompletes
  deriving DecidableEq

inductive HandlerEvent where
  /-- The kernel completes a `Recv`. -/
  | completed (idx : Fin recvBatch) (delivery : Delivery)
  /-- The loop handles a completion: what it finds in the buffer, and what it makes of it. -/
  | handled (idx : Fin recvBatch) (delivery : Delivery) (verdict : Verdict)
  | published (accepted : Bool)
  deriving DecidableEq

/-- `parse_tick`. -/
def parseTick (bytes : List UInt8) : Option MarketTick :=
  if bytes.length < MarketTick.size then none else some (.read bytes)

/-- The tick with the feedhandler's time of receipt. -/
def stampedTick (bytes : List UInt8) (recvTsNs : UInt64) : MarketTick :=
  { MarketTick.read bytes with recvTsNs := recvTsNs }

/-- `&buffers[idx][..res]`, or the error. -/
def delivered (buffer : Buffer) (result : Int) : Delivery :=
  if result < 0 then .error (-result).toNat else .data (buffer.toList.take result.toNat)

/-- The buffer after the kernel has copied a datagram into it. -/
def Buffer.overwrite (buffer : Buffer) (bytes : List UInt8) : Buffer :=
  Vector.ofFn fun position => bytes.getD position buffer[position]

namespace Handler

def setPc (handler : Handler) (pc : HandlerPc) : Handler := { handler with pc := pc }

/-- One round of the `for` loop, up to `try_publish` or `submit_recv`. -/
def handleStep (handler : Handler) (idx : Fin recvBatch) (result : Int) (done : Batch)
    (nowNs : UInt64) (padding : Vector UInt8 4) : Handler × Verdict :=
  let bytes := (handler.buffers idx).toList.take result.toNat
  if result < 0 then (handler.setPc (.submitRecv done idx), .failed)
  else if result.toNat < MarketTick.size then
    ({ handler with pc := .submitRecv done idx, badPackets := handler.badPackets + 1 }, .bad)
  else
    match parseTick bytes with
    | some parsed =>
      let tick := { parsed with recvTsNs := nowNs }
      ({ handler with
          pc := .publish done idx (tick.bytes padding)
          wireLat := handler.wireLat.record (saturatingSub tick.recvTsNs tick.exchTsNs) },
        .stamped nowNs)
    | none =>
      ({ handler with pc := .submitRecv done idx, badPackets := handler.badPackets + 1 }, .bad)

/-- Counts the outcome of `try_publish`. -/
def counted (handler : Handler) (accepted : Bool) : Handler :=
  if accepted then { handler with recvCount := handler.recvCount + 1 }
  else { handler with publishDrops := handler.publishDrops + 1 }

/-- The kernel's side of a completed `Recv`. -/
def complete (handler : Handler) (idx : Fin recvBatch) (delivery : Delivery) : Handler :=
  let posted := Function.update handler.posted idx false
  match delivery with
  | .data bytes =>
    { handler with
      posted := posted
      buffers := Function.update handler.buffers idx ((handler.buffers idx).overwrite bytes)
      completions := handler.completions ++ [.recv idx bytes.length] }
  | .error errno =>
    { handler with
      posted := posted
      completions := handler.completions ++ [.recv idx (-errno)] }

end Handler

open Handler in
def handlerStep (handler : Handler) : HandlerAction → Option (Handler × List HandlerEvent)
  | .loopHead leave =>
    if handler.pc = .loopHead then
      some (handler.setPc (if leave then .returned else .armTimeout), [])
    else none
  | .armTimeout pushed =>
    if handler.pc = .armTimeout then
      some ({ handler with
        pc := .submitAndWait
        timeouts := handler.timeouts + (if pushed then 1 else 0) }, [])
    else none
  | .submitAndWait result =>
    if handler.pc = .submitAndWait then
      match result with
      | .ok =>
        -- it waits for one completion
        if handler.completions = [] then none else some (handler.setPc .completionQueue, [])
      | .interrupted => some (handler.setPc .loopHead, [])
      | .error => some (handler.setPc .returned, [])
    else none
  | .completionQueue =>
    if handler.pc = .completionQueue then
      some ({ handler with pc := .handle (recvs handler.completions), completions := [] }, [])
    else none
  | .handle nowNs padding =>
    match handler.pc with
    | .handle [] => some (handler.setPc .drainOrders, [])
    | .handle ((idx, result) :: done) =>
      let (handled, verdict) := handler.handleStep idx result done nowNs padding
      some (handled, [.handled idx (delivered (handler.buffers idx) result) verdict])
    | _ => none
  | .published accepted =>
    match handler.pc with
    | .publish done idx _ =>
      some ((handler.counted accepted).setPc (.submitRecv done idx), [.published accepted])
    | _ => none
  | .submitRecv ok =>
    match handler.pc with
    | .submitRecv done idx =>
      if ok then
        some ({ handler with
          pc := .handle done
          posted := Function.update handler.posted idx true }, [])
      else some (handler.setPc .returned, [])
    | _ => none
  | .tryConsumeOrder found =>
    if handler.pc = .drainOrders then
      some (if found then { handler with orderCount := handler.orderCount + 1 }
        else handler.setPc .loopHead, [])
    else none
  | .recvCompletes idx delivery =>
    if handler.posted idx ∧ delivery.possible then
      some (handler.complete idx delivery, [.completed idx delivery])
    else none
  | .timeoutCompletes =>
    if 0 < handler.timeouts then
      some ({ handler with
        timeouts := handler.timeouts - 1
        completions := handler.completions ++ [.timeout] }, [])
    else none

/-- The event loop, from the state in which `main` has posted all buffers. -/
def feedhandler : System Handler HandlerAction HandlerEvent where
  start :=
    { pc := .loopHead
      buffers := fun _ => Vector.replicate bufSize 0
      posted := fun _ => true
      timeouts := 0
      completions := []
      recvCount := 0
      publishDrops := 0
      badPackets := 0
      orderCount := 0
      wireLat := .new }
  step := handlerStep

/-- Moves of the main thread that touch nothing but its program counter. -/
inductive HandlerMove (handler : Handler) : HandlerPc → Prop where
  | leave (at' : handler.pc = .loopHead) : HandlerMove handler .returned
  | enter (at' : handler.pc = .loopHead) : HandlerMove handler .armTimeout
  | woken (at' : handler.pc = .submitAndWait) : HandlerMove handler .completionQueue
  | interrupted (at' : handler.pc = .submitAndWait) : HandlerMove handler .loopHead
  | waitFailed (at' : handler.pc = .submitAndWait) : HandlerMove handler .returned
  | finished (at' : handler.pc = .handle []) : HandlerMove handler .drainOrders
  | submitFailed {done : Batch} {idx : Fin recvBatch} (at' : handler.pc = .submitRecv done idx) :
      HandlerMove handler .returned
  | drained (at' : handler.pc = .drainOrders) : HandlerMove handler .loopHead

/-- Everything that one step can do. -/
inductive HandlerStepped (handler : Handler) :
    HandlerAction → Handler → List HandlerEvent → Prop where
  | move {action : HandlerAction} {pc : HandlerPc} (move : HandlerMove handler pc) :
      HandlerStepped handler action (handler.setPc pc) []
  | arm {pushed : Bool} (at' : handler.pc = .armTimeout) :
      HandlerStepped handler (.armTimeout pushed)
        { handler with
          pc := .submitAndWait
          timeouts := handler.timeouts + (if pushed then 1 else 0) } []
  | collect (at' : handler.pc = .completionQueue) :
      HandlerStepped handler .completionQueue
        { handler with pc := .handle (recvs handler.completions), completions := [] } []
  | handle {idx : Fin recvBatch} {result : Int} {done : Batch} {nowNs : UInt64}
      {padding : Vector UInt8 4} (at' : handler.pc = .handle ((idx, result) :: done)) :
      HandlerStepped handler (.handle nowNs padding)
        (handler.handleStep idx result done nowNs padding).1
        [.handled idx (delivered (handler.buffers idx) result)
          (handler.handleStep idx result done nowNs padding).2]
  | published {done : Batch} {idx : Fin recvBatch} {bytes : List UInt8} {accepted : Bool}
      (at' : handler.pc = .publish done idx bytes) :
      HandlerStepped handler (.published accepted)
        ((handler.counted accepted).setPc (.submitRecv done idx)) [.published accepted]
  | repost {done : Batch} {idx : Fin recvBatch} (at' : handler.pc = .submitRecv done idx) :
      HandlerStepped handler (.submitRecv true)
        { handler with
          pc := .handle done
          posted := Function.update handler.posted idx true } []
  | order (at' : handler.pc = .drainOrders) :
      HandlerStepped handler (.tryConsumeOrder true)
        { handler with orderCount := handler.orderCount + 1 } []
  | complete {idx : Fin recvBatch} {delivery : Delivery} (posted : handler.posted idx = true)
      (possible : delivery.possible = true) :
      HandlerStepped handler (.recvCompletes idx delivery) (handler.complete idx delivery)
        [.completed idx delivery]
  | timeout (outstanding : 0 < handler.timeouts) :
      HandlerStepped handler .timeoutCompletes
        { handler with
          timeouts := handler.timeouts - 1
          completions := handler.completions ++ [.timeout] } []

theorem handlerStep_inv {handler after : Handler} {action : HandlerAction}
    {events : List HandlerEvent} (step : handlerStep handler action = some (after, events)) :
    HandlerStepped handler action after events := by
  cases action with
  | loopHead leave =>
    simp only [handlerStep, Option.ite_none_right_eq_some] at step
    obtain ⟨at', step⟩ := step
    cases step
    cases leave
    · exact .move (.enter at')
    · exact .move (.leave at')
  | armTimeout pushed =>
    simp only [handlerStep, Option.ite_none_right_eq_some] at step
    obtain ⟨at', step⟩ := step
    cases step
    exact .arm at'
  | submitAndWait result =>
    simp only [handlerStep, Option.ite_none_right_eq_some] at step
    obtain ⟨at', step⟩ := step
    cases result with
    | ok =>
      simp only [Option.ite_none_left_eq_some] at step
      cases step.2
      exact .move (.woken at')
    | interrupted => cases step; exact .move (.interrupted at')
    | error => cases step; exact .move (.waitFailed at')
  | completionQueue =>
    simp only [handlerStep, Option.ite_none_right_eq_some] at step
    obtain ⟨at', step⟩ := step
    cases step
    exact .collect at'
  | handle nowNs padding =>
    simp only [handlerStep] at step
    split at step
    · next at' => cases step; exact .move (.finished at')
    · next at' => cases step; exact .handle at'
    · contradiction
  | published accepted =>
    simp only [handlerStep] at step
    split at step
    · next at' => cases step; exact .published at'
    · contradiction
  | submitRecv ok =>
    simp only [handlerStep] at step
    split at step
    · next at' =>
      cases ok
      · cases step; exact .move (.submitFailed at')
      · cases step; exact .repost at'
    · contradiction
  | tryConsumeOrder found =>
    simp only [handlerStep, Option.ite_none_right_eq_some] at step
    obtain ⟨at', step⟩ := step
    cases found
    · cases step; exact .move (.drained at')
    · cases step; exact .order at'
  | recvCompletes idx delivery =>
    simp only [handlerStep, Option.ite_none_right_eq_some] at step
    obtain ⟨⟨posted, possible⟩, step⟩ := step
    cases step
    exact .complete posted possible
  | timeoutCompletes =>
    simp only [handlerStep, Option.ite_none_right_eq_some] at step
    obtain ⟨outstanding, step⟩ := step
    cases step
    exact .timeout outstanding

end TradingPipeline.Feedhandler
